import Mathlib.Data.BitVec
import Mathlib.Algebra.BigOperators.Group.List

/-!
# Blocks of the allocator

`Allocator_impl.hpp` hands out blocks of host memory through `Allocator::allocate`, which
forwards the byte count to the host's `alloc.Allocate`. A block is modelled as its bytes;
the byte counts are `size_t` words, so a sum or a product that passes `2^64` wraps.

* `allocate`: a zeroed block of the requested size.
* `leBytes`/`ofLE`: the bytes of a machine word, least significant first, and back
  (`ofLE_leBytes`).
* `store`/`load`: an access to bytes `off .. off + n` of a block, undefined past its end,
  with `load_store_self` and the frame lemma `load_store_of_disjoint`.
* `allocateByteString`: a block of `kEffectiveHeaderSize + inSize` bytes, the sum taken in
  `size_t`. At `inSize = SIZE_MAX` the sum wraps and the block is shorter than the header
  alone (`allocateByteString_wraps`).
-/

namespace MadlibPort

/-- `size_t`: words of 64 bits. -/
abbrev SizeT : Type := BitVec 64

/-- `Allocator::allocate(inSize)`: the host's `alloc.Allocate(inSize)`, a fresh block of
`inSize` bytes. The callers here ask for `dbal::DoZero`; the block is zeroed. -/
def allocate (inSize : SizeT) : List UInt8 := List.replicate inSize.toNat 0

@[simp] theorem length_allocate (inSize : SizeT) : (allocate inSize).length = inSize.toNat :=
  List.length_replicate _ _

/-! ## Machine words as bytes -/

/-- The `w` bytes of `x`, least significant first: a `w`-byte word as the block holds it.
Bits above `8 * w` are dropped. -/
def leBytes : ℕ → ℕ → List UInt8
  | 0, _ => []
  | w + 1, x => UInt8.ofNat x :: leBytes w (x / 256)

/-- The number that bytes hold, least significant first. -/
def ofLE : List UInt8 → ℕ
  | [] => 0
  | b :: bs => b.toNat + 256 * ofLE bs

@[simp] theorem length_leBytes (w x : ℕ) : (leBytes w x).length = w := by
  induction w generalizing x with
  | zero => rfl
  | succ w ih => simp [leBytes, ih]

theorem ofLE_leBytes (w x : ℕ) : ofLE (leBytes w x) = x % 256 ^ w := by
  induction w generalizing x with
  | zero => simp [leBytes, ofLE, Nat.mod_one]
  | succ w ih =>
    have hb : (UInt8.ofNat x).toNat = x % 256 := rfl
    rw [leBytes, ofLE, ih, hb, pow_succ', Nat.mod_mul]

/-! ## Accesses inside a block -/

/-- `memcpy` of `bs` to byte `off` of a block; undefined when it runs past the end. -/
def store (m : List UInt8) (off : ℕ) (bs : List UInt8) : Option (List UInt8) :=
  if off + bs.length ≤ m.length then some (m.take off ++ bs ++ m.drop (off + bs.length))
  else none

/-- The `n` bytes of a block from byte `off`; undefined when they run past the end. -/
def load (m : List UInt8) (off n : ℕ) : Option (List UInt8) :=
  if off + n ≤ m.length then some ((m.drop off).take n) else none

variable {m m' bs : List UInt8} {off : ℕ}

theorem store_isSome (m : List UInt8) (off : ℕ) (bs : List UInt8)
    (h : off + bs.length ≤ m.length) : ∃ m', store m off bs = some m' :=
  ⟨_, if_pos h⟩

theorem length_of_store (h : store m off bs = some m') : m'.length = m.length := by
  unfold store at h
  split at h <;> cases h
  simp; omega

theorem le_length_of_store (h : store m off bs = some m') : off + bs.length ≤ m.length := by
  unfold store at h
  split at h
  · assumption
  · cases h

/-- A store changes exactly the bytes it covers. -/
theorem getElem?_store (h : store m off bs = some m') (j : ℕ) :
    m'[j]? = if off ≤ j ∧ j < off + bs.length then bs[j - off]? else m[j]? := by
  have hle := le_length_of_store h
  unfold store at h
  rw [if_pos hle] at h
  cases h
  by_cases hj : j < off
  · rw [List.getElem?_append_left (by simp; omega), List.getElem?_append_left (by simp; omega),
      List.getElem?_take_of_lt hj, if_neg (by omega)]
  by_cases hj' : j < off + bs.length
  · rw [List.getElem?_append_left (by simp; omega), List.getElem?_append_right (by simp; omega),
      if_pos ⟨by omega, hj'⟩]
    simp; congr 1; omega
  · rw [List.getElem?_append_right (by simp; omega), List.getElem?_drop, if_neg (by omega)]
    simp; congr 1; omega

/-- A store is read back. -/
theorem load_store_self (h : store m off bs = some m') : load m' off bs.length = some bs := by
  have hle := le_length_of_store h
  rw [load, if_pos (by rw [length_of_store h]; exact hle)]
  congr 1
  apply List.ext_getElem?
  intro i
  rw [List.getElem?_take, List.getElem?_drop, getElem?_store h]
  by_cases hi : i < bs.length
  · rw [if_pos hi, if_pos ⟨by omega, by omega⟩, Nat.add_sub_cancel_left]
  · rw [if_neg hi, List.getElem?_eq_none (by omega)]

/-- **Frame.** A store leaves every range it does not cover as it was. -/
theorem load_store_of_disjoint (h : store m off bs = some m') {off' n : ℕ}
    (hd : off' + n ≤ off ∨ off + bs.length ≤ off') : load m' off' n = load m off' n := by
  unfold load
  rw [length_of_store h]
  split
  · congr 1
    apply List.ext_getElem?
    intro i
    rw [List.getElem?_take, List.getElem?_take, List.getElem?_drop, List.getElem?_drop,
      getElem?_store h]
    split_ifs <;> first | rfl | omega
  · rfl

/-! ## Byte strings -/

/-- `MutableByteString(byteString, size)`: a block and the size recorded with it. -/
structure MutableByteString where
  /-- the block -/
  bytes : List UInt8
  /-- the recorded size -/
  size : SizeT
  deriving DecidableEq, Repr

/-- `Allocator::allocateByteString(inSize)`: a block of `kEffectiveHeaderSize + inSize`
bytes, the sum taken in `size_t`, recorded with the same sum. `kEffectiveHeaderSize`, a
constant of `ByteString`, is not in the repository's files, so it is a parameter. -/
def allocateByteString (kEffectiveHeaderSize inSize : SizeT) : MutableByteString :=
  ⟨allocate (kEffectiveHeaderSize + inSize), kEffectiveHeaderSize + inSize⟩

/-- **`allocateByteString(SIZE_MAX)` wraps.** For any header of at least one byte, the sum
`kEffectiveHeaderSize + SIZE_MAX` wraps to `kEffectiveHeaderSize - 1`: that is what is
allocated and recorded, a block shorter than the header alone. -/
theorem allocateByteString_wraps (kEffectiveHeaderSize : SizeT) (hk : kEffectiveHeaderSize ≠ 0) :
    (allocateByteString kEffectiveHeaderSize (BitVec.allOnes 64)).size = kEffectiveHeaderSize - 1 ∧
      (allocateByteString kEffectiveHeaderSize (BitVec.allOnes 64)).bytes.length =
        kEffectiveHeaderSize.toNat - 1 := by
  have hpos : 0 < kEffectiveHeaderSize.toNat :=
    Nat.pos_of_ne_zero fun h0 => hk (BitVec.eq_of_toNat_eq h0)
  have hlt : kEffectiveHeaderSize.toNat < 18446744073709551616 := kEffectiveHeaderSize.isLt
  have hs : (kEffectiveHeaderSize + BitVec.allOnes 64).toNat = kEffectiveHeaderSize.toNat - 1 := by
    rw [BitVec.toNat_add, BitVec.toNat_allOnes]; omega
  refine ⟨BitVec.eq_of_toNat_eq ?_, by simp only [allocateByteString, length_allocate, hs]⟩
  rw [show (allocateByteString kEffectiveHeaderSize (BitVec.allOnes 64)).size =
    kEffectiveHeaderSize + BitVec.allOnes 64 from rfl, hs, BitVec.toNat_sub]
  simp; omega

theorem allocateByteString_wraps_sixteen :
    (16 : SizeT) ≠ 0 ∧
      (allocateByteString 16 (BitVec.allOnes 64)).size = 16 - 1 ∧
      (allocateByteString 16 (BitVec.allOnes 64)).bytes.length = (16 : SizeT).toNat - 1 :=
  ⟨by decide, allocateByteString_wraps 16 (by decide)⟩

end MadlibPort
