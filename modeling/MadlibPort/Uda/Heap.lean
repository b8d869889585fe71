import MadlibPort.Uda.Values
import Mathlib.Data.List.MinMax
import Mathlib.Data.List.Lex

/-!
# The `UdfContext` heap and the byte operations of `Min`

`MinState` keeps its current minimum in a buffer it takes from `context->Allocate`, returns
with `context->Free`, fills with `memcpy` and compares with `memcmp`. This module models
those operations; the ones that can touch memory outside a live block are partial.

* `Heap` holds the blocks a context has handed out. Pointer `p + 1` names block `p`, and
  `NULL` names none. A freed block stays freed, so a later `Allocate` never reuses it.
* `Heap.allocate` always succeeds. `Heap.free`, `Heap.memcpy` and `Heap.read` return `none`
  where the C call is undefined: freeing, writing or reading past a block that is not live,
  or past the end of a live one.
* One convention, stated here and not proved: a `memcpy` or a read of zero bytes is defined
  and touches nothing, whatever the pointer. ISO C leaves `memcpy` undefined when a pointer
  argument is `NULL`, even for a count of zero, and `MinState::Set` makes exactly that call,
  `memcpy(NULL, ptr, 0)`, when a state without a buffer takes a non-null empty string. The
  model counts that call as copying nothing; every result below that says a call "is
  defined" or "touches only live memory" holds under this convention.
* `Heap.Keeps h h' p` is the frame condition of an operation on the single buffer `p`:
  every other live block of `h` is live in `h'` with the same bytes. Its converse,
  `Heap.free_block?`, `Heap.block?_allocate_ne` and `Heap.memcpy_block?_ne`: no operation
  changes a block it does not target.
* `memcmp_lt_iff`: the test `MinUpdate` makes with `memcmp` is the lexicographic order on
  the strings' unsigned byte values (`key`), with a proper prefix first.
-/

namespace MadlibPort

/-- A pointer to a block of the context's heap; `0` is `NULL`. -/
abbrev Ptr : Type := ℕ

/-- The blocks a `UdfContext` has handed out: pointer `p + 1` names `blocks[p]`, which is
`some bytes` while the block is live and `none` once it is freed. -/
structure Heap where
  /-- every block ever allocated, in allocation order -/
  blocks : List (Option (List UInt8))
  deriving Repr

namespace Heap

/-- A context that has allocated nothing. -/
def empty : Heap := ⟨[]⟩

/-- The live block a pointer names, if any; `NULL` names none. -/
def block? (h : Heap) : Ptr → Option (List UInt8)
  | 0 => none
  | p + 1 => h.blocks.getD p none

/-- Replace the block a non-null pointer names. -/
def setBlock (h : Heap) : Ptr → Option (List UInt8) → Heap
  | 0, _ => h
  | p + 1, v => ⟨h.blocks.set p v⟩

/-- `context->Allocate(n)`: a fresh block of `n` bytes. The context does not clear it; zeros
stand for its contents, which `MinState::Set` overwrites before any read. -/
def allocate (h : Heap) (n : ℕ) : Ptr × Heap :=
  (h.blocks.length + 1, ⟨h.blocks ++ [some (List.replicate n 0)]⟩)

/-- `context->Free(p)`: `NULL` is ignored, which `MinState::Set` relies on the first time it
grows a state's buffer; freeing anything but a live block is undefined. -/
def free (h : Heap) (p : Ptr) : Option Heap :=
  if p = 0 then some h else (h.block? p).map fun _ => h.setBlock p none

/-- `memcpy(p, bytes, n)` with `n` the number of `bytes`: overwrites the first `n` bytes of
block `p`; copying into no live block, or past the end of one, is undefined. Copying no bytes
does nothing, even to `NULL`: ISO C leaves `memcpy(NULL, src, 0)` undefined, and the model
takes the convention that it copies nothing (see the module header). -/
def memcpy (h : Heap) (p : Ptr) (bytes : List UInt8) : Option Heap :=
  if bytes = [] then some h else
    (h.block? p).bind fun b =>
      if bytes.length ≤ b.length then some (h.setBlock p (some (bytes ++ b.drop bytes.length)))
      else none

/-- A read of the first `n` bytes of block `p`, as `memcmp` and a `memcpy` source make it.
Reading no bytes needs no block; reading past a live block is undefined. -/
def read (h : Heap) (p : Ptr) (n : ℕ) : Option (List UInt8) :=
  if n = 0 then some [] else
    (h.block? p).bind fun b => if n ≤ b.length then some (b.take n) else none

/-- `h'` keeps every live block of `h` other than `p`, with the same bytes. -/
def Keeps (h h' : Heap) (p : Ptr) : Prop :=
  ∀ q b, q ≠ p → h.block? q = some b → h'.block? q = some b

/-- `h'` keeps every live block of `h`, with the same bytes. -/
def Extends (h h' : Heap) : Prop :=
  ∀ q b, h.block? q = some b → h'.block? q = some b

variable {h h' h'' : Heap} {p q : Ptr} {b : List UInt8} {n : ℕ}

@[simp] theorem block?_zero : h.block? 0 = none := rfl

theorem ne_zero_of_block? (hb : h.block? p = some b) : p ≠ 0 := by
  rintro rfl; simp at hb

theorem lt_length_of_block? (hb : h.block? (p + 1) = some b) : p < h.blocks.length := by
  by_contra hp
  rw [block?, List.getD_eq_getElem?_getD, List.getElem?_eq_none (Nat.le_of_not_lt hp)] at hb
  cases hb

theorem block?_setBlock_ne (hq : q ≠ p) (v : Option (List UInt8)) :
    (h.setBlock p v).block? q = h.block? q := by
  rcases p with _ | p
  · rfl
  rcases q with _ | q
  · rfl
  have hpq : p ≠ q := fun e => hq (by rw [e])
  simp only [setBlock, block?, List.getD_eq_getElem?_getD, List.getElem?_set_ne hpq]

theorem block?_setBlock_self (hb : h.block? p = some b) (v : Option (List UInt8)) :
    (h.setBlock p v).block? p = v := by
  obtain ⟨p, rfl⟩ := Nat.exists_eq_succ_of_ne_zero (ne_zero_of_block? hb)
  simp [setBlock, block?, List.getD_eq_getElem?_getD, lt_length_of_block? hb]

@[simp] theorem length_setBlock (v : Option (List UInt8)) :
    (h.setBlock p v).blocks.length = h.blocks.length := by
  rcases p with _ | p <;> simp [setBlock]

theorem Keeps.refl (h : Heap) (p : Ptr) : h.Keeps h p := fun _ _ _ hb => hb

theorem Keeps.trans (h₁ : h.Keeps h' p) (h₂ : h'.Keeps h'' p) : h.Keeps h'' p :=
  fun q b hq hb => h₂ q b hq (h₁ q b hq hb)

theorem Extends.refl (h : Heap) : h.Extends h := fun _ _ hb => hb

theorem Extends.trans (h₁ : h.Extends h') (h₂ : h'.Extends h'') : h.Extends h'' :=
  fun q b hb => h₂ q b (h₁ q b hb)

theorem Extends.toKeeps (he : h.Extends h') (p : Ptr) : h.Keeps h' p := fun q b _ => he q b

theorem Extends.block?_eq_none (he : h.Extends h') (hn : h'.block? p = none) :
    h.block? p = none := by
  cases hb : h.block? p with
  | none => rfl
  | some b => rw [he p b hb] at hn; cases hn

/-- An operation that kept all but `p`, where `p` was not live in `h₀`, kept all of `h₀`. -/
theorem Extends.keeps {h₀ : Heap} (he : h₀.Extends h) (hk : h.Keeps h' p)
    (hp : p = 0 ∨ h₀.block? p = none) : h₀.Extends h' := by
  intro q b hb
  refine hk q b ?_ (he q b hb)
  rintro rfl
  rcases hp with h0 | hn
  · exact ne_zero_of_block? hb h0
  · rw [hn] at hb; cases hb

theorem keeps_setBlock (v : Option (List UInt8)) : h.Keeps (h.setBlock p v) p :=
  fun _ _ hq hb => (block?_setBlock_ne hq v).trans hb

/-! ### `Allocate` -/

theorem allocate_fst_ne_zero : (h.allocate n).1 ≠ 0 := Nat.succ_ne_zero _

theorem allocate_fst : (h.allocate n).1 = h.blocks.length + 1 := rfl

/-- The pointer the next allocation returns names no live block. -/
theorem block?_length_succ : h.block? (h.blocks.length + 1) = none := by
  simp [block?, List.getD_eq_getElem?_getD]

theorem block?_allocate_self : (h.allocate n).2.block? (h.allocate n).1 = some (List.replicate n 0) := by
  simp [allocate, block?, List.getD_eq_getElem?_getD]

/-- Allocation keeps every live block. -/
theorem keeps_allocate (p : Ptr) : h.Keeps (h.allocate n).2 p := by
  rintro (_ | q) b - hb
  · simp at hb
  · have hq := lt_length_of_block? hb
    simpa [allocate, block?, List.getD_eq_getElem?_getD, List.getElem?_append_left hq] using hb

/-! ### `Free`, `memcpy` and reads -/

@[simp] theorem free_zero : h.free 0 = some h := rfl

/-- Freeing `NULL` or a live block keeps every other live block and allocates nothing. -/
theorem free_spec (hp : p = 0 ∨ ∃ b, h.block? p = some b) :
    ∃ h', h.free p = some h' ∧ h.Keeps h' p ∧ h'.blocks.length = h.blocks.length := by
  rcases hp with rfl | ⟨b, hb⟩
  · exact ⟨h, rfl, Keeps.refl h 0, rfl⟩
  · exact ⟨_, by simp [free, ne_zero_of_block? hb, hb], keeps_setBlock none, length_setBlock none⟩

@[simp] theorem memcpy_nil : h.memcpy p [] = some h := rfl

/-- Copying into a live block that is long enough: the copied bytes replace the block's
first bytes, its length is unchanged, and every other live block is kept. -/
theorem memcpy_spec (bytes : List UInt8) (hb : h.block? p = some b) (hn : bytes.length ≤ b.length) :
    ∃ h', h.memcpy p bytes = some h' ∧ h'.block? p = some (bytes ++ b.drop bytes.length) ∧
      h.Keeps h' p := by
  by_cases he : bytes = []
  · subst he; exact ⟨h, rfl, by simpa using hb, Keeps.refl h p⟩
  · exact ⟨_, by simp [memcpy, he, hb, hn], block?_setBlock_self hb _, keeps_setBlock _⟩

@[simp] theorem read_zero : h.read p 0 = some [] := rfl

theorem read_eq (hb : h.block? p = some b) (hn : n ≤ b.length) : h.read p n = some (b.take n) := by
  by_cases h0 : n = 0
  · subst h0; rfl
  · simp [read, h0, hb, hn]

/-! ### What each operation leaves of the other blocks

The converse of the frame conditions above: every block an operation did not target is as
it was, live or not. -/

theorem block?_allocate_ne (hq : q ≠ (h.allocate n).1) : (h.allocate n).2.block? q = h.block? q := by
  rcases q with _ | k
  · rfl
  have hk : k ≠ h.blocks.length := fun e => hq (by rw [e]; rfl)
  simp only [allocate, block?, List.getD_eq_getElem?_getD]
  rcases Nat.lt_or_gt_of_ne hk with hlt | hgt
  · rw [List.getElem?_append_left hlt]
  · rw [List.getElem?_eq_none (by simp; omega), List.getElem?_eq_none (by omega)]

/-- `Free` kills its block and changes no other. -/
theorem free_block? (hf : h.free p = some h') (q : Ptr) :
    h'.block? q = if q = p then none else h.block? q := by
  unfold free at hf
  split_ifs at hf with h0
  · cases hf; subst h0; split_ifs with hq
    · rw [hq]; rfl
    · rfl
  · obtain ⟨b, hb, rfl⟩ := Option.map_eq_some'.mp hf
    split_ifs with hq
    · subst hq; exact block?_setBlock_self hb none
    · exact block?_setBlock_ne hq none

theorem memcpy_block?_ne {bytes : List UInt8} (hm : h.memcpy p bytes = some h') (hq : q ≠ p) :
    h'.block? q = h.block? q := by
  unfold memcpy at hm
  split_ifs at hm with he
  · cases hm; rfl
  · obtain ⟨b, -, hm⟩ := Option.bind_eq_some.mp hm
    split_ifs at hm
    cases hm; exact block?_setBlock_ne hq _

end Heap

/-! ## The byte order of `memcmp` -/

/-- `memcmp(a, b, n)`: compares the first `n` bytes as unsigned chars; the result has the
sign of the first pair of bytes that differ, and is `0` when there is none. -/
def memcmp : List UInt8 → List UInt8 → ℕ → Int
  | a :: as, b :: bs, n + 1 => if a = b then memcmp as bs n else (a.toNat : Int) - b.toNat
  | _, _, _ => 0

@[simp] theorem memcmp_zero (a b : List UInt8) : memcmp a b 0 = 0 := by
  cases a <;> cases b <;> rfl

/-- `memcmp` over `n` bytes reads no further than the first `n` bytes of its second
argument. -/
theorem memcmp_take (a b : List UInt8) {m n : ℕ} (hn : n ≤ m) : memcmp a (b.take m) n = memcmp a b n := by
  induction a generalizing b m n with
  | nil => cases n <;> rfl
  | cons x as ih =>
    rcases n with _ | n
    · simp
    obtain ⟨m, rfl⟩ := Nat.exists_eq_add_of_le' (Nat.succ_le_of_lt (Nat.zero_lt_of_lt hn))
    cases b with
    | nil => rfl
    | cons y bs => simp only [List.take_succ_cons, memcmp, ih bs (Nat.le_of_succ_le_succ hn)]

/-- A byte string as the sequence of its unsigned byte values: `List ℕ` carries the
lexicographic order in which `Min` means to pick its result. -/
def key (b : List UInt8) : List ℕ := b.map UInt8.toNat

@[simp] theorem key_nil : key [] = [] := rfl

@[simp] theorem key_cons (x : UInt8) (b : List UInt8) : key (x :: b) = x.toNat :: key b := rfl

@[simp] theorem key_eq_nil {b : List UInt8} : key b = [] ↔ b = [] := List.map_eq_nil_iff

theorem UInt8.eq_of_toNat_eq {x y : UInt8} (h : x.toNat = y.toNat) : x = y :=
  UInt8.eq_of_val_eq (Fin.ext h)

theorem key_injective : Function.Injective key :=
  List.map_injective_iff.mpr fun _ _ => UInt8.eq_of_toNat_eq

theorem lex_cons_cons_iff {r : ℕ → ℕ → Prop} {a b : ℕ} {l m : List ℕ} :
    List.Lex r (a :: l) (b :: m) ↔ r a b ∨ (a = b ∧ List.Lex r l m) := by
  constructor
  · rintro (_ | h | h)
    · exact .inr ⟨rfl, ‹_›⟩
    · exact .inl h
  · rintro (h | ⟨rfl, h⟩)
    · exact .rel h
    · exact .cons h

/-- **`memcmp` orders strings lexicographically.** The test of `MinUpdate` — `memcmp` over
the shorter length is negative, or zero with the input shorter — holds exactly when the
input's byte values come first in the lexicographic order. -/
theorem memcmp_lt_iff (a b : List UInt8) :
    (memcmp a b (min a.length b.length) < 0 ∨
        (memcmp a b (min a.length b.length) = 0 ∧ a.length < b.length)) ↔ key a < key b := by
  induction a generalizing b with
  | nil =>
    cases b with
    | nil => simp [memcmp]
    | cons y bs => simpa [memcmp] using List.Lex.nil
  | cons x as ih =>
    cases b with
    | nil => simp [memcmp]
    | cons y bs =>
      show (_ ∨ _) ↔ List.Lex _ _ _
      rw [List.length_cons, List.length_cons, Nat.succ_min_succ, key_cons, key_cons,
        lex_cons_cons_iff]
      by_cases hxy : x = y
      · subst hxy
        simp only [memcmp, if_pos rfl, lt_irrefl, false_or, true_and, Nat.succ_lt_succ_iff]
        exact ih bs
      · have hne : x.toNat ≠ y.toNat := fun h => hxy (UInt8.eq_of_toNat_eq h)
        simp only [memcmp, if_neg hxy, hne, false_and, or_false]
        omega

end MadlibPort
