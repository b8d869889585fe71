import Mathlib
import MadlibPort.Uda.Values

/-!
# Aggregates with a `BigIntVal` intermediate: `Count` and `Bits after Xor`

Both aggregates keep one non-null 64-bit word as their intermediate state, and the
harness passes no serialize function for them, so a merge reads the source state directly.

* `Count(int_col)` adds one per non-null row and sums on merge. Over every execution whose
  number of non-null rows stays below `2^63`, it finalizes to exactly that number
  (`countFinalize_countRun`): the word arithmetic wraps nowhere below that bound.
* `Bits after Xor` is documented to xor the bit patterns of all its `double` inputs, but
  `XorUpdate` and `XorMerge` combine with `|=`. Every execution computes the bitwise *or*
  of the non-null patterns (`xorRun_eq_orAll`), which differs from their xor as soon as a
  bit is set twice (`xorRun_repeated_input`).
-/

namespace MadlibPort

/-! ## Count -/

/-- `CountInit`: the intermediate starts non-null at zero. -/
def countInit : BigIntVal := ⟨false, 0⟩

/-- `CountUpdate`: a non-null row adds one. -/
def countUpdate (input : IntVal) (val : BigIntVal) : BigIntVal :=
  if input.isNull then val else { val with val := val.val + 1 }

/-- `CountMerge`: adds the source's count to the destination's. -/
def countMerge (src dst : BigIntVal) : BigIntVal := { dst with val := dst.val + src.val }

/-- `CountFinalize`: the intermediate is the result. -/
def countFinalize (val : BigIntVal) : BigIntVal := val

/-- One group on a fresh state: `CountInit`, then `CountUpdate` over the rows in order. -/
def countGroup (xs : List IntVal) : BigIntVal :=
  xs.foldl (fun val input => countUpdate input val) countInit

/-- An execution of `Count`. -/
def countRun (t : MergeTree IntVal) : BigIntVal :=
  t.run countGroup fun dst src => countMerge src dst

/-- The number of non-null rows. -/
def nonNullCount (xs : List IntVal) : Nat := xs.countP fun x => !x.isNull

@[simp] theorem nonNullCount_append (xs ys : List IntVal) :
    nonNullCount (xs ++ ys) = nonNullCount xs + nonNullCount ys :=
  List.countP_append _ _ _

theorem nonNullCount_cons (x : IntVal) (xs : List IntVal) :
    nonNullCount (x :: xs) = nonNullCount [x] + nonNullCount xs :=
  nonNullCount_append [x] xs

/-- One `CountUpdate` adds the row's own non-null count to the word. -/
theorem countUpdate_ofNat (x : IntVal) (n : Nat) :
    countUpdate x ⟨false, BitVec.ofNat 64 n⟩ = ⟨false, BitVec.ofNat 64 (n + nonNullCount [x])⟩ := by
  cases hx : x.isNull
  · simp only [countUpdate, hx, nonNullCount, List.countP_singleton, Bool.not_false, if_true,
      ← BitVec.ofNat_add_ofNat]
    rfl
  · simp [countUpdate, hx, nonNullCount]

/-- The `Count` loop: from a count of `n`, the rows `xs` leave `n` plus their non-null
rows, reduced to the word. -/
theorem foldl_countUpdate (xs : List IntVal) (n : Nat) :
    xs.foldl (fun val input => countUpdate input val) ⟨false, BitVec.ofNat 64 n⟩ =
      ⟨false, BitVec.ofNat 64 (n + nonNullCount xs)⟩ := by
  induction xs generalizing n with
  | nil => rfl
  | cons x xs ih => rw [List.foldl_cons, countUpdate_ofNat, ih, nonNullCount_cons x xs, Nat.add_assoc]

theorem countGroup_eq (xs : List IntVal) :
    countGroup xs = ⟨false, BitVec.ofNat 64 (nonNullCount xs)⟩ := by
  simpa using foldl_countUpdate xs 0

/-- Every execution of `Count` holds the number of non-null rows, reduced to the word. -/
theorem countRun_eq (t : MergeTree IntVal) :
    countRun t = ⟨false, BitVec.ofNat 64 (nonNullCount t.rows)⟩ :=
  MergeTree.run_eq_of_hom (fun xs => (⟨false, BitVec.ofNat 64 (nonNullCount xs)⟩ : BigIntVal))
    countGroup_eq (fun xs ys => by simp [countMerge, BitVec.ofNat_add_ofNat]) t

/-- A count below `2^63` reads back as itself from the signed word. -/
theorem toInt_ofNat_of_lt {n : Nat} (h : n < 2 ^ 63) : (BitVec.ofNat 64 n).toInt = n := by
  rw [BitVec.toInt_eq_toNat_cond, BitVec.toNat_ofNat, Nat.mod_eq_of_lt (by omega), if_pos (by omega)]

/-- **`Count` is exact and split-independent.** For every execution whose rows are a
permutation of `xs` — any partition into groups, merged in any order and tree shape — with
fewer than `2^63` non-null rows, `CountFinalize` returns a non-null value equal to the
number of non-null rows of `xs`. -/
theorem countFinalize_countRun (t : MergeTree IntVal) (xs : List IntVal)
    (hperm : t.rows.Perm xs) (hbound : nonNullCount xs < 2 ^ 63) :
    (countFinalize (countRun t)).isNull = false ∧
      (countFinalize (countRun t)).val.toInt = nonNullCount xs := by
  have hcount : nonNullCount t.rows = nonNullCount xs := hperm.countP_eq _
  rw [countFinalize, countRun_eq, hcount]
  exact ⟨rfl, toInt_ofNat_of_lt hbound⟩

theorem countFinalize_countRun_two_groups :
    nonNullCount [⟨false, 7⟩, ⟨true, 0⟩, ⟨false, 1⟩] < 2 ^ 63 ∧
      (countFinalize (countRun (.merge (.group [⟨false, 7⟩]) (.group [⟨true, 0⟩, ⟨false, 1⟩])))).isNull
        = false ∧
      (countFinalize (countRun (.merge (.group [⟨false, 7⟩]) (.group [⟨true, 0⟩, ⟨false, 1⟩])))).val.toInt
        = nonNullCount [⟨false, 7⟩, ⟨true, 0⟩, ⟨false, 1⟩] :=
  ⟨by decide, countFinalize_countRun _ _ (List.Perm.refl _) (by decide)⟩

/-! ## Bits after Xor -/

/-- `XorInit`: the intermediate starts non-null at zero. -/
def xorInit : BigIntVal := ⟨false, 0⟩

/-- `XorUpdate`. The input is a `const double*`: `none` is `NULL`, and `some bits` points
to a double whose 64-bit pattern is `bits`, which `reinterpret_cast<const int64_t*>` reads
unchanged. The pattern is combined with `|=`. -/
def xorUpdate (input : Option (BitVec 64)) (val : BigIntVal) : BigIntVal :=
  match input with
  | none => val
  | some bits => { val with val := val.val ||| bits }

@[simp] theorem xorUpdate_none (val : BigIntVal) : xorUpdate none val = val := rfl

@[simp] theorem xorUpdate_some (bits : BitVec 64) (val : BigIntVal) :
    xorUpdate (some bits) val = { val with val := val.val ||| bits } :=
  rfl

/-- `XorMerge`: the source's word is combined into the destination's with `|=`. -/
def xorMerge (src dst : BigIntVal) : BigIntVal := { dst with val := dst.val ||| src.val }

/-- `XorFinalize`: the population count is commented out, so `set_bits` stays `0`. -/
def xorFinalize (_val : BigIntVal) : BigIntVal := ⟨false, 0⟩

/-- One group on a fresh state: `XorInit`, then `XorUpdate` over the rows in order. -/
def xorGroup (xs : List (Option (BitVec 64))) : BigIntVal :=
  xs.foldl (fun val input => xorUpdate input val) xorInit

/-- An execution of `Bits after Xor`, up to its intermediate. -/
def xorRun (t : MergeTree (Option (BitVec 64))) : BigIntVal :=
  t.run xorGroup fun dst src => xorMerge src dst

/-- The bitwise or of the non-null patterns. -/
def orAll (xs : List (Option (BitVec 64))) : BitVec 64 := (xs.filterMap id).foldr (· ||| ·) 0

/-- The bitwise xor of the non-null patterns: what the aggregate is documented to keep. -/
def xorAll (xs : List (Option (BitVec 64))) : BitVec 64 := (xs.filterMap id).foldr (· ^^^ ·) 0

@[simp] theorem orAll_nil : orAll [] = 0 := rfl

@[simp] theorem orAll_cons_none (xs : List (Option (BitVec 64))) : orAll (none :: xs) = orAll xs :=
  rfl

@[simp] theorem orAll_cons_some (b : BitVec 64) (xs : List (Option (BitVec 64))) :
    orAll (some b :: xs) = b ||| orAll xs :=
  rfl

theorem orAll_append (xs ys : List (Option (BitVec 64))) :
    orAll (xs ++ ys) = orAll xs ||| orAll ys := by
  induction xs with
  | nil => simp
  | cons x xs ih => cases x <;> simp [ih, BitVec.or_assoc]

/-- The `Xor` loop: from the word `acc`, the rows `xs` leave `acc ||| orAll xs`. -/
theorem foldl_xorUpdate (xs : List (Option (BitVec 64))) (acc : BitVec 64) :
    xs.foldl (fun val input => xorUpdate input val) ⟨false, acc⟩ = ⟨false, acc ||| orAll xs⟩ := by
  induction xs generalizing acc with
  | nil => simp
  | cons x xs ih => cases x <;> simp [ih, BitVec.or_assoc]

/-- Every execution of `Bits after Xor` holds the bitwise or of its non-null patterns. -/
theorem xorRun_eq_orAll_rows (t : MergeTree (Option (BitVec 64))) :
    xorRun t = ⟨false, orAll t.rows⟩ :=
  MergeTree.run_eq_of_hom (fun xs => (⟨false, orAll xs⟩ : BigIntVal))
    (fun xs => by simpa using foldl_xorUpdate xs 0)
    (fun xs ys => by simp [xorMerge, orAll_append]) t

/-- **`Bits after Xor` computes an or.** For every execution whose rows are a permutation
of `xs`, the intermediate that `XorInit`, `XorUpdate` and `XorMerge` build is the bitwise
or of the non-null patterns of `xs`. -/
theorem xorRun_eq_orAll (t : MergeTree (Option (BitVec 64))) (xs : List (Option (BitVec 64)))
    (hperm : t.rows.Perm xs) : xorRun t = ⟨false, orAll xs⟩ := by
  rw [xorRun_eq_orAll_rows, orAll, orAll, (List.Perm.filterMap id hperm).foldr_eq'
    (fun x _ y _ z => by rw [← BitVec.or_assoc, BitVec.or_comm y x, BitVec.or_assoc])]

theorem xorRun_eq_orAll_two_groups :
    (MergeTree.merge (.group [some 1#64]) (.group [none, some 2#64])).rows.Perm
        [some 1#64, none, some 2#64] ∧
      xorRun (.merge (.group [some 1#64]) (.group [none, some 2#64])) =
        ⟨false, orAll [some 1#64, none, some 2#64]⟩ :=
  ⟨List.Perm.refl _, xorRun_eq_orAll _ _ (List.Perm.refl _)⟩

/-- The double `1.0` read twice: the code keeps its pattern, while the xor of the two
patterns is zero. -/
theorem xorRun_repeated_input :
    (xorRun (.group [some 0x3FF0000000000000#64, some 0x3FF0000000000000#64])).val =
        0x3FF0000000000000#64 ∧
      xorAll [some 0x3FF0000000000000#64, some 0x3FF0000000000000#64] = 0#64 := by
  decide

end MadlibPort
