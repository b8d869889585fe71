import MadlibPort.Uda.Heap

/-!
# What `Min` over strings computes

`MIN(string)` is meant to return the least non-null row in the byte order of `memcmp`, and
`NULL` when every row is null: that is `minSpec`, over the `key` of each string. This
module also states, over `key`, the step each entry point of the code takes, and what the
steps add up to; `MinState.lean` proves that the heap-level code takes exactly these steps.

* `minStep` (`MinUpdate`) is `min`, except in one case: a non-null empty string reaching a
  state that holds no string is lost. `MinState::Set` then copies zero bytes without
  allocating, so `value` stays `NULL`, the sentinel for "no string yet".
* `minMergeStep` (`MinMerge`) skips a source that holds no string and otherwise updates the
  destination with the source's string, with the same exception.
* `foldl_minStep_top`: one pass computes the minimum of the non-null rows after the leading
  empty strings are dropped.
* `minRun_eq_minSpec`: when no non-null row is empty, every execution computes `minSpec`,
  whatever the grouping and merge order.
-/

namespace MadlibPort

/-- The bytes of the non-null rows, in order. -/
def nonNulls (xs : List StringVal) : List (List UInt8) :=
  xs.filterMap fun x => if x.isNull then none else some x.bytes

/-- What `MIN` over strings is for: the least non-null row in the byte order, `⊤` (a null
result) when there is none. -/
def minSpec (xs : List StringVal) : WithTop (List ℕ) := ((nonNulls xs).map key).minimum

/-- `MinUpdate`, over `key`. -/
def minStep (cur : WithTop (List ℕ)) (input : StringVal) : WithTop (List ℕ) :=
  if input.isNull ∨ (cur = ⊤ ∧ input.bytes = []) then cur else min cur (key input.bytes)

/-- `MinMerge`, over `key`: a source holding no string changes nothing; otherwise the
source's string updates the destination. -/
def minMergeStep (dst src : WithTop (List ℕ)) : WithTop (List ℕ) :=
  if src = ⊤ ∨ (dst = ⊤ ∧ src = ↑([] : List ℕ)) then dst else min dst src

/-- The bytes a `key` comes from. -/
def unkey (k : List ℕ) : List UInt8 := k.map UInt8.ofNat

/-- `MinFinalize`, over `key`: null when the state holds no string, else a copy of it. -/
def minFinalizeStep : WithTop (List ℕ) → StringVal
  | none => StringVal.null
  | some k => StringVal.ofBytes (unkey k)

/-- An execution of `Min`, over `key`. -/
def minRun (t : MergeTree StringVal) : WithTop (List ℕ) :=
  t.run (fun xs => xs.foldl minStep ⊤) minMergeStep

theorem UInt8.ofNat_toNat (x : UInt8) : UInt8.ofNat x.toNat = x :=
  UInt8.eq_of_val_eq (Fin.ext (Nat.mod_eq_of_lt x.val.isLt))

@[simp] theorem unkey_key (b : List UInt8) : unkey (key b) = b := by
  simp [unkey, key, Function.comp_def, UInt8.ofNat_toNat]

@[simp] theorem minFinalizeStep_top : minFinalizeStep ⊤ = StringVal.null := rfl

@[simp] theorem minFinalizeStep_coe (b : List UInt8) :
    minFinalizeStep ↑(key b) = StringVal.ofBytes b := by
  simp [minFinalizeStep, ← WithTop.some_eq_coe]

@[simp] theorem minMergeStep_top (dst : WithTop (List ℕ)) : minMergeStep dst ⊤ = dst := by
  simp [minMergeStep]

/-- Merging a source that holds `m` is updating with `m`. -/
theorem minMergeStep_coe (dst : WithTop (List ℕ)) (m : List UInt8) :
    minMergeStep dst ↑(key m) = minStep dst (StringVal.ofBytes m) := by
  simp [minMergeStep, minStep]

/-! ## The minimum of the rows -/

@[simp] theorem nonNulls_nil : nonNulls [] = [] := rfl

theorem nonNulls_cons (x : StringVal) (xs : List StringVal) :
    nonNulls (x :: xs) = if x.isNull then nonNulls xs else x.bytes :: nonNulls xs := by
  cases hx : x.isNull <;> simp [nonNulls, hx]

@[simp] theorem nonNulls_append (xs ys : List StringVal) :
    nonNulls (xs ++ ys) = nonNulls xs ++ nonNulls ys :=
  List.filterMap_append _ _ _

theorem minimum_append (l₁ l₂ : List (List ℕ)) :
    (l₁ ++ l₂).minimum = min l₁.minimum l₂.minimum := by
  induction l₁ with
  | nil => simp
  | cons a l ih => rw [List.cons_append, List.minimum_cons, List.minimum_cons, ih, min_assoc]

theorem minSpec_append (xs ys : List StringVal) :
    minSpec (xs ++ ys) = min (minSpec xs) (minSpec ys) := by
  simp [minSpec, minimum_append]

theorem minSpec_cons (x : StringVal) (xs : List StringVal) :
    minSpec (x :: xs) = if x.isNull then minSpec xs else min ↑(key x.bytes) (minSpec xs) := by
  rw [minSpec, nonNulls_cons]
  split <;> simp [minSpec, List.minimum_cons]

/-- The minimum depends only on which strings occur. -/
theorem minimum_eq_of_perm {l₁ l₂ : List (List ℕ)} (hp : l₁.Perm l₂) : l₁.minimum = l₂.minimum := by
  cases h : l₁.minimum with
  | top =>
    rw [List.minimum_eq_top] at h
    subst h
    rw [← hp.nil_eq, List.minimum_nil]
  | coe m =>
    rw [List.minimum_eq_coe_iff] at h
    exact (List.minimum_eq_coe_iff.mpr ⟨hp.mem_iff.mp h.1, fun a ha => h.2 a (hp.mem_iff.mpr ha)⟩).symm

theorem minSpec_perm {xs ys : List StringVal} (hp : xs.Perm ys) : minSpec xs = minSpec ys :=
  minimum_eq_of_perm ((List.Perm.filterMap _ hp).map key)

/-- Without empty rows the minimum is not the empty string. -/
theorem minSpec_ne_nil {xs : List StringVal} (hne : [] ∉ nonNulls xs) :
    minSpec xs ≠ ↑([] : List ℕ) := by
  intro h
  obtain ⟨y, hy, hky⟩ := List.mem_map.mp (List.minimum_eq_coe_iff.mp h).1
  exact hne (key_eq_nil.mp hky ▸ hy)

/-! ## One pass -/

/-- Once a state holds a string, `MinUpdate` is exactly `min`. -/
theorem minStep_of_ne_top {cur : WithTop (List ℕ)} (hc : cur ≠ ⊤) (x : StringVal) :
    minStep cur x = if x.isNull then cur else min cur ↑(key x.bytes) := by
  simp [minStep, hc]

/-- From a state that holds a string, a pass takes the minimum with every non-null row. -/
theorem foldl_minStep_of_ne_top (xs : List StringVal) {cur : WithTop (List ℕ)} (hc : cur ≠ ⊤) :
    xs.foldl minStep cur = min cur (minSpec xs) := by
  induction xs generalizing cur with
  | nil => simp [minSpec]
  | cons x xs ih =>
    have hc' : minStep cur x ≠ ⊤ := by
      rw [minStep_of_ne_top hc]; split
      · exact hc
      · simp [hc]
    rw [List.foldl_cons, ih hc', minStep_of_ne_top hc, minSpec_cons]
    split <;> simp [min_assoc]

/-- **One pass of `Min`.** From a fresh state, `MinUpdate` over `xs` holds the minimum of
the non-null rows that follow the leading empty ones: an empty string is lost while no
non-empty string has been seen. -/
theorem foldl_minStep_top (xs : List StringVal) :
    xs.foldl minStep ⊤ = (((nonNulls xs).dropWhile List.isEmpty).map key).minimum := by
  induction xs with
  | nil => rfl
  | cons x xs ih =>
    rw [List.foldl_cons, nonNulls_cons]
    by_cases hx : x.isNull
    · simpa [minStep, hx] using ih
    by_cases he : x.bytes = []
    · simpa [minStep, hx, he] using ih
    have hne : ¬x.bytes.isEmpty = true := by simpa [List.isEmpty_iff] using he
    rw [if_neg hx, List.dropWhile_cons_of_neg hne, List.map_cons, List.minimum_cons,
      foldl_minStep_of_ne_top xs (by simp [minStep, hx, he]), minSpec]
    simp [minStep, hx, he]

/-! ## Executions without empty strings -/

theorem foldl_minStep_top_of_not_mem {xs : List StringVal} (hne : [] ∉ nonNulls xs) :
    xs.foldl minStep ⊤ = minSpec xs := by
  rw [foldl_minStep_top, minSpec]
  cases h : nonNulls xs with
  | nil => rfl
  | cons y ys =>
    have hy : ¬y.isEmpty = true := by
      rw [List.isEmpty_iff]; rintro rfl; exact hne (h ▸ List.mem_cons_self _ _)
    rw [List.dropWhile_cons_of_neg hy]

/-- **`Min` without empty strings is split-independent.** When no non-null row is the empty
string, every execution computes the least non-null row. -/
theorem minRun_eq_minSpec (t : MergeTree StringVal) (hne : [] ∉ nonNulls t.rows) :
    minRun t = minSpec t.rows := by
  induction t with
  | group xs => exact foldl_minStep_top_of_not_mem hne
  | merge l r ihl ihr =>
    simp only [MergeTree.rows_merge, nonNulls_append, List.mem_append, not_or] at hne
    have hr : minSpec r.rows ≠ ↑([] : List ℕ) := minSpec_ne_nil hne.2
    have hl : minRun l = minSpec l.rows := ihl hne.1
    change minMergeStep (minRun l) (minRun r) = _
    rw [hl, ihr hne.2, MergeTree.rows_merge, minSpec_append, minMergeStep]
    split
    · rename_i h
      rcases h with h | ⟨-, h⟩
      · rw [h, min_top_right]
      · exact absurd h hr
    · rfl

end MadlibPort
