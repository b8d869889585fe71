import MadlibPort.Uda.MinState

/-!
# `Min` over a whole query

The harness runs an aggregate in groups. Each group starts with `MinInit` on a scratch
space and calls `MinUpdate` on its rows in order; the group states are then merged in some
order and tree shape (`MinSerialize` on the source, `MinMerge` into the destination), and
`MinFinalize` turns the last state into the result. `minQuery` runs such a plan, a
`MergeTree`, over the context heap of `Heap.lean`.

* `minQuery_eq`: every plan runs without an access outside a live block, and returns
  `minFinalizeStep (minRun t)`, what the steps of `MinSpec.lean` compute.
* `minQuery_group`: one pass returns the least non-null row that follows the leading empty
  strings, or null when there is none.
* `minQuery_of_not_mem`: when no non-null row is the empty string, every plan returns the
  least non-null row, whatever the grouping and merge order.
* `minQuery_loses_empty`, `minQuery_split_skips_empty`: with an empty string neither holds.
  A state that has seen only `""` keeps `value == NULL`, the sentinel for "no string yet",
  so `MinFinalize` returns null and `MinMerge` skips it.
-/

namespace MadlibPort

/-- A group: `MinInit` on the scratch space, then `MinUpdate` over the rows in order. -/
def minGroup (scratch : MinState) (xs : List StringVal) (h : Heap) : Option (MinState × Heap) :=
  xs.foldlM (fun acc x => minUpdate x acc.1 acc.2) (minInit scratch, h)

/-- A plan over the context heap: the left subtree, then the right one, then the right's
serialized state merged into the left's. -/
def minTree (scratch : MinState) (t : MergeTree StringVal) : Heap → Option (MinState × Heap) :=
  t.run (minGroup scratch) fun left right h => do
    let (dst, h) ← left h
    let (src, h) ← right h
    minMerge (minSerialize src) dst h

/-- A query: the plan from an empty context, then `MinFinalize`. -/
def minQuery (scratch : MinState) (t : MergeTree StringVal) : Option StringVal := do
  let (s, h) ← minTree scratch t Heap.empty
  let (r, _) ← minFinalize s h
  pure r

/-- What `MIN` is for, over a list of strings: the least one in the byte order, null when
there is none. -/
def leastOf (l : List (List UInt8)) : StringVal := minFinalizeStep ((l.map key).minimum)

variable {scratch : MinState} {h₀ h h' : Heap} {s s' : MinState} {c : WithTop (List ℕ)}

@[simp] theorem minTree_group (xs : List StringVal) :
    minTree scratch (.group xs) = minGroup scratch xs := rfl

@[simp] theorem minTree_merge (l r : MergeTree StringVal) (h : Heap) :
    minTree scratch (.merge l r) h = (do
      let (dst, h) ← minTree scratch l h
      let (src, h) ← minTree scratch r h
      minMerge (minSerialize src) dst h) := rfl

theorem leastOf_nil : leastOf [] = StringVal.null := rfl

/-- A non-empty list has a least string, which `leastOf` returns. -/
theorem leastOf_spec {l : List (List UInt8)} (hl : l ≠ []) :
    ∃ m ∈ l, leastOf l = StringVal.ofBytes m ∧ ∀ y ∈ l, key m ≤ key y := by
  cases hm : (l.map key).minimum with
  | top => exact absurd (List.map_eq_nil_iff.mp (List.minimum_eq_top.mp hm)) hl
  | coe k =>
    obtain ⟨hk, hle⟩ := List.minimum_eq_coe_iff.mp hm
    obtain ⟨m, hm', rfl⟩ := List.mem_map.mp hk
    exact ⟨m, hm', by rw [leastOf, hm, minFinalizeStep_coe],
      fun y hy => hle _ (List.mem_map_of_mem _ hy)⟩

/-! ## Ownership of the intermediate

A group or a subtree run from `h₀` leaves a state whose buffer it allocated itself, and
keeps every block of `h₀`: so the state of the left subtree survives the run of the right
one. -/

/-- `s` is a valid state in `h` whose buffer was not live in `h₀`, and `h` keeps every block
of `h₀`. -/
structure Owns (h₀ h : Heap) (s : MinState) : Prop where
  valid : s.Valid h
  fresh : s.value = 0 ∨ h₀.block? s.value = none
  ext : h₀.Extends h

theorem Owns.init (scratch : MinState) (h : Heap) : Owns h h (minInit scratch) :=
  ⟨(minInit_valid scratch h).1, .inl rfl, Heap.Extends.refl h⟩

/-- An operation on an owned state leaves an owned state. -/
theorem Owns.post (ho : Owns h₀ h s) (hp : MinState.Post h s h' s' c) : Owns h₀ h' s' where
  valid := hp.valid
  fresh := by
    rcases hp.fresh with he | hn
    · rw [he]; exact ho.fresh
    · exact .inr (ho.ext.block?_eq_none hn)
  ext := ho.ext.keeps hp.keeps ho.fresh

/-- What runs after a state was built keeps it, and the string it holds. -/
theorem Owns.extend (ho : Owns h₀ h s) (he : h.Extends h') :
    Owns h₀ h' s ∧ s.current h' = s.current h := by
  obtain ⟨hv, hc⟩ := ho.valid.keep (he.toKeeps 0) (ne_or_eq _ _)
  exact ⟨⟨hv, ho.fresh, ho.ext.trans he⟩, hc⟩

/-! ## Groups and plans -/

theorem foldlM_minUpdate (xs : List StringVal) (ho : Owns h₀ h s) :
    ∃ s' h', xs.foldlM (fun acc x => minUpdate x acc.1 acc.2) (s, h) = some (s', h') ∧
      Owns h₀ h' s' ∧ s'.current h' = xs.foldl minStep (s.current h) := by
  induction xs generalizing h s with
  | nil => exact ⟨s, h, rfl, ho, rfl⟩
  | cons x xs ih =>
    obtain ⟨s₁, h₁, hu, hp⟩ := minUpdate_spec ho.valid x
    obtain ⟨s', h', hf, ho', hc⟩ := ih (ho.post hp)
    exact ⟨s', h', by simp [hu, hf], ho', by rw [hc, hp.current]; rfl⟩

/-- **A group refines one pass of `minStep`.** -/
theorem minGroup_spec (scratch : MinState) (xs : List StringVal) (h : Heap) :
    ∃ s h', minGroup scratch xs h = some (s, h') ∧ Owns h h' s ∧
      s.current h' = xs.foldl minStep ⊤ := by
  have := foldlM_minUpdate xs (Owns.init scratch h)
  rwa [(minInit_valid scratch h).2] at this

/-- **A plan refines `minRun`.** Every plan runs from any heap, and leaves an owned state
holding what `minRun` computes. -/
theorem minTree_spec (scratch : MinState) (t : MergeTree StringVal) (h : Heap) :
    ∃ s h', minTree scratch t h = some (s, h') ∧ Owns h h' s ∧ s.current h' = minRun t := by
  induction t generalizing h with
  | group xs => exact minGroup_spec scratch xs h
  | merge l r ihl ihr =>
    obtain ⟨dst, h₁, hl, hod, hcd⟩ := ihl h
    obtain ⟨src, h₂, hr, hos, hcs⟩ := ihr h₁
    obtain ⟨hod₂, hcd₂⟩ := hod.extend hos.ext
    obtain ⟨s', h₃, hm, hp⟩ := minMerge_spec hos.valid hod₂.valid
    refine ⟨s', h₃, by simp [hl, hr, minSerialize, hm], hod₂.post hp, ?_⟩
    rw [hp.current, hcd₂, hcd, hcs]; rfl

/-! ## Queries -/

/-- **A query computes `minRun`.** Every plan, from an empty context, runs without an
access outside a live block and returns `minFinalizeStep (minRun t)`. -/
theorem minQuery_eq (scratch : MinState) (t : MergeTree StringVal) :
    minQuery scratch t = some (minFinalizeStep (minRun t)) := by
  obtain ⟨s, h, ht, ho, hc⟩ := minTree_spec scratch t Heap.empty
  obtain ⟨h', hf⟩ := minFinalize_spec ho.valid
  simp [minQuery, ht, hf, hc]

/-- **One pass of `Min`.** `MinInit`, `MinUpdate` over the rows, then `MinFinalize`, returns
the least non-null row that follows the leading empty strings, or null when there is none. -/
theorem minQuery_group (scratch : MinState) (xs : List StringVal) :
    minQuery scratch (.group xs) = some (leastOf ((nonNulls xs).dropWhile List.isEmpty)) := by
  rw [minQuery_eq, leastOf, ← foldl_minStep_top]; rfl

/-- A first row `""` is lost: the pass returns null although a row is non-null, and after
`""` then `"B"` it returns `"B"`, not the least row `""`. -/
theorem minQuery_loses_empty :
    minQuery ⟨0, 0, 0⟩ (.group [StringVal.ofBytes []]) = some StringVal.null ∧
      minQuery ⟨0, 0, 0⟩ (.group [StringVal.ofBytes [], StringVal.ofBytes [66]]) =
        some (StringVal.ofBytes [66]) := ⟨rfl, rfl⟩

/-- **`Min` without empty strings is split-independent.** When no non-null row is the empty
string, every plan over a partition of the rows returns the least non-null row, or null. -/
theorem minQuery_of_not_mem (scratch : MinState) (t : MergeTree StringVal) (xs : List StringVal)
    (hperm : t.rows.Perm xs) (hne : [] ∉ nonNulls xs) :
    minQuery scratch t = some (leastOf (nonNulls xs)) := by
  have hne' : [] ∉ nonNulls t.rows := fun hm => hne ((List.Perm.filterMap _ hperm).subset hm)
  rw [minQuery_eq, minRun_eq_minSpec t hne', minSpec_perm hperm]; rfl

theorem minQuery_of_not_mem_two_groups :
    [] ∉ nonNulls [StringVal.ofBytes [66], StringVal.null, StringVal.ofBytes [65]] ∧
      minQuery ⟨0, 0, 0⟩ (.merge (.group [StringVal.ofBytes [66]])
          (.group [StringVal.null, StringVal.ofBytes [65]])) =
        some (leastOf (nonNulls [StringVal.ofBytes [66], StringVal.null, StringVal.ofBytes [65]])) :=
  ⟨by decide, minQuery_of_not_mem _ _ _ (List.Perm.refl _) (by decide)⟩

/-- With an empty string the split matters: `["B"]` merged with `[""]` returns `"B"`, since
the group of `""` ends holding no string and `MinMerge` skips it, while one pass over
`["B", ""]` returns `""`. -/
theorem minQuery_split_skips_empty :
    minQuery ⟨0, 0, 0⟩ (.merge (.group [StringVal.ofBytes [66]]) (.group [StringVal.ofBytes []])) =
        some (StringVal.ofBytes [66]) ∧
      minQuery ⟨0, 0, 0⟩ (.group [StringVal.ofBytes [66], StringVal.ofBytes []]) =
        some (StringVal.ofBytes []) := ⟨rfl, rfl⟩

end MadlibPort
