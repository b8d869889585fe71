import MadlibPort.Uda.MinContext
import MadlibPort.Uda.MinQuery

/-!
# The abstract `Min` machine and what every interleaving computes

`MinContext.lean` proves that no sequence of harness calls breaks the buffer invariant.
This module says what the states hold across every such sequence. The abstract machine
keeps, for each state, only the string it holds, and moves by the steps of `MinSpec.lean`
(`minStep` for `MinUpdate`, `minMergeStep` for `MinMerge`), with no heap and no buffers.

* `Config.abs_step`, `Config.abs_run`: from a valid configuration, one call of the
  heap-level machine is one step of the abstract machine, seen through `Config.abs`, the
  strings the states hold. No call on one state changes the string of another, although
  all of them share one context.
* `run_abs`: every run from an empty context computes what the abstract run computes, and
  is undefined exactly when the abstract run is, when a call names a missing state (a
  zero-byte copy to `NULL` counting as defined, the convention of `Heap.memcpy`).
* `run_current_le`: along every run, no state's string grows in `memcmp` order, and a
  state that holds a string keeps holding one.
* `routes`: the rows that have reached each state, through updates and merges.
  `absRun_routes`: when no row is a non-null empty string, the abstract machine keeps in
  each state the least non-null row that reached it.
* `run_finalize_least`: the two together. After any interleaving of calls, `MinFinalize`
  of any state returns the least non-null row routed to it.
-/

namespace MadlibPort

/-- One call of the abstract machine, over the strings the states hold; `none` when the
call names a missing state. -/
def absStep (cs : List (WithTop (List ℕ))) : Action → Option (List (WithTop (List ℕ)))
  | .init _ => some (cs ++ [⊤])
  | .update i input => do
    let c ← cs[i]?
    pure (cs.set i (minStep c input))
  | .merge src dst => do
    let s ← cs[src]?
    let d ← cs[dst]?
    pure (cs.set dst (minMergeStep d s))

/-- A sequence of calls of the abstract machine. -/
def absRun (cs : List (WithTop (List ℕ))) : List Action → Option (List (WithTop (List ℕ)))
  | [] => some cs
  | a :: as => (absStep cs a).bind fun cs' => absRun cs' as

namespace Config

/-- The strings the states of a configuration hold. -/
def abs (c : Config) : List (WithTop (List ℕ)) := c.states.map (MinState.current c.heap)

variable {c : Config}

/-- Replacing the state at `i` by one holding `cur` replaces only the `i`-th string. -/
theorem Valid.abs_set (hc : c.Valid) {i : ℕ} {s s' : MinState} {h' : Heap}
    {cur : WithTop (List ℕ)} (hs : c.states[i]? = some s) (hp : MinState.Post c.heap s h' s' cur) :
    (Config.mk (c.states.set i s') h').abs = c.abs.set i cur := by
  have hi : i < c.states.length := (List.getElem?_eq_some_iff.mp hs).1
  apply List.ext_getElem?
  intro j
  simp only [abs, List.getElem?_map, List.getElem?_set, List.length_map]
  by_cases hij : i = j
  · subst hij; simp [hi, hp.current]
  · rw [if_neg hij, if_neg hij]
    cases ht : c.states[j]? with
    | none => rfl
    | some t => simp [(hc.keep_other hs hp.keeps (Ne.symm hij) ht).2]

theorem abs_getElem? (c : Config) (i : ℕ) :
    c.abs[i]? = (c.states[i]?).map (MinState.current c.heap) := List.getElem?_map _ _ _

/-- **One call refines one abstract step.** From a valid configuration, a call is defined
exactly when the abstract step is, and leaves the states holding what the abstract step
computes. -/
theorem abs_step (hc : c.Valid) (a : Action) : (c.step a).map abs = absStep c.abs a := by
  cases a with
  | init scratch =>
    simp [step, absStep, abs, (minInit_valid scratch c.heap).2]
  | update i input =>
    cases hs : c.states[i]? with
    | none => simp [step, absStep, abs_getElem?, hs]
    | some s =>
      obtain ⟨s', h', hu, hp⟩ := minUpdate_spec (hc.valid i s hs) input
      simp [step, absStep, abs_getElem?, hs, hu, hc.abs_set hs hp]
  | merge src dst =>
    cases hs : c.states[src]? with
    | none => simp [step, absStep, abs_getElem?, hs]
    | some s =>
      cases hd : c.states[dst]? with
      | none => simp [step, absStep, abs_getElem?, hs, hd]
      | some d =>
        obtain ⟨d', h', hm, hp⟩ := minMerge_spec (hc.valid src s hs) (hc.valid dst d hd)
        simp [step, absStep, abs_getElem?, hs, hd, minSerialize, hm, hc.abs_set hd hp]

/-- **Runs refine abstract runs.** -/
theorem abs_run (hc : c.Valid) (acts : List Action) : (c.run acts).map abs = absRun c.abs acts := by
  induction acts generalizing c with
  | nil => rfl
  | cons a as ih =>
    have hs := abs_step hc a
    cases h : c.step a with
    | none =>
      rw [h] at hs
      simp [run, absRun, h, ← hs]
    | some c' =>
      rw [h] at hs
      simp only [run, absRun, h, Option.some_bind, ← hs, Option.map_some']
      exact ih (hc.step h).1

end Config

/-- **The heap-level `Min` machine computes the abstract one.** For every sequence of
`MinInit`, `MinUpdate` and `MinMerge` calls from an empty context, the strings the states
hold are those the abstract machine computes, whatever the interleaving: no call on one
state changes the string of another, although all of them share one context. The run is
undefined exactly when the abstract run is, when a call names a missing state; the
zero-byte `memcpy(NULL, ptr, 0)` that `Set` makes for an empty string, undefined in ISO C,
counts as copying nothing (the convention of `Heap.memcpy`). -/
theorem run_abs (acts : List Action) :
    (Config.empty.run acts).map Config.abs = absRun [] acts :=
  Config.abs_run Config.empty_valid acts

/-! ## No state's string ever grows -/

theorem minStep_le (cur : WithTop (List ℕ)) (input : StringVal) : minStep cur input ≤ cur := by
  unfold minStep
  split_ifs
  · exact le_rfl
  · exact min_le_left _ _

theorem minMergeStep_le (dst src : WithTop (List ℕ)) : minMergeStep dst src ≤ dst := by
  unfold minMergeStep
  split_ifs
  · exact le_rfl
  · exact min_le_left _ _

/-- Every string of `cs` is still there in `cs'`, at the same index, and no larger. -/
def Decreases (cs cs' : List (WithTop (List ℕ))) : Prop :=
  ∀ (i : ℕ) (x : WithTop (List ℕ)), cs[i]? = some x → ∃ y, cs'[i]? = some y ∧ y ≤ x

theorem Decreases.refl (cs : List (WithTop (List ℕ))) : Decreases cs cs :=
  fun _ x hx => ⟨x, hx, le_rfl⟩

theorem Decreases.trans {cs₁ cs₂ cs₃ : List (WithTop (List ℕ))} (h₁ : Decreases cs₁ cs₂)
    (h₂ : Decreases cs₂ cs₃) : Decreases cs₁ cs₃ := by
  intro i x hx
  obtain ⟨y, hy, hyx⟩ := h₁ i x hx
  obtain ⟨z, hz, hzy⟩ := h₂ i y hy
  exact ⟨z, hz, hzy.trans hyx⟩

/-- Lowering one string. -/
theorem Decreases.set {cs : List (WithTop (List ℕ))} {i : ℕ} {x y : WithTop (List ℕ)}
    (hx : cs[i]? = some x) (hy : y ≤ x) : Decreases cs (cs.set i y) := by
  intro j z hz
  by_cases hij : i = j
  · subst hij
    rw [hx, Option.some.injEq] at hz
    subst hz
    exact ⟨y, List.getElem?_set_self (List.getElem?_eq_some_iff.mp hx).1, hy⟩
  · exact ⟨z, by rw [List.getElem?_set_ne hij]; exact hz, le_rfl⟩

/-- One abstract call lowers the string of the state it acts on, and keeps the others. -/
theorem absStep_decreases {cs cs' : List (WithTop (List ℕ))} {a : Action}
    (h : absStep cs a = some cs') : Decreases cs cs' := by
  cases a with
  | init scratch =>
    cases h
    exact fun i x hx => ⟨x, by rw [List.getElem?_append_left (List.getElem?_eq_some_iff.mp hx).1]; exact hx,
      le_rfl⟩
  | update i input =>
    obtain ⟨c, hc, h⟩ := Option.bind_eq_some.mp h
    cases h
    exact Decreases.set hc (minStep_le c input)
  | merge src dst =>
    obtain ⟨s, -, h⟩ := Option.bind_eq_some.mp h
    obtain ⟨d, hd, h⟩ := Option.bind_eq_some.mp h
    cases h
    exact Decreases.set hd (minMergeStep_le d s)

theorem absRun_decreases (acts : List Action) {cs cs' : List (WithTop (List ℕ))}
    (h : absRun cs acts = some cs') : Decreases cs cs' := by
  induction acts generalizing cs with
  | nil => cases h; exact Decreases.refl _
  | cons a as ih =>
    obtain ⟨cs₁, h₁, h⟩ := Option.bind_eq_some.mp h
    exact (absStep_decreases h₁).trans (ih h)

/-- **No state's string ever grows.** Take any configuration reached from an empty context
and any run from it. Every state is still there at its end, holding a string no larger in
`memcmp` order than before; `NULL` being the largest, a state that holds a string keeps
holding one. -/
theorem run_current_le (acts acts' : List Action) (c c' : Config)
    (h : Config.empty.run acts = some c) (h' : c.run acts' = some c') (i : ℕ) (s : MinState)
    (hs : c.states[i]? = some s) :
    ∃ s', c'.states[i]? = some s' ∧ s'.current c'.heap ≤ s.current c.heap := by
  have habs := Config.abs_run (Config.empty_valid.run acts h).1 acts'
  rw [h', Option.map_some'] at habs
  obtain ⟨y, hy, hle⟩ := absRun_decreases acts' habs.symm i _
    (by rw [Config.abs_getElem?, hs]; rfl)
  rw [Config.abs_getElem?] at hy
  obtain ⟨s', hs', rfl⟩ := Option.map_eq_some'.mp hy
  exact ⟨s', hs', hle⟩

/-- "BB" in state 0, then "A" merged into it from a new state: state 0 goes from "BB" down
to "A". -/
theorem run_current_le_two_states :
    Config.empty.run [.init ⟨0, 0, 0⟩, .update 0 (StringVal.ofBytes [66, 66])] =
        some ⟨[⟨1, 2, 2⟩], ⟨[some [66, 66]]⟩⟩ ∧
      Config.run ⟨[⟨1, 2, 2⟩], ⟨[some [66, 66]]⟩⟩
          [.init ⟨0, 7, 0⟩, .update 1 (StringVal.ofBytes [65]), .merge 1 0] =
        some ⟨[⟨1, 1, 2⟩, ⟨2, 1, 1⟩], ⟨[some [65, 66], some [65]]⟩⟩ ∧
      [⟨1, 2, 2⟩][0]? = some (⟨1, 2, 2⟩ : MinState) ∧
      ∃ s' : MinState, [⟨1, 1, 2⟩, ⟨2, 1, 1⟩][0]? = some s' ∧
        s'.current ⟨[some [65, 66], some [65]]⟩ ≤ (⟨1, 2, 2⟩ : MinState).current ⟨[some [66, 66]]⟩ := by
  refine ⟨?h, ?h', rfl, run_current_le _ _ _ _ ?h ?h' 0 _ rfl⟩ <;> rfl

/-! ## The rows that reach each state -/

/-- The rows that have reached each state: `MinInit` starts a state with none, `MinUpdate`
adds its row, and `MinMerge` adds the source's rows to the destination's. -/
def routeStep (rs : List (List StringVal)) : Action → List (List StringVal)
  | .init _ => rs ++ [[]]
  | .update i input => rs.set i (rs.getD i [] ++ [input])
  | .merge src dst => rs.set dst (rs.getD dst [] ++ rs.getD src [])

/-- The rows that have reached each state after a sequence of calls. -/
def routes (acts : List Action) : List (List StringVal) := acts.foldl routeStep []

/-- The row a call passes to `MinUpdate`, if any. -/
def Action.input? : Action → Option StringVal
  | .update _ input => some input
  | _ => none

/-- The rows a sequence of calls passes to `MinUpdate`. -/
def inputs (acts : List Action) : List StringVal := acts.filterMap Action.input?

@[simp] theorem minSpec_nil : minSpec [] = ⊤ := rfl

/-- Without an empty row, `MinUpdate` adds its row to the minimum. -/
theorem minStep_minSpec (xs : List StringVal) {x : StringVal} (hx : x.isNull ∨ x.bytes ≠ []) :
    minStep (minSpec xs) x = minSpec (xs ++ [x]) := by
  rw [minSpec_append, minSpec_cons]
  by_cases hn : x.isNull
  · simp [minStep, hn]
  · simp [minStep, hn, hx.resolve_left hn]

/-- Merging a source that holds no empty string is `min`. -/
theorem minMergeStep_of_ne_nil (d : WithTop (List ℕ)) {s : WithTop (List ℕ)}
    (hs : s ≠ ↑([] : List ℕ)) : minMergeStep d s = min d s := by
  unfold minMergeStep
  split
  · rename_i h
    rcases h with h | ⟨-, h⟩
    · rw [h, min_top_right]
    · exact absurd h hs
  · rfl

/-- No state has been reached by an empty row. -/
def NoEmpty (rs : List (List StringVal)) : Prop := ∀ r ∈ rs, [] ∉ nonNulls r

theorem NoEmpty.getD {rs : List (List StringVal)} (hr : NoEmpty rs) (i : ℕ) :
    [] ∉ nonNulls (rs.getD i []) := by
  rw [List.getD_eq_getElem?_getD]
  cases h : rs[i]? with
  | none => simp
  | some r => exact hr r (List.getElem?_mem h)

theorem NoEmpty.set {rs : List (List StringVal)} (hr : NoEmpty rs) {i : ℕ} {r : List StringVal}
    (h : [] ∉ nonNulls r) : NoEmpty (rs.set i r) := by
  intro r' hr'
  rcases List.mem_or_eq_of_mem_set hr' with hm | rfl
  · exact hr r' hm
  · exact h

theorem eq_minSpec_of_getElem? {rs : List (List StringVal)} {i : ℕ} {c : WithTop (List ℕ)}
    (h : (rs.map minSpec)[i]? = some c) : c = minSpec (rs.getD i []) := by
  rw [List.getElem?_map] at h
  obtain ⟨r, hr, rfl⟩ := Option.map_eq_some'.mp h
  rw [List.getD_eq_getElem?_getD, hr]; rfl

/-- **One abstract step keeps the routed minimum.** -/
theorem absStep_routeStep {rs : List (List StringVal)} (hr : NoEmpty rs) {a : Action}
    (ha : [] ∉ nonNulls a.input?.toList) {cs' : List (WithTop (List ℕ))}
    (h : absStep (rs.map minSpec) a = some cs') :
    cs' = (routeStep rs a).map minSpec ∧ NoEmpty (routeStep rs a) := by
  cases a with
  | init scratch =>
    cases h
    refine ⟨by simp [routeStep], fun r hm => ?_⟩
    rcases List.mem_append.mp hm with hm | hm
    · exact hr r hm
    · rw [List.mem_singleton.mp hm]; simp
  | update i input =>
    obtain ⟨c, hc, h⟩ := Option.bind_eq_some.mp h
    cases h
    have hx : input.isNull ∨ input.bytes ≠ [] := by
      by_cases hn : input.isNull
      · exact .inl hn
      · exact .inr fun he => ha (by simp [Action.input?, nonNulls, hn, he])
    refine ⟨by rw [routeStep, List.map_set, eq_minSpec_of_getElem? hc, minStep_minSpec _ hx],
      hr.set ?_⟩
    rw [nonNulls_append]
    simpa [List.mem_append, Action.input?] using And.intro (hr.getD i) ha
  | merge src dst =>
    obtain ⟨s, hs, h⟩ := Option.bind_eq_some.mp h
    obtain ⟨d, hd, h⟩ := Option.bind_eq_some.mp h
    cases h
    refine ⟨?_, hr.set ?_⟩
    · rw [routeStep, List.map_set, eq_minSpec_of_getElem? hs, eq_minSpec_of_getElem? hd,
        minMergeStep_of_ne_nil _ (minSpec_ne_nil (hr.getD src)),
        minSpec_append]
    · rw [nonNulls_append, List.mem_append, not_or]
      exact ⟨hr.getD dst, hr.getD src⟩

/-- **Abstract runs keep the routed minimum.** When no row is a non-null empty string,
the abstract machine keeps in each state the least non-null row that has reached it. -/
theorem absRun_routes (acts : List Action) {rs : List (List StringVal)} (hr : NoEmpty rs)
    (hne : [] ∉ nonNulls (inputs acts)) {cs' : List (WithTop (List ℕ))}
    (h : absRun (rs.map minSpec) acts = some cs') :
    cs' = (acts.foldl routeStep rs).map minSpec := by
  induction acts generalizing rs with
  | nil => cases h; rfl
  | cons a as ih =>
    obtain ⟨cs₁, h₁, h⟩ := Option.bind_eq_some.mp h
    have hne' : [] ∉ nonNulls a.input?.toList ∧ [] ∉ nonNulls (inputs as) := by
      have : inputs (a :: as) = a.input?.toList ++ inputs as := by
        cases a <;> rfl
      simpa [this, nonNulls_append, not_or] using hne
    obtain ⟨rfl, hr₁⟩ := absStep_routeStep hr hne'.1 h₁
    exact ih hr₁ hne'.2 h

/-- **After any interleaving, each state finalizes to the least row routed to it.** Take
any sequence of `MinInit`, `MinUpdate` and `MinMerge` calls from an empty context in which
no row is a non-null empty string. Every state, finalized after the sequence, returns the
least non-null row, in `memcmp` order, among the rows that reached it through updates and
merges, or null when none did. -/
theorem run_finalize_least (acts : List Action) (c : Config)
    (hrun : Config.empty.run acts = some c) (hne : [] ∉ nonNulls (inputs acts)) (i : ℕ)
    (s : MinState) (hs : c.states[i]? = some s) :
    ∃ h', minFinalize s c.heap = some (leastOf (nonNulls ((routes acts).getD i [])), h') := by
  have habs : absRun (([] : List (List StringVal)).map minSpec) acts = some c.abs := by
    have h := Config.abs_run Config.empty_valid acts
    rw [hrun] at h
    exact h.symm
  have hroutes : c.abs = (routes acts).map minSpec :=
    absRun_routes acts (fun _ h => by cases h) hne habs
  have hcur : s.current c.heap = minSpec ((routes acts).getD i []) := by
    apply eq_minSpec_of_getElem?
    rw [← hroutes, Config.abs_getElem?, hs]; rfl
  obtain ⟨h', hf⟩ := minFinalize_spec ((Config.empty_valid.run acts hrun).1.valid i s hs)
  exact ⟨h', by rw [hf, hcur]; rfl⟩

/-- The run of `Config.reachable_safe_two_states`: "BB" reaches state 0 and "A" reaches
state 1, which is merged into state 0; state 0 finalizes to "A". -/
theorem run_finalize_least_two_states :
    Config.empty.run [.init ⟨0, 0, 0⟩, .update 0 (StringVal.ofBytes [66, 66]), .init ⟨0, 7, 0⟩,
        .update 1 (StringVal.ofBytes [65]), .merge 1 0] =
        some ⟨[⟨1, 1, 2⟩, ⟨2, 1, 1⟩], ⟨[some [65, 66], some [65]]⟩⟩ ∧
      [] ∉ nonNulls (inputs [.init ⟨0, 0, 0⟩, .update 0 (StringVal.ofBytes [66, 66]),
        .init ⟨0, 7, 0⟩, .update 1 (StringVal.ofBytes [65]), .merge 1 0]) ∧
      [⟨1, 1, 2⟩, ⟨2, 1, 1⟩][0]? = some (⟨1, 1, 2⟩ : MinState) ∧
      ∃ h', minFinalize ⟨1, 1, 2⟩ ⟨[some [65, 66], some [65]]⟩ =
        some (leastOf (nonNulls ((routes [.init ⟨0, 0, 0⟩, .update 0 (StringVal.ofBytes [66, 66]),
          .init ⟨0, 7, 0⟩, .update 1 (StringVal.ofBytes [65]), .merge 1 0]).getD 0 [])), h') := by
  refine ⟨?h, by decide, rfl, run_finalize_least _ _ ?h (by decide) 0 ⟨1, 1, 2⟩ rfl⟩; rfl

end MadlibPort
