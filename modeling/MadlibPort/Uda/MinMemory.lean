import Mathlib.Order.Nat
import MadlibPort.Uda.MinMachine

/-!
# The memory of a `Min` context: no buffer leaks, and none outgrows its rows

`MinState::Set` frees a state's buffer before it allocates a larger one, and `MinMerge`
copies the source's string into the destination's own buffer. The comment above `MinState`
says the buffers are reused and grow to the longest result string. Over every interleaving
of calls on the states of one context this module proves:

* `Config.Owned`: every live block of the context is the buffer of some state, and every
  state's `buffer_len` is at most the longest non-null row routed to it (`routes` of
  `MinMachine.lean`). One call keeps it (`Config.Owned.step`), so every run does.
* `run_live_block`: after any run from an empty context, every live block belongs to
  exactly one state and is no longer than the longest non-null row that reached that state.
  Nothing the calls allocate is leaked or shared, and the context never holds more than one
  buffer per state.

`MinFinalize` allocates its result from the context too; that string belongs to the caller
and is not a call of the machine.
-/

namespace MadlibPort

/-- The length of the longest non-null row, `0` when there is none. -/
def longest (r : List StringVal) : ℕ := ((nonNulls r).map List.length).foldr max 0

theorem le_longest {r : List StringVal} {x : List UInt8} (hx : x ∈ nonNulls r) :
    x.length ≤ longest r :=
  List.le_max_of_le (List.mem_map_of_mem _ hx) le_rfl

theorem longest_le_longest {r r' : List StringVal} (h : ∀ x ∈ nonNulls r, x ∈ nonNulls r') :
    longest r ≤ longest r' :=
  List.max_le_of_forall_le _ _ fun _ hm => by
    obtain ⟨x, hx, rfl⟩ := List.mem_map.mp hm
    exact le_longest (h x hx)

/-- Routing more rows to a state does not lower its longest row. -/
theorem longest_le_append (r r' : List StringVal) : longest r ≤ longest (r ++ r') :=
  longest_le_longest fun _ hx => by rw [nonNulls_append]; exact List.mem_append_left _ hx

theorem longest_le_append_right (r r' : List StringVal) : longest r' ≤ longest (r ++ r') :=
  longest_le_longest fun _ hx => by rw [nonNulls_append]; exact List.mem_append_right _ hx

namespace Config

variable {c c' : Config} {rs : List (List StringVal)}

/-! ## Inverting a call -/

theorem step_update_eq {i : ℕ} {input : StringVal} (h : c.step (.update i input) = some c') :
    ∃ s s' h', c.states[i]? = some s ∧ minUpdate input s c.heap = some (s', h') ∧
      c' = ⟨c.states.set i s', h'⟩ := by
  simp only [step, bind, Option.bind_eq_some] at h
  obtain ⟨s, hs, ⟨s', h'⟩, hu, ⟨⟩⟩ := h
  exact ⟨s, s', h', hs, hu, rfl⟩

theorem step_merge_eq {src dst : ℕ} (h : c.step (.merge src dst) = some c') :
    ∃ s d d' h', c.states[src]? = some s ∧ c.states[dst]? = some d ∧
      minMerge s d c.heap = some (d', h') ∧ c' = ⟨c.states.set dst d', h'⟩ := by
  simp only [step, bind, Option.bind_eq_some] at h
  obtain ⟨s, hs, d, hd, ⟨d', h'⟩, hm, ⟨⟩⟩ := h
  exact ⟨s, d, d', h', hs, hd, hm, rfl⟩

/-! ## The memory invariant -/

/-- The memory invariant of a configuration, against the rows routed to its states: one
route per state, no `buffer_len` above the longest non-null row routed to its state, and no
live block that is not some state's buffer. -/
structure Owned (c : Config) (rs : List (List StringVal)) : Prop where
  length : c.states.length = rs.length
  bound : ∀ (i : ℕ) (s : MinState), c.states[i]? = some s → s.bufferLen ≤ longest (rs.getD i [])
  owned : ∀ (p : Ptr) (b : List UInt8), c.heap.block? p = some b →
    ∃ (i : ℕ) (s : MinState), c.states[i]? = some s ∧ s.value = p

theorem empty_owned : empty.Owned [] :=
  ⟨rfl, fun _ _ h => by simp [empty] at h, fun p _ h => by rcases p with _ | p <;> cases h⟩

/-- A new scratch space after `MinInit` holds no buffer and has no rows routed to it. -/
theorem Owned.init (ho : c.Owned rs) (scratch : MinState) :
    Owned ⟨c.states ++ [minInit scratch], c.heap⟩ (rs ++ [[]]) := by
  refine ⟨by simp [ho.length], fun j t ht => ?_, fun q b hq => ?_⟩
  · by_cases hj : j < c.states.length
    · rw [List.getElem?_append_left hj] at ht
      rw [List.getD_eq_getElem?_getD, List.getElem?_append_left (ho.length ▸ hj),
        ← List.getD_eq_getElem?_getD]
      exact ho.bound j t ht
    · rw [List.getElem?_append_right (by omega)] at ht
      rw [List.mem_singleton.mp (List.getElem?_mem ht)]
      exact Int.ofNat_nonneg _
  · obtain ⟨j, t, ht, rfl⟩ := ho.owned q b hq
    exact ⟨j, t, by rw [List.getElem?_append_left (List.getElem?_eq_some_iff.mp ht).1]; exact ht, rfl⟩

/-- Replacing the state at `i` by one confined to its own buffer, and no longer than the
longest row of the state's new route, keeps the invariant. -/
theorem Owned.set (ho : c.Owned rs) {i : ℕ} {s s' : MinState} {h' : Heap} {r : List StringVal}
    (hs : c.states[i]? = some s) (hconf : MinState.Confined c.heap s h' s')
    (hlen : s'.bufferLen ≤ longest r) : Owned ⟨c.states.set i s', h'⟩ (rs.set i r) := by
  have hi : i < c.states.length := (List.getElem?_eq_some_iff.mp hs).1
  refine ⟨by simp [ho.length], fun j t ht => ?_, fun q b hq => ?_⟩
  · rcases getElem?_set_eq_some ht with ⟨rfl, rfl⟩ | ⟨hj, ht'⟩
    · simpa [List.getD_eq_getElem?_getD, ← ho.length, hi] using hlen
    · simpa [List.getD_eq_getElem?_getD, List.getElem?_set_ne (Ne.symm hj)] using ho.bound j t ht'
  · rcases hconf q b hq with rfl | ⟨hqs, hq'⟩
    · exact ⟨i, _, List.getElem?_set_self hi, rfl⟩
    · obtain ⟨j, t, ht, rfl⟩ := ho.owned q b hq'
      have hj : j ≠ i := by rintro rfl; rw [hs] at ht; cases ht; exact hqs rfl
      exact ⟨j, t, by rw [List.getElem?_set_ne (Ne.symm hj)]; exact ht, rfl⟩

/-- **One call keeps the memory invariant.** -/
theorem Owned.step (hc : c.Valid) (ho : c.Owned rs) {a : Action} (h : c.step a = some c') :
    c'.Owned (routeStep rs a) := by
  cases a with
  | init scratch => cases h; exact ho.init scratch
  | update i input =>
    obtain ⟨s, s', h', hs, hu, rfl⟩ := step_update_eq h
    refine ho.set hs (minUpdate_confined hu) ?_
    refine minUpdate_bufferLen_le hu ((ho.bound i s hs).trans ?_) fun hn => ?_
    · exact_mod_cast longest_le_append _ _
    · have : input.bytes ∈ nonNulls (rs.getD i [] ++ [input]) := by simp [nonNulls, hn]
      simpa [StringVal.len] using le_longest this
  | merge src dst =>
    obtain ⟨s, d, d', h', hs, hd, hm, rfl⟩ := step_merge_eq h
    refine ho.set hd (minMerge_confined hm) ?_
    refine minMerge_bufferLen_le (hc.valid src s hs) hm
      ((ho.bound dst d hd).trans ?_) ((ho.bound src s hs).trans ?_)
    · exact_mod_cast longest_le_append _ _
    · exact_mod_cast longest_le_append_right _ _

/-- Every run from a valid configuration keeps the memory invariant. -/
theorem Owned.run (hc : c.Valid) (ho : c.Owned rs) (acts : List Action) (h : c.run acts = some c') :
    c'.Owned (acts.foldl routeStep rs) := by
  induction acts generalizing c rs with
  | nil => cases h; exact ho
  | cons a as ih =>
    obtain ⟨c₁, h₁, h⟩ := Option.bind_eq_some.mp h
    exact ih (hc.step h₁).1 (ho.step hc h₁) h

end Config

/-- **No `Min` buffer leaks, and none outgrows its rows.** After any sequence of `MinInit`,
`MinUpdate` and `MinMerge` calls from an empty context, every live block of the context is
the buffer of exactly one state, and is no longer than the longest non-null row that reached
that state through updates and merges. -/
theorem run_live_block (acts : List Action) (c : Config) (hrun : Config.empty.run acts = some c)
    (p : Ptr) (b : List UInt8) (hb : c.heap.block? p = some b) :
    ∃ (i : ℕ) (s : MinState), c.states[i]? = some s ∧ s.value = p ∧
      b.length ≤ longest ((routes acts).getD i []) ∧
      ∀ (j : ℕ) (t : MinState), c.states[j]? = some t → t.value = p → j = i := by
  have hv := (Config.empty_valid.run acts hrun).1
  have ho := Config.Owned.run Config.empty_valid Config.empty_owned acts hrun
  obtain ⟨i, s, hs, rfl⟩ := ho.owned p b hb
  have hp : s.value ≠ 0 := Heap.ne_zero_of_block? hb
  obtain ⟨b', hb', hlen, -⟩ := (hv.valid i s hs).live hp
  obtain rfl : b' = b := Option.some.inj (hb'.symm.trans hb)
  refine ⟨i, s, hs, rfl, ?_, fun j t ht htp => ?_⟩
  · have := ho.bound i s hs
    unfold routes
    omega
  · by_contra hj
    exact hp (htp ▸ hv.disjoint j i t s hj ht hs htp)

/-- The run of `Config.reachable_safe_two_states`: block 1, which holds "AB" once the merge
has copied "A" over "BB", is the buffer of state 0 alone, and has the two bytes of "BB",
the longest row routed to that state. -/
theorem run_live_block_two_states :
    Config.empty.run [.init ⟨0, 0, 0⟩, .update 0 (StringVal.ofBytes [66, 66]), .init ⟨0, 7, 0⟩,
        .update 1 (StringVal.ofBytes [65]), .merge 1 0] =
        some ⟨[⟨1, 1, 2⟩, ⟨2, 1, 1⟩], ⟨[some [65, 66], some [65]]⟩⟩ ∧
      (⟨[some [65, 66], some [65]]⟩ : Heap).block? 1 = some [65, 66] ∧
      ∃ (i : ℕ) (s : MinState), [⟨1, 1, 2⟩, ⟨2, 1, 1⟩][i]? = some s ∧ s.value = 1 ∧
        ([65, 66] : List UInt8).length ≤
          longest ((routes [.init ⟨0, 0, 0⟩, .update 0 (StringVal.ofBytes [66, 66]),
            .init ⟨0, 7, 0⟩, .update 1 (StringVal.ofBytes [65]), .merge 1 0]).getD i []) ∧
        ∀ (j : ℕ) (t : MinState), [⟨1, 1, 2⟩, ⟨2, 1, 1⟩][j]? = some t → t.value = 1 → j = i := by
  refine ⟨?h, rfl, run_live_block _ _ ?h 1 _ rfl⟩; rfl

end MadlibPort
