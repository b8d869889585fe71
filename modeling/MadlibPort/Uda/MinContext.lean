import MadlibPort.Uda.MinState

/-!
# Many `MinState`s in one context: the buffer invariant over every run

A query keeps several `Min` intermediates at once, one per group, and all of them take
their buffers from one `UdfContext`. A `Config` is that situation: the states and the heap
they share. An `Action` is one call of the harness: `MinInit` on a new scratch space,
`MinUpdate` of a state, or `MinMerge` of one state into another.

* `Config.Valid`: every state satisfies the buffer invariant `MinState.Valid`, and no two
  states share a buffer.
* `Config.step_valid`: from a valid configuration every action on existing states is
  defined, so no `memcpy` or `memcmp` leaves a live buffer. It leads to a valid
  configuration in which no `buffer_len` has decreased. "Defined" is under the convention
  of `Heap.memcpy`: a copy of zero bytes to `NULL` copies nothing.
* `Config.reachable_safe`: every configuration reached from an empty context is valid, and
  every further action, and `MinFinalize` of any state, is safe.
-/

namespace MadlibPort

/-- The `Min` intermediates of a query and the context heap they share. -/
structure Config where
  /-- the intermediates, in the order they were initialized -/
  states : List MinState
  /-- the shared context heap -/
  heap : Heap
  deriving Repr

/-- One call of the harness. -/
inductive Action where
  /-- `MinInit` on a new scratch space that holds `scratch` -/
  | init (scratch : MinState)
  /-- `MinUpdate` of state `i` with a row -/
  | update (i : ℕ) (input : StringVal)
  /-- `MinMerge` of the serialized state `src` into state `dst` -/
  | merge (src dst : ℕ)
  deriving Repr

/-- An action names only states that exist. -/
def Action.InRange (n : ℕ) : Action → Prop
  | .init _ => True
  | .update i _ => i < n
  | .merge src dst => src < n ∧ dst < n

namespace Config

/-- A context before any call. -/
def empty : Config := ⟨[], Heap.empty⟩

/-- One call; `none` when it is undefined, or names a state that does not exist. -/
def step (c : Config) : Action → Option Config
  | .init scratch => some ⟨c.states ++ [minInit scratch], c.heap⟩
  | .update i input => do
    let s ← c.states[i]?
    let (s', h') ← minUpdate input s c.heap
    pure ⟨c.states.set i s', h'⟩
  | .merge src dst => do
    let s ← c.states[src]?
    let d ← c.states[dst]?
    let (d', h') ← minMerge (minSerialize s) d c.heap
    pure ⟨c.states.set dst d', h'⟩

/-- A sequence of calls. -/
def run (c : Config) : List Action → Option Config
  | [] => some c
  | a :: as => (c.step a).bind fun c' => c'.run as

/-- The invariant of a configuration: every state is valid, and two states share a buffer
only when both have none. -/
structure Valid (c : Config) : Prop where
  valid : ∀ (i : ℕ) (s : MinState), c.states[i]? = some s → s.Valid c.heap
  disjoint : ∀ (i j : ℕ) (s t : MinState), i ≠ j → c.states[i]? = some s →
    c.states[j]? = some t → s.value = t.value → s.value = 0

/-- Every state of `c` is still there in `c'`, with a buffer at least as large. -/
def Grows (c c' : Config) : Prop :=
  ∀ (i : ℕ) (s : MinState), c.states[i]? = some s →
    ∃ s' : MinState, c'.states[i]? = some s' ∧ s.bufferLen ≤ s'.bufferLen

theorem Grows.refl (c : Config) : c.Grows c := fun _ s hs => ⟨s, hs, le_refl _⟩

theorem Grows.trans {c₁ c₂ c₃ : Config} (h₁ : c₁.Grows c₂) (h₂ : c₂.Grows c₃) : c₁.Grows c₃ := by
  intro i s hs
  obtain ⟨s₂, hs₂, hle₂⟩ := h₁ i s hs
  obtain ⟨s₃, hs₃, hle₃⟩ := h₂ i s₂ hs₂
  exact ⟨s₃, hs₃, le_trans hle₂ hle₃⟩

variable {c : Config}

/-- A read of the list after `set i x` sees `x` at `i` and the old list elsewhere. -/
theorem getElem?_set_eq_some {l : List MinState} {i j : ℕ} {x t : MinState}
    (h : (l.set i x)[j]? = some t) : (j = i ∧ t = x) ∨ (j ≠ i ∧ l[j]? = some t) := by
  rw [List.getElem?_set] at h
  split_ifs at h with hij
  · cases h; exact .inl ⟨hij.symm, rfl⟩
  · exact .inr ⟨Ne.symm hij, h⟩

/-- A state other than the one an operation changed keeps a valid buffer and its string: the
operation kept every buffer but its own, and no other state shares that one. -/
theorem Valid.keep_other (hc : c.Valid) {i j : ℕ} {s t : MinState} {h' : Heap}
    (hs : c.states[i]? = some s) (hk : c.heap.Keeps h' s.value) (hj : j ≠ i)
    (ht : c.states[j]? = some t) : t.Valid h' ∧ t.current h' = t.current c.heap := by
  refine (hc.valid j t ht).keep hk ?_
  by_cases h0 : t.value = 0
  · exact .inr h0
  · exact .inl fun heq => h0 (hc.disjoint j i t s hj ht hs heq)

/-- A state that an operation on the state at `i` left valid may replace it: the other
states keep their buffers, and the new buffer is shared with none of them. -/
theorem Valid.set (hc : c.Valid) {i : ℕ} {s s' : MinState} {h' : Heap} {cur : WithTop (List ℕ)}
    (hs : c.states[i]? = some s) (hp : MinState.Post c.heap s h' s' cur) :
    (Config.mk (c.states.set i s') h').Valid ∧ c.Grows ⟨c.states.set i s', h'⟩ := by
  have hi : i < c.states.length := (List.getElem?_eq_some_iff.mp hs).1
  -- a state at another index shares no buffer with `s'`
  have hnew : ∀ (j : ℕ) (t : MinState), j ≠ i → c.states[j]? = some t → s'.value = t.value → s'.value = 0 := by
    intro j t hj ht heq
    rcases hp.fresh with hsame | hfree
    · exact hsame ▸ hc.disjoint i j s t (Ne.symm hj) hs ht (hsame ▸ heq)
    · by_contra h0
      obtain ⟨b, hb, -⟩ := (hc.valid j t ht).live (heq ▸ h0)
      rw [← heq, hfree] at hb; cases hb
  refine ⟨⟨fun j t ht => ?_, fun j k t u hjk ht hu heq => ?_⟩, fun j t ht => ?_⟩
  · rcases getElem?_set_eq_some ht with ⟨-, rfl⟩ | ⟨hj, ht'⟩
    · exact hp.valid
    · exact (hc.keep_other hs hp.keeps hj ht').1
  · rcases getElem?_set_eq_some ht with ⟨rfl, rfl⟩ | ⟨hj, ht'⟩ <;>
      rcases getElem?_set_eq_some hu with ⟨rfl, rfl⟩ | ⟨hk, hu'⟩
    · exact absurd rfl hjk
    · exact hnew k u hk hu' heq
    · exact heq ▸ hnew j t hj ht' heq.symm
    · exact hc.disjoint j k t u hjk ht' hu' heq
  · by_cases hj : j = i
    · subst hj; rw [hs] at ht; cases ht
      exact ⟨s', List.getElem?_set_self hi, hp.mono⟩
    · exact ⟨t, by rw [List.getElem?_set_ne (Ne.symm hj)]; exact ht, le_refl _⟩

/-- A new scratch space after `MinInit` holds no buffer, so it shares none. -/
theorem Valid.init (hc : c.Valid) (scratch : MinState) :
    (Config.mk (c.states ++ [minInit scratch]) c.heap).Valid ∧
      c.Grows ⟨c.states ++ [minInit scratch], c.heap⟩ := by
  have hget : ∀ (j : ℕ) (t : MinState), (c.states ++ [minInit scratch])[j]? = some t →
      c.states[j]? = some t ∨ t = minInit scratch := by
    intro j t ht
    by_cases hj : j < c.states.length
    · exact .inl (by rwa [List.getElem?_append_left hj] at ht)
    · rw [List.getElem?_append_right (by omega)] at ht
      exact .inr (List.mem_singleton.mp (List.getElem?_mem ht))
  refine ⟨⟨fun j t ht => ?_, fun j k t u hjk ht hu heq => ?_⟩, fun j t ht => ?_⟩
  · rcases hget j t ht with ht | rfl
    · exact hc.valid j t ht
    · exact (minInit_valid scratch c.heap).1
  · rcases hget j t ht with ht | rfl
    · rcases hget k u hu with hu | rfl
      · exact hc.disjoint j k t u hjk ht hu heq
      · exact heq
    · rfl
  · exact ⟨t, by rw [List.getElem?_append_left (List.getElem?_eq_some_iff.mp ht).1]; exact ht,
      le_refl _⟩

/-- **One call.** From a valid configuration, every action on existing states is defined:
`MinUpdate` and `MinMerge` keep every `memcpy` and `memcmp` inside a live buffer. It leads to
a valid configuration in which no state's `buffer_len` has decreased. "Defined" is under the
convention of `Heap.memcpy`: the `memcpy(NULL, ptr, 0)` that `Set` makes when a state without
a buffer takes a non-null empty string, undefined in ISO C, copies nothing. -/
theorem step_valid (hc : c.Valid) {a : Action} (ha : a.InRange c.states.length) :
    ∃ c', c.step a = some c' ∧ c'.Valid ∧ c.Grows c' := by
  cases a with
  | init scratch => exact ⟨_, rfl, hc.init scratch⟩
  | update i input =>
    have hs := List.getElem?_eq_getElem ha
    obtain ⟨s', h', hu, hp⟩ := minUpdate_spec (hc.valid i _ hs) input
    exact ⟨_, by simp [step, hs, hu], hc.set hs hp⟩
  | merge src dst =>
    have hs := List.getElem?_eq_getElem ha.1
    have hd := List.getElem?_eq_getElem ha.2
    obtain ⟨d', h', hm, hp⟩ := minMerge_spec (hc.valid src _ hs) (hc.valid dst _ hd)
    exact ⟨_, by simp [step, hs, hd, minSerialize, hm], hc.set hd hp⟩

/-- A step that is defined from a valid configuration is the one `step_valid` describes. -/
theorem Valid.step (hc : c.Valid) {a : Action} {c' : Config} (h : c.step a = some c') :
    c'.Valid ∧ c.Grows c' := by
  have ha : a.InRange c.states.length := by
    cases a with
    | init => trivial
    | update i input =>
      simp only [Config.step] at h
      exact (List.getElem?_eq_some_iff.mp (Option.bind_eq_some.mp h).choose_spec.1).1
    | merge src dst =>
      simp only [Config.step] at h
      obtain ⟨s, hs, h⟩ := Option.bind_eq_some.mp h
      obtain ⟨d, hd, -⟩ := Option.bind_eq_some.mp h
      exact ⟨(List.getElem?_eq_some_iff.mp hs).1, (List.getElem?_eq_some_iff.mp hd).1⟩
  obtain ⟨c'', h'', hv⟩ := step_valid hc ha
  rw [h] at h''; cases h''; exact hv

/-- Every run from a valid configuration ends in a valid one, with no buffer shrunk. -/
theorem Valid.run (hc : c.Valid) (acts : List Action) {c' : Config} (h : c.run acts = some c') :
    c'.Valid ∧ c.Grows c' := by
  induction acts generalizing c with
  | nil => cases h; exact ⟨hc, Grows.refl _⟩
  | cons a as ih =>
    obtain ⟨c₁, h₁, h⟩ := Option.bind_eq_some.mp h
    obtain ⟨hv₁, hg₁⟩ := hc.step h₁
    obtain ⟨hv, hg⟩ := ih hv₁ h
    exact ⟨hv, hg₁.trans hg⟩

theorem empty_valid : empty.Valid := ⟨fun _ _ h => by simp [empty] at h, fun _ _ _ _ _ h => by simp [empty] at h⟩

/-- What the buffer invariant gives a configuration: it is valid; every further call on
existing states is defined, leaves it valid and shrinks no buffer; and `MinFinalize` of
every state is defined and returns the string the state holds. "Defined" counts the
zero-byte `memcpy(NULL, ptr, 0)` of `Set` as copying nothing, the convention of
`Heap.memcpy`; ISO C leaves that call undefined. -/
def Safe (c : Config) : Prop :=
  c.Valid ∧
    (∀ a : Action, a.InRange c.states.length → ∃ c', c.step a = some c' ∧ c'.Valid ∧ c.Grows c') ∧
    (∀ (i : ℕ) (s : MinState), c.states[i]? = some s →
      ∃ h', minFinalize s c.heap = some (minFinalizeStep (s.current c.heap), h'))

/-- **The buffer invariant of `Min` over every run.** Take any configuration reached from an
empty context by `MinInit`, `MinUpdate` and `MinMerge` calls. Every state in it has
`buffer_len ≥ 0`; `value == NULL` only with `buffer_len == 0`; and a non-null `value` is a
live block of exactly `buffer_len` bytes, owned by no other state, with
`0 ≤ len ≤ buffer_len`. Every further call on existing states is defined — the `memcpy` of
`Set` and the `memcmp` of `MinUpdate` stay inside the buffer — and shrinks no buffer, and
`MinFinalize` of any state reads only its first `len` bytes. A `memcpy` of zero bytes to
`NULL`, which `Set` makes for an empty string and ISO C leaves undefined, counts as copying
nothing (the convention of `Heap.memcpy`). -/
theorem reachable_safe (acts : List Action) (c : Config) (hrun : empty.run acts = some c) :
    c.Safe := by
  have hc := (empty_valid.run acts hrun).1
  exact ⟨hc, fun _ ha => step_valid hc ha, fun i s hs => minFinalize_spec (hc.valid i s hs)⟩

/-- Two groups, "BB" then "A", merged: the merge copies "A" into the two-byte buffer. -/
theorem reachable_safe_two_states :
    empty.run [.init ⟨0, 0, 0⟩, .update 0 (StringVal.ofBytes [66, 66]), .init ⟨0, 7, 0⟩,
        .update 1 (StringVal.ofBytes [65]), .merge 1 0] =
        some ⟨[⟨1, 1, 2⟩, ⟨2, 1, 1⟩], ⟨[some [65, 66], some [65]]⟩⟩ ∧
      Safe ⟨[⟨1, 1, 2⟩, ⟨2, 1, 1⟩], ⟨[some [65, 66], some [65]]⟩⟩ :=
  by refine ⟨?h, reachable_safe _ _ ?h⟩; rfl

end Config

end MadlibPort
