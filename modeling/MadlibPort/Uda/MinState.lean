import MadlibPort.Uda.MinSpec

/-!
# `MinState`: the heap-level `Min` aggregate

The intermediate of `Min` is a `MinState` in a scratch buffer of the harness. Its `value`
points to a buffer of `buffer_len` bytes from the `UdfContext`, whose first `len` bytes
hold the current minimum. The buffer is reused and grows only when a longer string must be
stored. This module translates `MinState::Set`, `MinInit`, `MinUpdate`, `MinSerialize`,
`MinMerge` and `MinFinalize` onto the heap of `Heap.lean`. From a `Valid` state each
operation

* touches no memory outside a live block, and leaves a `Valid` state: the buffer
  invariant, which holds `value == NULL` to an empty buffer and `len` within it;
* changes no buffer but its own (`Heap.Keeps`), and moves only to a freshly allocated
  buffer;
* takes the step that `MinSpec.lean` gives it, seen through `MinState.current`
  (`set_spec`, `minUpdate_spec`, `minMerge_spec`, `minFinalize_spec`).

"Touches no memory outside a live block" is under the convention of `Heap.memcpy`: the
`memcpy(NULL, ptr, 0)` that `Set` makes when a state without a buffer takes a non-null empty
string copies nothing, although ISO C leaves it undefined.

Conversely (`MinState.set_inv`, `minUpdate_confined`, `minMerge_confined`), a call leaves
live no block but the state's buffer and the blocks it did not touch: `Set` frees the old
buffer when it allocates a new one.
-/

namespace MadlibPort

/-- `MinState`, the intermediate of `Min`. -/
structure MinState where
  /-- `value`: the buffer, `NULL` while the state holds no string -/
  value : Ptr
  /-- `len`: the length of the current minimum -/
  len : Int
  /-- `buffer_len`: the size of the buffer -/
  bufferLen : Int
  deriving DecidableEq, Repr

namespace MinState

/-- `MinState::Set`: when the input does not fit, frees the buffer and allocates one of the
input's length; then copies the input into the buffer. -/
def set (s : MinState) (val : StringVal) (h : Heap) : Option (MinState × Heap) := do
  let (s, h) ← if s.bufferLen < val.len then do
      let h ← h.free s.value
      let (p, h) := h.allocate val.len.toNat
      pure ({ s with value := p, bufferLen := val.len }, h)
    else pure (s, h)
  let h ← h.memcpy s.value val.bytes
  pure ({ s with len := val.len }, h)

/-- The buffer invariant: `buffer_len` is never negative, a `NULL` buffer is empty, and a
non-null `value` is a live block of exactly `buffer_len` bytes holding `len` of them. -/
structure Valid (h : Heap) (s : MinState) : Prop where
  bufferLen_nonneg : 0 ≤ s.bufferLen
  bufferLen_of_null : s.value = 0 → s.bufferLen = 0
  live : s.value ≠ 0 → ∃ b, h.block? s.value = some b ∧ (b.length : Int) = s.bufferLen ∧
    0 ≤ s.len ∧ s.len ≤ s.bufferLen

/-- The string a state holds, seen through `key`: the first `len` bytes of its buffer, `⊤`
while `value` is `NULL`. -/
def current (h : Heap) (s : MinState) : WithTop (List ℕ) :=
  (h.block? s.value).map fun b => key (b.take s.len.toNat)

/-- What an operation on the state `s` guarantees when it leaves `s'` holding `c`: a valid
state, no other buffer changed, a buffer that is the old one or was not live before, and a
buffer that did not shrink. -/
structure Post (h : Heap) (s : MinState) (h' : Heap) (s' : MinState) (c : WithTop (List ℕ)) :
    Prop where
  valid : s'.Valid h'
  current : s'.current h' = c
  keeps : h.Keeps h' s.value
  fresh : s'.value = s.value ∨ h.block? s'.value = none
  mono : s.bufferLen ≤ s'.bufferLen

variable {h h' : Heap} {s : MinState} {val : StringVal} {p : Ptr}

theorem current_of_null (hs : s.value = 0) : s.current h = ⊤ := by
  simp [current, hs]; rfl

theorem current_of_block {b : List UInt8} (hb : h.block? s.value = some b) :
    s.current h = ↑(key (b.take s.len.toNat)) := by
  simp [current, hb]; rfl

theorem Post.refl (hv : s.Valid h) : Post h s h s (s.current h) :=
  ⟨hv, rfl, Heap.Keeps.refl h _, .inl rfl, le_refl _⟩

/-- A state whose buffer an operation kept is still valid and holds the same string. -/
theorem Valid.keep (hv : s.Valid h) (hk : h.Keeps h' p) (hp : s.value ≠ p ∨ s.value = 0) :
    s.Valid h' ∧ s.current h' = s.current h := by
  by_cases h0 : s.value = 0
  · exact ⟨⟨hv.1, hv.2, fun h1 => absurd h0 h1⟩, by rw [current_of_null h0, current_of_null h0]⟩
  obtain ⟨b, hb, hlen⟩ := hv.live h0
  have hb' := hk _ _ (hp.resolve_right h0) hb
  exact ⟨⟨hv.1, hv.2, fun _ => ⟨b, hb', hlen⟩⟩, by rw [current_of_block hb, current_of_block hb']⟩

/-- `Set` when the input fits the buffer: a copy in place. -/
theorem set_fit (hv : s.Valid h) (hfit : ¬s.bufferLen < val.len) :
    ∃ h', s.set val h = some ({ s with len := val.len }, h') ∧
      Post h s h' { s with len := val.len }
        (if s.value = 0 ∧ val.bytes = [] then ⊤ else ↑(key val.bytes)) := by
  by_cases he : val.bytes = []
  · refine ⟨h, by simp [set, hfit, he], ⟨hv.1, hv.2, fun h0 => ?_⟩, ?_, Heap.Keeps.refl h _,
      .inl rfl, le_refl _⟩
    · obtain ⟨b, hb, hlen, -⟩ := hv.live h0
      exact ⟨b, hb, hlen, by simp [StringVal.len, he], by simp [StringVal.len, he]; omega⟩
    · by_cases h0 : s.value = 0
      · rw [current_of_null (s := { s with len := val.len }) h0]; simp [h0, he]
      · obtain ⟨b, hb, -⟩ := hv.live h0
        rw [current_of_block (s := { s with len := val.len }) hb]; simp [h0, he, StringVal.len]
  have hpos : (0 : Int) < val.len := by
    simp [StringVal.len]; exact List.length_pos.mpr he
  have h0 : s.value ≠ 0 := fun h0 => by have := hv.bufferLen_of_null h0; omega
  obtain ⟨b, hb, hlen, -⟩ := hv.live h0
  obtain ⟨h', hm, hb', hk⟩ := Heap.memcpy_spec val.bytes hb
    (by simp [StringVal.len] at hfit; omega)
  refine ⟨h', by simp [set, hfit, hm], ⟨hv.1, hv.2, fun _ => ⟨_, hb', ?_⟩⟩, ?_, hk, .inl rfl,
    le_refl _⟩
  · simp [StringVal.len] at hfit ⊢; omega
  · rw [current_of_block (s := { s with len := val.len }) hb', if_neg (by simp [h0])]
    simp [StringVal.len]

/-- `Set` when the input does not fit: the buffer moves to a fresh block of the input's
length. -/
theorem set_grow (hv : s.Valid h) (hgrow : s.bufferLen < val.len) :
    ∃ s' h', s.set val h = some (s', h') ∧ Post h s h' s' ↑(key val.bytes) := by
  have hfree : s.value = 0 ∨ ∃ b, h.block? s.value = some b := by
    by_cases h0 : s.value = 0
    · exact .inl h0
    · obtain ⟨b, hb, -⟩ := hv.live h0; exact .inr ⟨b, hb⟩
  obtain ⟨h₁, hf, hk₁, hl₁⟩ := Heap.free_spec hfree
  have hb₂ : (h₁.allocate val.len.toNat).2.block? (h₁.allocate val.len.toNat).1 =
      some (List.replicate val.bytes.length 0) := by
    simpa [StringVal.len] using Heap.block?_allocate_self (h := h₁) (n := val.len.toNat)
  obtain ⟨h₃, hm, hb₃, hk₃⟩ := Heap.memcpy_spec val.bytes hb₂ (by simp)
  have hfresh : h.block? (h₁.allocate val.len.toNat).1 = none := by
    rw [Heap.allocate_fst, hl₁]; exact Heap.block?_length_succ
  refine ⟨⟨(h₁.allocate val.len.toNat).1, val.len, val.len⟩, h₃, by simp [set, hgrow, hf, hm], ?_⟩
  have hl : (0 : Int) ≤ val.len := by unfold StringVal.len; omega
  refine ⟨⟨hl, fun h0 => absurd h0 (Heap.allocate_fst_ne_zero (n := val.len.toNat)),
    fun _ => ⟨_, hb₃, by simp [StringVal.len], hl, le_refl _⟩⟩, ?_, ?_,
    .inr hfresh, le_of_lt hgrow⟩
  · rw [current_of_block (s := ⟨_, val.len, val.len⟩) hb₃]; simp [StringVal.len]
  · intro q b hq hb
    have hqp : q ≠ (h₁.allocate val.len.toNat).1 := by rintro rfl; simp [hfresh] at hb
    exact hk₃ q b hqp (Heap.keeps_allocate s.value q b hq (hk₁ q b hq hb))

/-- **`MinState::Set`.** From a valid state, `Set` touches only live memory and leaves a
valid state holding the input — except that an empty input copied into a state without a
buffer leaves it holding nothing, since `value` stays `NULL`. That case is the
`memcpy(NULL, ptr, 0)` that ISO C leaves undefined and the model counts as copying nothing
(the convention of `Heap.memcpy`). -/
theorem set_spec (hv : s.Valid h) (val : StringVal) :
    ∃ s' h', s.set val h = some (s', h') ∧
      Post h s h' s' (if s.value = 0 ∧ val.bytes = [] then ⊤ else ↑(key val.bytes)) := by
  by_cases hgrow : s.bufferLen < val.len
  · obtain ⟨s', h', hs, hp⟩ := set_grow hv hgrow
    have hne : ¬(s.value = 0 ∧ val.bytes = []) := fun ⟨h0, he⟩ => by
      have := hv.bufferLen_of_null h0; simp [StringVal.len, he] at hgrow; omega
    exact ⟨s', h', hs, by rwa [if_neg hne]⟩
  · obtain ⟨h', hs, hp⟩ := set_fit hv hgrow
    exact ⟨_, h', hs, hp⟩

end MinState

open MinState

/-- `MinInit`: clears `value` and `buffer_len`; `len` keeps whatever the scratch space held. -/
def minInit (s : MinState) : MinState := { s with value := 0, bufferLen := 0 }

/-- `MinUpdate`: a null input changes nothing, and a state holding no string takes the
input. Otherwise the input replaces the minimum when `memcmp` over the shorter length is
negative, or zero with the input shorter. -/
def minUpdate (input : StringVal) (s : MinState) (h : Heap) : Option (MinState × Heap) :=
  if input.isNull then some (s, h)
  else if s.value = 0 then s.set input h
  else do
    let n := (min input.len s.len).toNat
    let cur ← h.read s.value n
    let cmp := memcmp input.bytes cur n
    if cmp < 0 ∨ (cmp = 0 ∧ input.len < s.len) then s.set input h else some (s, h)

/-- `MinSerialize`: the serialized intermediate is the state itself. -/
def minSerialize (s : MinState) : MinState := s

/-- `MinMerge`: a source holding no string is skipped; otherwise the string in its buffer,
`StringVal(value, len)`, updates the destination. -/
def minMerge (src dst : MinState) (h : Heap) : Option (MinState × Heap) :=
  if src.value = 0 then some (dst, h)
  else do
    let bytes ← h.read src.value src.len.toNat
    minUpdate (StringVal.ofBytes bytes) dst h

/-- `MinFinalize`: null when the state holds no string; otherwise a copy of it in a new
`StringVal` of `len` bytes allocated from the context. -/
def minFinalize (s : MinState) (h : Heap) : Option (StringVal × Heap) :=
  if s.value = 0 then some (StringVal.null, h)
  else do
    let (p, h) := h.allocate s.len.toNat
    let bytes ← h.read s.value s.len.toNat
    let h ← h.memcpy p bytes
    pure (StringVal.ofBytes bytes, h)

variable {h : Heap} {s : MinState}

/-- A fresh state is valid and holds no string, whatever its scratch space held. -/
theorem minInit_valid (s : MinState) (h : Heap) : (minInit s).Valid h ∧ (minInit s).current h = ⊤ :=
  ⟨⟨le_refl _, fun _ => rfl, fun h0 => absurd rfl h0⟩, current_of_null rfl⟩

/-- The test of `MinUpdate` on a state whose buffer `b` holds its string. -/
theorem minUpdate_test {input : StringVal} {b : List UInt8} (hl0 : 0 ≤ s.len)
    (hlb : s.len ≤ b.length) :
    (memcmp input.bytes (b.take (min input.len s.len).toNat) (min input.len s.len).toNat < 0 ∨
        (memcmp input.bytes (b.take (min input.len s.len).toNat) (min input.len s.len).toNat = 0 ∧
          input.len < s.len)) ↔
      key input.bytes < key (b.take s.len.toNat) := by
  have hlen : (b.take s.len.toNat).length = s.len.toNat := by simp; omega
  have hn : (min input.len s.len).toNat = min input.bytes.length (b.take s.len.toNat).length := by
    rw [hlen]; simp [StringVal.len]; omega
  rw [← memcmp_lt_iff, ← hn, memcmp_take _ _ (le_refl _),
    ← memcmp_take input.bytes b (m := s.len.toNat) (by omega), hlen]
  simp only [StringVal.len]; omega

/-- **`MinUpdate` refines `minStep`.** From a valid state, `MinUpdate` touches only live
memory and leaves a valid state holding `minStep` of the old string and the input. -/
theorem minUpdate_spec (hv : s.Valid h) (input : StringVal) :
    ∃ s' h', minUpdate input s h = some (s', h') ∧ Post h s h' s' (minStep (s.current h) input) := by
  by_cases hn : input.isNull
  · exact ⟨s, h, by simp [minUpdate, hn], by simpa [minStep, hn] using Post.refl hv⟩
  by_cases h0 : s.value = 0
  · obtain ⟨s', h', hs, hp⟩ := set_spec hv input
    refine ⟨s', h', by simp [minUpdate, hn, h0, hs], ?_⟩
    rw [current_of_null h0]
    simpa [minStep, hn, h0] using hp
  obtain ⟨b, hb, hlen, hl0, hlb⟩ := hv.live h0
  have hread := Heap.read_eq (n := (min input.len s.len).toNat) hb (by omega)
  have hcur := current_of_block hb
  by_cases hlt : key input.bytes < key (b.take s.len.toNat)
  · obtain ⟨s', h', hs, hp⟩ := set_spec hv input
    refine ⟨s', h', by simp [minUpdate, hn, h0, hread, (minUpdate_test hl0 (by omega)).mpr hlt, hs], ?_⟩
    rw [hcur, minStep_of_ne_top WithTop.coe_ne_top, if_neg hn, min_eq_right (le_of_lt (by exact_mod_cast hlt))]
    simpa [h0] using hp
  · refine ⟨s, h, by simp [minUpdate, hn, h0, hread, mt (minUpdate_test hl0 (by omega)).mp hlt], ?_⟩
    rw [hcur, minStep_of_ne_top WithTop.coe_ne_top, if_neg hn, min_eq_left (by exact_mod_cast not_lt.mp hlt)]
    simpa [hcur] using Post.refl hv

/-- **`MinMerge` refines `minMergeStep`.** From two valid states, merging the source into
the destination touches only live memory and leaves a valid destination holding
`minMergeStep` of the two strings. -/
theorem minMerge_spec {src dst : MinState} (hsrc : src.Valid h) (hdst : dst.Valid h) :
    ∃ s' h', minMerge src dst h = some (s', h') ∧
      Post h dst h' s' (minMergeStep (dst.current h) (src.current h)) := by
  by_cases h0 : src.value = 0
  · exact ⟨dst, h, by simp [minMerge, h0], by simpa [current_of_null h0] using Post.refl hdst⟩
  obtain ⟨b, hb, hlen, hl0, hlb⟩ := hsrc.live h0
  have hread := Heap.read_eq (n := src.len.toNat) hb (by omega)
  obtain ⟨s', h', hs, hp⟩ := minUpdate_spec hdst (StringVal.ofBytes (b.take src.len.toNat))
  exact ⟨s', h', by simp [minMerge, h0, hread, hs], by rwa [current_of_block hb, minMergeStep_coe]⟩

/-- **`MinFinalize` refines `minFinalizeStep`.** From a valid state, `MinFinalize` touches
only live memory and returns the string the state holds, or null. -/
theorem minFinalize_spec (hv : s.Valid h) :
    ∃ h', minFinalize s h = some (minFinalizeStep (s.current h), h') := by
  by_cases h0 : s.value = 0
  · exact ⟨h, by simp [minFinalize, h0, current_of_null h0]⟩
  obtain ⟨b, hb, hlen, hl0, hlb⟩ := hv.live h0
  have hb' := Heap.keeps_allocate (h := h) (n := s.len.toNat) 0 s.value b h0 hb
  have hread := Heap.read_eq (n := s.len.toNat) hb' (by omega)
  obtain ⟨h', hm, -⟩ := Heap.memcpy_spec (b.take s.len.toNat)
    (Heap.block?_allocate_self (h := h) (n := s.len.toNat)) (by simp)
  exact ⟨h', by simp [minFinalize, h0, hread, hm, current_of_block hb]⟩


/-! ## What the calls can do to the heap

`Post` says what a call keeps. Bounding the memory of a context needs the converse: every
block live after a call is the state's buffer, or was live before with the same bytes. -/

/-- The converse frame condition of a call on the state `s`: every block live afterwards is
the state's new buffer, or another block than its old one, live before with the same
bytes. -/
def MinState.Confined (h : Heap) (s : MinState) (h' : Heap) (s' : MinState) : Prop :=
  ∀ (q : Ptr) (b : List UInt8), h'.block? q = some b →
    q = s'.value ∨ (q ≠ s.value ∧ h.block? q = some b)

section Inversion

variable {h h' : Heap} {s s' src dst : MinState} {val input : StringVal} {m : Int}

theorem MinState.Confined.refl (h : Heap) (s : MinState) : MinState.Confined h s h s :=
  fun _ _ hq => (em _).imp_right fun hqs => ⟨hqs, hq⟩

/-- **`Set` in reverse.** `Set` grows `buffer_len` to the input's length when the input
does not fit, and frees the old buffer when it allocates a new one. -/
theorem MinState.set_inv (hs : s.set val h = some (s', h')) :
    s'.bufferLen = max s.bufferLen val.len ∧ MinState.Confined h s h' s' := by
  unfold MinState.set at hs
  split_ifs at hs with hgrow
  · simp only [bind, Option.bind_eq_some] at hs
    obtain ⟨h₁, hf, _, ⟨⟩, h₃, hm, ⟨⟩⟩ := hs
    refine ⟨(max_eq_right hgrow.le).symm, fun q b hq => ?_⟩
    by_cases hqp : q = (h₁.allocate val.len.toNat).1
    · exact .inl hqp
    · rw [Heap.memcpy_block?_ne hm hqp, Heap.block?_allocate_ne hqp, Heap.free_block? hf] at hq
      split_ifs at hq with hqs
      exact .inr ⟨hqs, hq⟩
  · simp only [bind, Option.bind_eq_some] at hs
    obtain ⟨_, ⟨⟩, h₃, hm, ⟨⟩⟩ := hs
    refine ⟨(max_eq_left (not_lt.mp hgrow)).symm, fun q b hq => ?_⟩
    by_cases hqp : q = s.value
    · exact .inl hqp
    · exact .inr ⟨hqp, by rwa [Heap.memcpy_block?_ne hm hqp] at hq⟩

/-- What `MinUpdate` can do: nothing, or `Set` with its input, which is not null. -/
theorem minUpdate_cases (hu : minUpdate input s h = some (s', h')) :
    (s' = s ∧ h' = h) ∨ (input.isNull = false ∧ s.set input h = some (s', h')) := by
  unfold minUpdate at hu
  split_ifs at hu with hn h0
  · cases hu; exact .inl ⟨rfl, rfl⟩
  · exact .inr ⟨by simpa using hn, hu⟩
  · obtain ⟨cur, -, hu⟩ := Option.bind_eq_some.mp hu
    dsimp only at hu
    split_ifs at hu
    · exact .inr ⟨by simpa using hn, hu⟩
    · cases hu; exact .inl ⟨rfl, rfl⟩

/-- What `MinMerge` can do: nothing, or `MinUpdate` with the string the source holds. -/
theorem minMerge_cases (hm : minMerge src dst h = some (s', h')) :
    (s' = dst ∧ h' = h) ∨ (src.value ≠ 0 ∧ ∃ bytes, h.read src.value src.len.toNat = some bytes ∧
      minUpdate (StringVal.ofBytes bytes) dst h = some (s', h')) := by
  unfold minMerge at hm
  split_ifs at hm with h0
  · cases hm; exact .inl ⟨rfl, rfl⟩
  · exact .inr ⟨h0, Option.bind_eq_some.mp hm⟩

theorem minUpdate_confined (hu : minUpdate input s h = some (s', h')) :
    MinState.Confined h s h' s' := by
  rcases minUpdate_cases hu with ⟨rfl, rfl⟩ | ⟨-, hs⟩
  · exact MinState.Confined.refl _ _
  · exact (MinState.set_inv hs).2

theorem minMerge_confined (hm : minMerge src dst h = some (s', h')) :
    MinState.Confined h dst h' s' := by
  rcases minMerge_cases hm with ⟨rfl, rfl⟩ | ⟨-, _, -, hu⟩
  · exact MinState.Confined.refl _ _
  · exact minUpdate_confined hu

/-- `MinUpdate` grows the buffer at most to the length of its input, when that is not null. -/
theorem minUpdate_bufferLen_le (hu : minUpdate input s h = some (s', h')) (hs : s.bufferLen ≤ m)
    (hin : input.isNull = false → input.len ≤ m) : s'.bufferLen ≤ m := by
  rcases minUpdate_cases hu with ⟨rfl, -⟩ | ⟨hn, hs'⟩
  · exact hs
  · rw [(MinState.set_inv hs').1]; exact max_le hs (hin hn)

/-- `MinMerge` grows the destination's buffer at most to the source's. -/
theorem minMerge_bufferLen_le (hsrc : src.Valid h) (hm : minMerge src dst h = some (s', h'))
    (hd : dst.bufferLen ≤ m) (hs : src.bufferLen ≤ m) : s'.bufferLen ≤ m := by
  rcases minMerge_cases hm with ⟨rfl, -⟩ | ⟨h0, bytes, hr, hu⟩
  · exact hd
  · obtain ⟨b, hb, hlen, hl0, hlb⟩ := hsrc.live h0
    rw [Heap.read_eq hb (by omega), Option.some.injEq] at hr
    subst hr
    refine minUpdate_bufferLen_le hu hd fun _ => ?_
    simp only [StringVal.len_ofBytes, List.length_take]
    omega

end Inversion

end MadlibPort
