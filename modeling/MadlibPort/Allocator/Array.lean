import Mathlib
import MadlibPort.Allocator.Block

/-!
# `internalAllocateArray`: the array block

`Allocator::internalAllocateArray<T, Dimensions>` computes the element count and the byte
size in `size_t`, passes the size to `allocate`, fills in the `ArrayType` struct at the
start of the block, and writes each dimension size into `ARR_DIMS(array)` as an `int`. The
overloads `allocateArray(inDim0, …)` that `MADLIB_ALLOCATE_ARRAY_DEF` generates forward
their sizes to it, in argument order.

`ArrayType`, `ARR_DIMS` and `ARR_OVERHEAD_NONULLS` are not in the repository's files. The
block follows the persisted layout "[fixed header][D × dimension-size fields][payload]":
the `ArrayType` struct, then `ARR_DIMS`, one 4-byte `int` per dimension as in PostgreSQL,
and `ARR_OVERHEAD_NONULLS(D)` covers both (`ArrayLayout`).

* `Built`: what a returned block records, for every call (`built_of_internalAllocateArray`);
  the call returns whenever the block has room for the struct and the dimension table.
* `internalAllocateArray_size_of_lt`: when `sizeof(T) * N + ARR_OVERHEAD_NONULLS(D)` fits in
  a `size_t`, that is the size passed to `allocate`;
  `internalAllocateArray_wraps`: for `double` and `d_0 = 2^61` it wraps to the overhead.
* `allocateArray_header`: without wrap, `ndims = D`, `len = N`, and `ARR_DIMS[i]` is
  `static_cast<int>(d_i)`, the low 32 bits of `d_i`.
* `writeElement_zero_overwrites_dims`: `array->ptr = &array[1]` is where `ARR_DIMS`
  starts, so payload element 0 of an `int` array is `ARR_DIMS[0]`.
* `writeElement_spec`: every payload element below `N` lies inside the block, and one at or
  past the end of the dimension table leaves the table unchanged.
-/

namespace MadlibPort

/-- The constants of `ArrayType` and its macros, which the repository's files use but do not
define: `header` is `sizeof(ArrayType)`, after which `ARR_DIMS` holds one 4-byte `int` per
dimension, and `overhead D` is `ARR_OVERHEAD_NONULLS(D)`, which covers the struct and the
dimension table. -/
structure ArrayLayout where
  /-- `sizeof(ArrayType)` -/
  header : ℕ
  /-- `ARR_OVERHEAD_NONULLS(D)` -/
  overhead : ℕ → ℕ
  dims_le : ∀ D, header + 4 * D ≤ overhead D

/-- One layout the spec allows, to run the model on: a 24-byte struct (`size_t len`,
`int ndims`, `void *ptr` on LP64) and PostgreSQL's overhead, the struct and two `int`s per
dimension. -/
def lp64Layout : ArrayLayout := ⟨24, fun D => 24 + 8 * D, fun D => by show 24 + 4 * D ≤ 24 + 8 * D; omega⟩

/-- A block as `internalAllocateArray` leaves it: the fields of the `ArrayType` struct at
its start, and the bytes after the struct, where `ARR_DIMS` and the payload are. -/
structure ArrayBlock where
  /-- the byte count passed to `allocate` -/
  size : SizeT
  /-- `array->len` -/
  len : SizeT
  /-- `array->ndims` -/
  ndims : ℕ
  /-- `array->ptr`, as an offset from the start of the block -/
  ptr : ℕ
  /-- the bytes of the block after the struct -/
  rest : List UInt8
  deriving DecidableEq, Repr

variable (L : ArrayLayout)

/-- The running product `numElements`: `Dimensions ? 1 : 0`, times each dimension size, in
`size_t`. -/
def numElements (inNumElements : List SizeT) : SizeT :=
  inNumElements.foldl (· * ·) (if inNumElements.length = 0 then 0 else 1)

/-- `size = sizeof(T) * numElements + ARR_OVERHEAD_NONULLS(Dimensions)`, in `size_t`. -/
def arraySize (sizeofT : ℕ) (inNumElements : List SizeT) : SizeT :=
  BitVec.ofNat 64 sizeofT * numElements inNumElements +
    BitVec.ofNat 64 (L.overhead inNumElements.length)

/-- The loop `ARR_DIMS(array)[i] = static_cast<int>(inNumElements[i])` from index `i` on,
over the bytes after the struct: each size's low 32 bits, as a 4-byte `int`. -/
def writeDims (rest : List UInt8) (i : ℕ) : List SizeT → Option (List UInt8)
  | [] => some rest
  | d :: ds => (store rest (4 * i) (leBytes 4 d.toNat)).bind fun rest => writeDims rest (i + 1) ds

/-- `Allocator::internalAllocateArray<T, Dimensions>`, with `sizeof(T) = sizeofT` and
`Dimensions = inNumElements.length`. Filling in the struct of a block shorter than the
struct is undefined. -/
def internalAllocateArray (sizeofT : ℕ) (inNumElements : List SizeT) : Option ArrayBlock :=
  let size := arraySize L sizeofT inNumElements
  let array := allocate size
  if array.length < L.header then none
  else (writeDims (array.drop L.header) 0 inNumElements).map fun rest =>
    { size, len := numElements inNumElements, ndims := inNumElements.length, ptr := L.header,
      rest }

/-- `Allocator::allocateArray(inDim0, …, inDimN)`, both overloads that
`MADLIB_ALLOCATE_ARRAY_DEF` generates for `Dimensions = n + 1`: the sizes, in argument order,
go to `internalAllocateArray`. The policies the overloads pass are not read. -/
def allocateArray (sizeofT : ℕ) {n : ℕ} (inDim : Fin (n + 1) → SizeT) : Option ArrayBlock :=
  internalAllocateArray L sizeofT (List.ofFn inDim)

/-- `ARR_DIMS(array)[i]`, read as an `int`: 4 bytes at `4 * i` after the struct. -/
def arrDims (a : ArrayBlock) (i : ℕ) : Option (BitVec 32) :=
  (load a.rest (4 * i) 4).map fun bs => BitVec.ofNat 32 (ofLE bs)

/-- A write of payload element `k` through `array->ptr`: the bytes `v` at
`ptr + sizeof(T) * k`. -/
def writeElement (a : ArrayBlock) (sizeofT k : ℕ) (v : List UInt8) : Option ArrayBlock :=
  (store a.rest (a.ptr - L.header + sizeofT * k) v).map fun rest => { a with rest }

/-! ## `size_t` arithmetic -/

theorem foldl_mul_toNat (ds : List SizeT) (acc : SizeT) :
    (ds.foldl (· * ·) acc).toNat = acc.toNat * (ds.map BitVec.toNat).prod % 2 ^ 64 := by
  induction ds generalizing acc with
  | nil => simp [Nat.mod_eq_of_lt acc.isLt]
  | cons d ds ih => rw [List.foldl_cons, ih, BitVec.toNat_mul, Nat.mod_mul_mod, List.map_cons,
      List.prod_cons, Nat.mul_assoc]

/-- `numElements` is the product of the sizes, modulo `2^64`. -/
theorem numElements_toNat {ds : List SizeT} (hD : ds ≠ []) :
    (numElements ds).toNat = (ds.map BitVec.toNat).prod % 2 ^ 64 := by
  rw [numElements, if_neg (by simpa using hD), foldl_mul_toNat]
  simp

/-- Without wrap, `size` is `sizeof(T) * N + ARR_OVERHEAD_NONULLS(D)`. -/
theorem arraySize_toNat_of_lt {sizeofT : ℕ} {ds : List SizeT} (hD : ds ≠ [])
    (hfit : sizeofT * (ds.map BitVec.toNat).prod + L.overhead ds.length < 2 ^ 64) :
    (arraySize L sizeofT ds).toNat = sizeofT * (ds.map BitVec.toNat).prod + L.overhead ds.length := by
  have h₁ : sizeofT * (ds.map BitVec.toNat).prod < 2 ^ 64 := by omega
  have h₂ : L.overhead ds.length < 2 ^ 64 := by omega
  rw [arraySize, BitVec.toNat_add, BitVec.toNat_mul, BitVec.toNat_ofNat, BitVec.toNat_ofNat,
    numElements_toNat hD, ← Nat.mul_mod, Nat.mod_eq_of_lt h₁, Nat.mod_eq_of_lt h₂,
    Nat.mod_eq_of_lt hfit]

/-- Without wrap and with elements of at least one byte, `numElements` is the product. -/
theorem numElements_toNat_of_lt {sizeofT : ℕ} {ds : List SizeT} (hD : ds ≠ []) (hT : 0 < sizeofT)
    (hfit : sizeofT * (ds.map BitVec.toNat).prod + L.overhead ds.length < 2 ^ 64) :
    (numElements ds).toNat = (ds.map BitVec.toNat).prod := by
  rw [numElements_toNat hD, Nat.mod_eq_of_lt]
  exact lt_of_le_of_lt (Nat.le_mul_of_pos_left _ hT) (by omega)

/-! ## The dimension table -/

theorem le_length_of_load {m l : List UInt8} {off n : ℕ} (h : load m off n = some l) :
    off + n ≤ m.length := by
  unfold load at h
  split at h
  · assumption
  · cases h

/-- A stored `int` is read back as the low 32 bits of what was stored. -/
theorem ofNat_ofLE_leBytes (x : ℕ) : BitVec.ofNat 32 (ofLE (leBytes 4 x)) = BitVec.ofNat 32 x :=
  BitVec.eq_of_toNat_eq (by simp [ofLE_leBytes])

/-- What the loop leaves: the same number of bytes, nothing changed below index `i`, and each
size at its place in the table. -/
theorem writeDims_spec {rest rest' : List UInt8} {i : ℕ} {ds : List SizeT}
    (h : writeDims rest i ds = some rest') :
    rest'.length = rest.length ∧
      (∀ off n, off + n ≤ 4 * i → load rest' off n = load rest off n) ∧
      ∀ j d, ds[j]? = some d → load rest' (4 * (i + j)) 4 = some (leBytes 4 d.toNat) := by
  induction ds generalizing rest i with
  | nil => cases h; exact ⟨rfl, fun _ _ _ => rfl, fun _ _ hj => by cases hj⟩
  | cons d ds ih =>
    obtain ⟨r₁, hs, hw⟩ := Option.bind_eq_some.mp h
    obtain ⟨hlen, hframe, hdims⟩ := ih hw
    refine ⟨hlen.trans (length_of_store hs), fun off n hn => ?_, fun j d' hj => ?_⟩
    · rw [hframe off n (by omega), load_store_of_disjoint hs (.inl hn)]
    · cases j with
      | zero =>
        rw [List.getElem?_cons_zero, Option.some.injEq] at hj
        subst hj
        rw [Nat.add_zero, hframe _ _ (by omega), ← load_store_self hs, length_leBytes]
      | succ j =>
        rw [List.getElem?_cons_succ] at hj
        rw [show 4 * (i + (j + 1)) = 4 * (i + 1 + j) by omega]
        exact hdims j d' hj

theorem writeDims_isSome {rest : List UInt8} {i : ℕ} {ds : List SizeT}
    (h : 4 * (i + ds.length) ≤ rest.length) : ∃ rest', writeDims rest i ds = some rest' := by
  induction ds generalizing rest i with
  | nil => exact ⟨rest, rfl⟩
  | cons d ds ih =>
    obtain ⟨r₁, hs⟩ := store_isSome rest (4 * i) (leBytes 4 d.toNat) (by simp at h ⊢; omega)
    obtain ⟨rest', hw⟩ := ih (show 4 * (i + 1 + ds.length) ≤ r₁.length by
      rw [length_of_store hs]; simp at h; omega)
    exact ⟨rest', by simp [writeDims, hs, hw]⟩

/-! ## What a returned block records -/

/-- What `internalAllocateArray` records in a block it returns. -/
structure Built (sizeofT : ℕ) (ds : List SizeT) (a : ArrayBlock) : Prop where
  size : a.size = arraySize L sizeofT ds
  len : a.len = numElements ds
  ndims : a.ndims = ds.length
  ptr : a.ptr = L.header
  rest_length : a.rest.length = (arraySize L sizeofT ds).toNat - L.header
  dims : ∀ i d, ds[i]? = some d → arrDims a i = some (d.setWidth 32)

variable {L}

/-- Every block `internalAllocateArray` returns is `Built`. -/
theorem built_of_internalAllocateArray {sizeofT : ℕ} {ds : List SizeT} {a : ArrayBlock}
    (h : internalAllocateArray L sizeofT ds = some a) : Built L sizeofT ds a := by
  dsimp only [internalAllocateArray] at h
  split at h
  · cases h
  obtain ⟨rest, hw, rfl⟩ := Option.map_eq_some'.mp h
  obtain ⟨hlen, -, hdims⟩ := writeDims_spec hw
  refine ⟨rfl, rfl, rfl, rfl, by simp [hlen], fun i d hd => ?_⟩
  have hi := hdims i d hd
  rw [Nat.zero_add] at hi
  rw [arrDims]; dsimp only
  rw [hi, Option.map_some', ofNat_ofLE_leBytes, BitVec.ofNat_toNat]

/-- `internalAllocateArray` returns whenever the block holds the struct and the table. -/
theorem internalAllocateArray_isSome {sizeofT : ℕ} {ds : List SizeT}
    (hroom : L.header + 4 * ds.length ≤ (arraySize L sizeofT ds).toNat) :
    ∃ a, internalAllocateArray L sizeofT ds = some a := by
  obtain ⟨rest, hw⟩ := writeDims_isSome
    (show 4 * (0 + ds.length) ≤ ((allocate (arraySize L sizeofT ds)).drop L.header).length by
      simp; omega)
  exact ⟨_, by rw [internalAllocateArray, if_neg (by simp; omega), hw]; rfl⟩

/-- Without wrap the block is returned, and is `Built`. -/
theorem internalAllocateArray_of_lt {sizeofT : ℕ} {ds : List SizeT} (hD : ds ≠ [])
    (hfit : sizeofT * (ds.map BitVec.toNat).prod + L.overhead ds.length < 2 ^ 64) :
    ∃ a, internalAllocateArray L sizeofT ds = some a ∧ Built L sizeofT ds a := by
  have hroom := L.dims_le ds.length
  obtain ⟨a, ha⟩ := internalAllocateArray_isSome
    (show L.header + 4 * ds.length ≤ (arraySize L sizeofT ds).toNat by
      rw [arraySize_toNat_of_lt L hD hfit]; omega)
  exact ⟨a, ha, built_of_internalAllocateArray ha⟩

/-! ## The size passed to `allocate` -/

/-- **The size without wrap.** When `sizeof(T) * N + ARR_OVERHEAD_NONULLS(D)` fits in a
`size_t`, exactly that many bytes are passed to `allocate`, and the block has them all. -/
theorem internalAllocateArray_size_of_lt (sizeofT : ℕ) (ds : List SizeT) (hD : ds ≠ [])
    (hfit : sizeofT * (ds.map BitVec.toNat).prod + L.overhead ds.length < 2 ^ 64) :
    ∃ a, internalAllocateArray L sizeofT ds = some a ∧
      a.size.toNat = sizeofT * (ds.map BitVec.toNat).prod + L.overhead ds.length ∧
      L.header + a.rest.length = a.size.toNat := by
  obtain ⟨a, ha, hb⟩ := internalAllocateArray_of_lt hD hfit
  have hroom := L.dims_le ds.length
  have hs := arraySize_toNat_of_lt L hD hfit
  refine ⟨a, ha, by rw [hb.size, hs], ?_⟩
  rw [hb.rest_length, hb.size, hs]; omega

theorem internalAllocateArray_size_of_lt_two_by_three :
    [(2 : SizeT), 3] ≠ [] ∧
      8 * ([(2 : SizeT), 3].map BitVec.toNat).prod + lp64Layout.overhead 2 < 2 ^ 64 ∧
      ∃ a, internalAllocateArray lp64Layout 8 [2, 3] = some a ∧
        a.size.toNat = 8 * ([(2 : SizeT), 3].map BitVec.toNat).prod + lp64Layout.overhead 2 ∧
        lp64Layout.header + a.rest.length = a.size.toNat :=
  ⟨by decide, by decide, internalAllocateArray_size_of_lt 8 [2, 3] (by decide) (by decide)⟩

/-- **`double` with `d_0 = 2^61`.** `sizeof(double) * 2^61 = 2^64` wraps to zero, so the size
passed to `allocate` is `ARR_OVERHEAD_NONULLS(1)` alone, while `len` records `2^61`
elements. Nothing rejects the request first. -/
theorem internalAllocateArray_wraps (L : ArrayLayout) (hov : L.overhead 1 < 2 ^ 64) :
    ∃ a, internalAllocateArray L 8 [BitVec.ofNat 64 (2 ^ 61)] = some a ∧
      a.size.toNat = L.overhead 1 ∧ a.len.toNat = 2 ^ 61 := by
  have hs : (arraySize L 8 [BitVec.ofNat 64 (2 ^ 61)]).toNat = L.overhead 1 := by
    rw [arraySize, BitVec.toNat_add,
      show (BitVec.ofNat 64 8 * numElements [BitVec.ofNat 64 (2 ^ 61)]).toNat = 0 by decide,
      BitVec.toNat_ofNat, Nat.zero_add, Nat.mod_mod, List.length_singleton, Nat.mod_eq_of_lt hov]
  have hroom := L.dims_le 1
  obtain ⟨a, ha⟩ := internalAllocateArray_isSome
    (show L.header + 4 * [BitVec.ofNat 64 (2 ^ 61)].length ≤
      (arraySize L 8 [BitVec.ofNat 64 (2 ^ 61)]).toNat by rw [hs]; exact hroom)
  have hb := built_of_internalAllocateArray ha
  exact ⟨a, ha, by rw [hb.size, hs], by rw [hb.len]; decide⟩

theorem internalAllocateArray_wraps_lp64 :
    lp64Layout.overhead 1 < 2 ^ 64 ∧
      ∃ a, internalAllocateArray lp64Layout 8 [BitVec.ofNat 64 (2 ^ 61)] = some a ∧
        a.size.toNat = lp64Layout.overhead 1 ∧ a.len.toNat = 2 ^ 61 :=
  ⟨by decide, internalAllocateArray_wraps lp64Layout (by decide)⟩

/-! ## The header -/

theorem getElem?_ofFn_fin {n : ℕ} (f : Fin n → SizeT) (i : Fin n) : (List.ofFn f)[(i : ℕ)]? = some (f i) := by
  simp [List.getElem?_ofFn, List.ofFnNthVal, i.isLt]

/-- **The header of an array.** For every `D` and every tuple of sizes whose byte size
`sizeof(T) * N + ARR_OVERHEAD_NONULLS(D)` fits in a `size_t`, `allocateArray` returns a block
recording `ndims = D`, `len = N` and, for each `i < D` in argument order,
`ARR_DIMS[i] = static_cast<int>(d_i)`: the low 32 bits of `d_i`, which is `d_i` only below
`2^31`. -/
theorem allocateArray_header (sizeofT : ℕ) {n : ℕ} (inDim : Fin (n + 1) → SizeT)
    (hT : 0 < sizeofT)
    (hfit : sizeofT * (List.ofFn fun i => (inDim i).toNat).prod + L.overhead (n + 1) < 2 ^ 64) :
    ∃ a, allocateArray L sizeofT inDim = some a ∧ a.ndims = n + 1 ∧
      a.len.toNat = (List.ofFn fun i => (inDim i).toNat).prod ∧
      ∀ i : Fin (n + 1), arrDims a i = some ((inDim i).setWidth 32) := by
  have hD : List.ofFn inDim ≠ [] := by simp
  have hmap : (List.ofFn inDim).map BitVec.toNat = List.ofFn fun i => (inDim i).toNat :=
    List.map_ofFn _ _
  have hfit' : sizeofT * ((List.ofFn inDim).map BitVec.toNat).prod +
      L.overhead (List.ofFn inDim).length < 2 ^ 64 := by rwa [hmap, List.length_ofFn]
  obtain ⟨a, ha, hb⟩ := internalAllocateArray_of_lt hD hfit'
  refine ⟨a, ha, by rw [hb.ndims, List.length_ofFn], ?_, fun i => hb.dims i _ (getElem?_ofFn_fin _ i)⟩
  rw [hb.len, numElements_toNat_of_lt L hD hT hfit', hmap]

/-- `static_cast<int>(d)` is `d` itself below `2^31`. -/
theorem toInt_setWidth_of_lt {d : SizeT} (hd : d.toNat < 2 ^ 31) :
    (d.setWidth 32).toInt = d.toNat := by
  rw [BitVec.toInt_eq_toNat_cond, BitVec.toNat_setWidth, Nat.mod_eq_of_lt (by omega), if_pos (by omega)]

theorem allocateArray_header_two_by_three :
    0 < 8 ∧ 8 * (List.ofFn fun i => (![(2 : SizeT), 3] i).toNat).prod + lp64Layout.overhead 2 < 2 ^ 64 ∧
      ∃ a, allocateArray lp64Layout 8 ![(2 : SizeT), 3] = some a ∧ a.ndims = 2 ∧
        a.len.toNat = (List.ofFn fun i => (![(2 : SizeT), 3] i).toNat).prod ∧
        ∀ i : Fin 2, arrDims a i = some ((![(2 : SizeT), 3] i).setWidth 32) :=
  ⟨by decide, by decide, allocateArray_header 8 ![2, 3] (by decide) (by decide)⟩

/-- A dimension of `2^31` is recorded as `-2^31`: `static_cast<int>` keeps the low 32 bits,
read as a signed `int`. -/
theorem allocateArray_truncates_dims :
    ∃ a, allocateArray lp64Layout 1 (fun _ : Fin 1 => BitVec.ofNat 64 (2 ^ 31)) = some a ∧
      (arrDims a 0).map BitVec.toInt = some (-2 ^ 31) := by
  obtain ⟨a, ha⟩ := internalAllocateArray_isSome
    (show lp64Layout.header + 4 * (List.ofFn fun _ : Fin 1 => BitVec.ofNat 64 (2 ^ 31)).length ≤
      (arraySize lp64Layout 1 (List.ofFn fun _ : Fin 1 => BitVec.ofNat 64 (2 ^ 31))).toNat by
      decide)
  refine ⟨a, ha, ?_⟩
  rw [(built_of_internalAllocateArray ha).dims 0 _ (getElem?_ofFn_fin _ 0)]
  decide

/-! ## The payload -/

/-- **The payload starts at `ARR_DIMS`.** `array->ptr = &array[1]` is `sizeof(ArrayType)`
into the block, before `ARR_OVERHEAD_NONULLS(D)`, and that is where `ARR_DIMS` starts. For
every layout and every `int` array, writing payload element 0 makes `ARR_DIMS[0]` read the
value written. -/
theorem writeElement_zero_overwrites_dims (ds : List SizeT) (a : ArrayBlock) (x : BitVec 32)
    (ha : internalAllocateArray L 4 ds = some a) (hD : ds ≠ []) :
    a.ptr = L.header ∧ a.ptr < L.overhead ds.length ∧
      ∃ a', writeElement L a 4 0 (leBytes 4 x.toNat) = some a' ∧ arrDims a' 0 = some x := by
  have hb := built_of_internalAllocateArray ha
  obtain ⟨d, ds', rfl⟩ := List.exists_cons_of_ne_nil hD
  have h4 : 4 ≤ a.rest.length := by
    have hd := hb.dims 0 d (List.getElem?_cons_zero)
    unfold arrDims at hd
    obtain ⟨l, hl, -⟩ := Option.map_eq_some'.mp hd
    simpa using le_length_of_load hl
  obtain ⟨r, hs⟩ := store_isSome a.rest 0 (leBytes 4 x.toNat) (by simpa using h4)
  refine ⟨hb.ptr, by rw [hb.ptr]; have := L.dims_le (ds'.length + 1); simp at this ⊢; omega,
    { a with rest := r }, by simp [writeElement, hb.ptr, hs], ?_⟩
  have hl := load_store_self hs
  rw [length_leBytes] at hl
  rw [arrDims, Nat.mul_zero, hl, Option.map_some', ofNat_ofLE_leBytes, BitVec.ofNat_toNat,
    BitVec.setWidth_eq]

theorem writeElement_zero_overwrites_dims_three :
    internalAllocateArray lp64Layout 4 [3] = some ⟨44, 3, 1, 24, leBytes 4 3 ++ List.replicate 16 0⟩ ∧
      arrDims ⟨44, 3, 1, 24, leBytes 4 3 ++ List.replicate 16 0⟩ 0 = some 3 ∧
      [(3 : SizeT)] ≠ [] ∧
      (24 = lp64Layout.header ∧ 24 < lp64Layout.overhead 1 ∧
        ∃ a', writeElement lp64Layout ⟨44, 3, 1, 24, leBytes 4 3 ++ List.replicate 16 0⟩ 4 0
          (leBytes 4 (7 : BitVec 32).toNat) = some a' ∧ arrDims a' 0 = some 7) :=
  by refine ⟨?h, rfl, by decide, writeElement_zero_overwrites_dims [3] _ 7 ?h (by decide)⟩; rfl

/-- **Payload writes.** Without wrap, every payload element `k < N` lies inside the block, a
write to it changes neither `len` nor `ndims`, and one at or past the end of the dimension
table (`4 * D ≤ sizeof(T) * k`) leaves every `ARR_DIMS[i]` as it was. -/
theorem writeElement_spec (sizeofT : ℕ) (ds : List SizeT) (a : ArrayBlock) (k : ℕ) (v : List UInt8)
    (ha : internalAllocateArray L sizeofT ds = some a) (hD : ds ≠ [])
    (hfit : sizeofT * (ds.map BitVec.toNat).prod + L.overhead ds.length < 2 ^ 64)
    (hk : k < (ds.map BitVec.toNat).prod) (hv : v.length = sizeofT) :
    ∃ a', writeElement L a sizeofT k v = some a' ∧ a'.len = a.len ∧ a'.ndims = a.ndims ∧
      (4 * ds.length ≤ sizeofT * k → ∀ i < ds.length, arrDims a' i = arrDims a i) := by
  have hb := built_of_internalAllocateArray ha
  have hroom := L.dims_le ds.length
  have hkE : sizeofT * k + sizeofT ≤ sizeofT * (ds.map BitVec.toNat).prod := by
    rw [← Nat.mul_succ]; exact Nat.mul_le_mul_left _ hk
  obtain ⟨r, hs⟩ := store_isSome a.rest (sizeofT * k) v
    (by rw [hb.rest_length, arraySize_toNat_of_lt L hD hfit, hv]; omega)
  refine ⟨{ a with rest := r }, by simp [writeElement, hb.ptr, hs], rfl, rfl, fun hle i hi => ?_⟩
  simp only [arrDims]
  rw [load_store_of_disjoint hs (.inl (by omega))]

theorem writeElement_spec_second :
    internalAllocateArray lp64Layout 8 [2] = some ⟨48, 2, 1, 24, leBytes 4 2 ++ List.replicate 20 0⟩ ∧
      [(2 : SizeT)] ≠ [] ∧
      8 * ([(2 : SizeT)].map BitVec.toNat).prod + lp64Layout.overhead 1 < 2 ^ 64 ∧
      1 < ([(2 : SizeT)].map BitVec.toNat).prod ∧ (leBytes 8 5).length = 8 ∧
      ∃ a', writeElement lp64Layout ⟨48, 2, 1, 24, leBytes 4 2 ++ List.replicate 20 0⟩ 8 1
          (leBytes 8 5) = some a' ∧
        a'.len = 2 ∧ a'.ndims = 1 ∧
        (4 * [(2 : SizeT)].length ≤ 8 * 1 → ∀ i < [(2 : SizeT)].length,
          arrDims a' i = arrDims ⟨48, 2, 1, 24, leBytes 4 2 ++ List.replicate 20 0⟩ i) :=
  by
    refine ⟨?h, by decide, by decide, by decide, rfl,
      writeElement_spec 8 [2] _ 1 (leBytes 8 5) ?h (by decide) (by decide) (by decide) rfl⟩
    rfl

end MadlibPort
