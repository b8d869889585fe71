import MadlibPort.Uda.Values

/-!
# `DistinctEstimate`: the sketch of an aggregate with a compressed intermediate

`uda-test.cc` ends its aggregates with a sketch of a distinct-count estimate over `bigint`
rows, whose intermediate is a 256-byte string. Its comment says it is not the actual
algorithm: the hash, the compression and the population count are comments, and the code
around them is what runs.

* `DistinctEstimatUpdate` stores the `hash` it never computes, `0`, in every byte;
  `DistinctEstimatSerialize` returns `StringVal(NULL, 0)`; `DistinctEstimateMerge` reads
  `src_uncompressed[i]` through a `NULL` pointer; `DistinctEstimateFinalize` returns `0`.
* `distinctEstimateRun` and `distinctEstimateQuery` run it over an execution, as the other
  aggregates are run. With the hash, the compression and the count stubbed out, nothing it
  computes depends on its rows, so no property of it is proved here.
-/

namespace MadlibPort

/-- `p[i]` through a pointer that is `NULL` (`none`) or points to `bytes`: reading through
`NULL` or past the bytes is undefined. -/
def readAt (p : Option (List UInt8)) (i : ℕ) : Option UInt8 := p.bind (·[i]?)

/-- `DistinctEstimateInit`: asserts that the intermediate has 256 bytes, then clears them.
A failed `assert` aborts. -/
def distinctEstimateInit (val : StringVal) : Option StringVal :=
  if val.len = 256 then some { val with bytes := List.replicate 256 0 } else none

/-- One pass of the loop of `DistinctEstimatUpdate`: `val->ptr[i] = hash`, with `hash`
still `0`, since `Hash(*input, i)` is a comment. A write past the buffer is undefined. -/
def distinctEstimatStore (val : StringVal) (i : ℕ) : Option StringVal :=
  if i < val.bytes.length then some { val with bytes := val.bytes.set i 0 } else none

/-- `DistinctEstimatUpdate`: a `NULL` input changes nothing; otherwise the loop stores into
bytes `0` to `255`. -/
def distinctEstimatUpdate (input : Option (BitVec 64)) (val : StringVal) : Option StringVal :=
  match input with
  | none => some val
  | some _ => (List.range 256).foldlM distinctEstimatStore val

/-- `DistinctEstimatSerialize`: `SnappyCompress` is a comment, so the result is
`StringVal(NULL, 0)`, a non-null string of no bytes. -/
def distinctEstimatSerialize (_intermediate : StringVal) : StringVal := StringVal.ofBytes []

/-- `DistinctEstimateMerge`: `SnappyUncompress` is a comment, so `src_uncompressed` is `NULL`,
and the loop xors `src_uncompressed[i]` into `dst->ptr[i]`. -/
def distinctEstimateMerge (_src dst : StringVal) : Option StringVal :=
  let srcUncompressed : Option (List UInt8) := none
  (List.range 256).foldlM (fun d i => do
    let x ← readAt srcUncompressed i
    let y ← d.bytes[i]?
    pure { d with bytes := d.bytes.set i (y ^^^ x) }) dst

/-- `DistinctEstimateFinalize`: `popcnt` is a comment, so `set_bits` stays `0`. -/
def distinctEstimateFinalize (_val : StringVal) : BigIntVal := ⟨false, 0⟩

/-- One group on a fresh intermediate: `DistinctEstimateInit` on the harness's `scratch`,
then `DistinctEstimatUpdate` over the rows in order. -/
def distinctEstimateGroup (scratch : StringVal) (xs : List (Option (BitVec 64))) :
    Option StringVal := do
  let v ← distinctEstimateInit scratch
  xs.foldlM (fun v x => distinctEstimatUpdate x v) v

/-- An execution: each group on its own intermediate, and each merge node merging the
serialized right state into the left one. -/
def distinctEstimateRun (scratch : StringVal) (t : MergeTree (Option (BitVec 64))) :
    Option StringVal :=
  t.run (distinctEstimateGroup scratch) fun dst src => do
    let d ← dst
    let s ← src
    distinctEstimateMerge (distinctEstimatSerialize s) d

/-- An execution, then `DistinctEstimateFinalize`. -/
def distinctEstimateQuery (scratch : StringVal) (t : MergeTree (Option (BitVec 64))) :
    Option BigIntVal :=
  (distinctEstimateRun scratch t).map distinctEstimateFinalize

end MadlibPort
