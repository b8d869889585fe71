import Mathlib.Data.List.Basic

/-!
# UDA values and the executions of an aggregate

`uda-test.cc` implements user-defined aggregates against Impala's UDF interface: `Count`,
`Min` over strings and `Bits after Xor`. Each has an `Init` that prepares a fresh
intermediate state, an `Update` per input row, a `Merge` of one partial state into another,
and a `Finalize`; the test harness splits the rows over several partial states and merges
them.

* `BigIntVal`, `IntVal` and `StringVal` are the `impala_udf` values the aggregates read and
  return: a null flag beside the payload.
* `MergeTree` is one execution of an aggregate. A leaf is a group of rows run on its own
  fresh state; a node merges the state of its right subtree into the state of its left one.
  Every partition of the rows into groups, merged in any order and any tree shape, is a
  `MergeTree` whose `rows` are a permutation of the input.
* `MergeTree.run_eq_of_hom` is the induction the laws of `Count` and `Xor` go through: if a
  group's state is a function of its rows and merging two such states gives the function
  of the joined rows, the whole tree computes that function of all its rows. `Min` is not
  such an aggregate once an empty string occurs; `MinSpec.lean` does its own induction.
-/

namespace MadlibPort

/-- `BigIntVal`: a nullable `int64_t`, as a 64-bit two's complement word. -/
structure BigIntVal where
  /-- `is_null` -/
  isNull : Bool
  /-- `val` -/
  val : BitVec 64
  deriving DecidableEq, Repr

/-- `IntVal`: a nullable `int`, as a 32-bit two's complement word. -/
structure IntVal where
  /-- `is_null` -/
  isNull : Bool
  /-- `val` -/
  val : BitVec 32
  deriving DecidableEq, Repr

/-- `StringVal`: a nullable byte string. The `ptr`/`len` pair of the UDF interface is
modelled by the `len` bytes that `ptr` points to, so `len` is never negative. -/
structure StringVal where
  /-- `is_null` -/
  isNull : Bool
  /-- the bytes `ptr[0 .. len)` -/
  bytes : List UInt8
  deriving DecidableEq, Repr

namespace StringVal

/-- `StringVal::null()`: null, with no bytes. -/
def null : StringVal := ⟨true, []⟩

/-- A non-null string of the given bytes, as `StringVal(ptr, len)` builds it. -/
def ofBytes (bytes : List UInt8) : StringVal := ⟨false, bytes⟩

/-- `len`, the C `int` field. -/
def len (x : StringVal) : Int := x.bytes.length

@[simp] theorem len_ofBytes (b : List UInt8) : (ofBytes b).len = b.length := rfl

@[simp] theorem ofBytes_isNull (b : List UInt8) : (ofBytes b).isNull = false := rfl

@[simp] theorem ofBytes_bytes (b : List UInt8) : (ofBytes b).bytes = b := rfl

end StringVal

/-- One execution of an aggregate over a list of rows: `group xs` runs the rows `xs` on a
fresh state; `merge l r` serializes the state of `r` and merges it into the state of `l`. -/
inductive MergeTree (α : Type) where
  /-- a group of rows updating one fresh state, in order -/
  | group : List α → MergeTree α
  /-- merge the right subtree's state into the left subtree's state -/
  | merge : MergeTree α → MergeTree α → MergeTree α
  deriving Repr

namespace MergeTree

variable {α σ : Type}

/-- The rows of an execution, group by group from left to right. -/
def rows : MergeTree α → List α
  | group xs => xs
  | merge l r => l.rows ++ r.rows

@[simp] theorem rows_group (xs : List α) : (group xs).rows = xs := rfl

@[simp] theorem rows_merge (l r : MergeTree α) : (merge l r).rows = l.rows ++ r.rows := rfl

/-- Run an aggregate over an execution: `leaf` runs one group on a fresh state and `node`
merges the right state (the source) into the left one (the destination). -/
def run (leaf : List α → σ) (node : σ → σ → σ) : MergeTree α → σ
  | group xs => leaf xs
  | merge l r => node (l.run leaf node) (r.run leaf node)

/-- **Executions of a homomorphic aggregate.** When each group's state is `f` of its rows
and merging `f xs` with `f ys` gives `f (xs ++ ys)`, every execution computes `f` of all
its rows, whatever the grouping and the merge order. -/
theorem run_eq_of_hom {leaf : List α → σ} {node : σ → σ → σ} (f : List α → σ)
    (hleaf : ∀ xs, leaf xs = f xs) (hnode : ∀ xs ys, node (f xs) (f ys) = f (xs ++ ys)) :
    ∀ t : MergeTree α, t.run leaf node = f t.rows
  | group xs => hleaf xs
  | merge l r => by
    rw [run, run_eq_of_hom f hleaf hnode l, run_eq_of_hom f hleaf hnode r, hnode, rows]

end MergeTree

end MadlibPort
