import OxideLake.Core.Error

/-!
# Operator parameters

The bounded v1 grammar of operator parameters (`params.rs`): comparisons of one
column with one literal, conjoined with `AND`; grouped aggregates over one key;
distance metrics.  The planner lowers plans into these types, the operators and
every backend execute them.
-/

namespace OxideLake

/-- The execution backends. -/
inductive BackendKind where
  | cpuSimd
  | cuda
  | metal
  deriving DecidableEq, Repr

namespace BackendKind

/-- The canonical lowercase name. -/
def asStr : BackendKind → String
  | .cpuSimd => "cpu"
  | .cuda => "cuda"
  | .metal => "metal"

/-- `true` for backends that execute on a device. -/
def isGpu : BackendKind → Bool
  | .cpuSimd => false
  | _ => true

end BackendKind

/-- Comparison operators of the fused filter kernel. -/
inductive Comparison where
  | eq
  | lt
  | ltEq
  | gt
  | gtEq
  deriving DecidableEq, Repr

/-- A literal a column is compared against. -/
inductive Literal where
  | int64 (value : Int64)
  | float64 (value : F64)
  deriving DecidableEq

/-- The Arrow type a literal compares against. -/
def Literal.dataType : Literal → DataType
  | .int64 _ => .int64
  | .float64 _ => .float64

/-- A filter predicate: column-versus-literal comparisons combined with `AND`. -/
inductive Predicate where
  | compare (column : Nat) (op : Comparison) (literal : Literal)
  | and (left right : Predicate)
  deriving DecidableEq

namespace Predicate

/-- Every column index referenced, in evaluation order, duplicates kept. -/
def columns : Predicate → List Nat
  | .compare column _ _ => [column]
  | .and left right => left.columns ++ right.columns

/-- Number of comparison leaves. -/
def leafCount : Predicate → Nat
  | .compare _ _ _ => 1
  | .and left right => left.leafCount + right.leafCount

end Predicate

/-- Aggregate functions of the grouped-aggregation kernel. -/
inductive AggregateFunction where
  | sum
  | count
  | min
  | max
  deriving DecidableEq, Repr

/-- SQL spelling, used in output column names. -/
def AggregateFunction.name : AggregateFunction → String
  | .sum => "SUM"
  | .count => "COUNT"
  | .min => "MIN"
  | .max => "MAX"

/-- A grouped aggregation over one `Int64` key: the key column and the
`(function, input column)` pairs in output order. -/
structure AggregateSpec where
  groupBy : Nat
  aggregates : List (AggregateFunction × Nat)
  deriving DecidableEq

/-- Distance metric of the vector kernel. -/
inductive DistanceMetric where
  | l2
  | cosine
  deriving DecidableEq, Repr

end OxideLake
