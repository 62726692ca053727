import OxideLake.Planner.PhysicalExpr

/-!
# Physical plans

The physical plan trees the placement rule rewrites: DataFusion's nodes as far as
the rule reads them, the four `Gpu*Exec` nodes of `exec/`, and foreign nodes with
any number of inputs.

A `Gpu*Exec` is made by its constructor (`try_new`, then `with_projection` or
`with_output_schema`), which checks the parameters against the schema of its
inputs and fixes the output schema.  `with_new_children` runs the constructor
again.  DataFusion's own nodes keep their parameters when their inputs are
replaced by inputs of the same schema.

Output partitioning is kept as a number of partitions: that is what the rule and
the partition-wise joins look at.  How many partitions a DataFusion join or a
foreign node has is DataFusion's business and stays a function of the counts of
the inputs.
-/

namespace OxideLake

/-! ## DataFusion's nodes -/

/-- `SortOptions`: the direction of one sort column. -/
structure SortOptions where
  descending : Bool
  nullsFirst : Bool
  deriving DecidableEq, Repr

inductive JoinType where
  | inner
  | left
  | right
  | full
  | leftSemi
  | rightSemi
  | leftAnti
  | rightAnti
  | leftMark
  | rightMark
  deriving DecidableEq, Repr

/-- `NullEquality`: whether `NULL` join keys match each other. -/
inductive NullEquality where
  | nullEqualsNothing
  | nullEqualsNull
  deriving DecidableEq, Repr

/-- `PartitionMode` of a hash join. -/
inductive PartitionMode where
  | partitioned
  | collectLeft
  | auto
  deriving DecidableEq, Repr

inductive AggregateMode where
  | partialMode
  | final
  | finalPartitioned
  | single
  | singlePartitioned
  | partialReduce
  deriving DecidableEq, Repr

/-- `FilterExec`: the predicate, a projection pushed into the filter, and a row
limit pushed into it. -/
structure FilterExec where
  predicate : PhysicalExpr
  projection : Option (List Nat)
  fetch : Option Nat

/-- One expression of a `ProjectionExec` and the name it gets. -/
structure ProjectionExpr where
  expr : PhysicalExpr
  aliasName : String

structure ProjectionExec where
  expr : List ProjectionExpr
  schema : Schema

/-- The join keys, residual filter, type and `NULL` rule of a join, left side
first. -/
structure JoinOn where
  on : List (PhysicalExpr × PhysicalExpr)
  filter : Option PhysicalExpr
  joinType : JoinType
  nullEquality : NullEquality

/-- `HashJoinExec`: builds on its left input, probes with its right. -/
structure HashJoinExec extends JoinOn where
  mode : PartitionMode
  projection : Option (List Nat)
  schema : Schema
  partitions : Nat → Nat → Nat

structure SortMergeJoinExec extends JoinOn where
  sortOptions : List SortOptions
  schema : Schema
  partitions : Nat → Nat → Nat

/-- `PhysicalGroupBy`: the grouping expressions, the `NULL` expressions of
grouping sets, and whether there is a single grouping set. -/
structure PhysicalGroupBy where
  expr : List (PhysicalExpr × String)
  nullExpr : List (PhysicalExpr × String)
  isSingle : Bool

/-- One aggregate call: function name, `DISTINCT`, arguments. -/
structure AggregateFunctionExpr where
  funName : String
  isDistinct : Bool
  expressions : List PhysicalExpr

structure AggregateExec where
  mode : AggregateMode
  groupExpr : PhysicalGroupBy
  aggrExpr : List AggregateFunctionExpr
  filterExpr : List (Option PhysicalExpr)
  schema : Schema

structure SortExec where
  expr : List (PhysicalExpr × SortOptions)
  fetch : Option Nat
  preservePartitioning : Bool

/-- Any other node: its schema, and its partition count from those of its inputs. -/
structure ForeignExec where
  name : String
  schema : Schema
  partitions : List Nat → Nat

/-! ## Shared checks of the `Gpu*Exec` constructors -/

/-- Most comparison leaves a predicate may carry. -/
def maxPredicateLeaves : Nat := 64

/-- `field_type`: the type of a column by index. -/
def fieldType (schema : Schema) (index : Nat) (what : String) :
    DFResult DataType :=
  match schema.fields[index]? with
  | some field => .ok field.dataType
  | none => .error (.plan (what ++ ": column index " ++ toString index ++ " out of range for " ++
      schema.display))

def validatePredicateLeaves (schema : Schema) : Predicate → DFResult Unit
  | .compare column _ lit => do
      let dt ← fieldType schema column "GpuFilterExec predicate"
      if dt = lit.dataType then .ok ()
      else .error (.plan ("GpuFilterExec predicate: column " ++ toString column ++ " has type " ++
        dt.debug ++ " but the literal is " ++ lit.dataType.debug))
  | .and left right => do
      validatePredicateLeaves schema left
      validatePredicateLeaves schema right

def validatePredicate (schema : Schema) (predicate : Predicate) : DFResult Unit :=
  if maxPredicateLeaves < predicate.leafCount then
    .error (.plan ("GpuFilterExec predicate has " ++ toString predicate.leafCount ++
      " comparisons; at most " ++ toString maxPredicateLeaves ++ " are supported"))
  else validatePredicateLeaves schema predicate

/-- `Schema::project` as the constructors call it. -/
def projectSchema (schema : Schema) (indices : List Nat) : DFResult Schema :=
  match schema.project indices with
  | some projected => .ok projected
  | none => .error (.arrow (projectOutOfBounds indices schema.width))

/-! ## `GpuFilterExec` -/

/-- Fused filter and projection. -/
structure GpuFilterExec where
  predicate : Predicate
  projection : List Nat
  schema : Schema
  target : BackendKind
  deriving DecidableEq

/-- `GpuFilterExec::try_new` over an input of schema `input`. -/
def GpuFilterExec.tryNew (input : Schema) (predicate : Predicate) (projection : List Nat)
    (target : BackendKind) : DFResult GpuFilterExec := do
  validatePredicate input predicate
  if projection.isEmpty then
    .error (.plan "GpuFilterExec: projection must select at least one column")
  else
    let schema ← projectSchema input projection
    .ok ⟨predicate, projection, schema, target⟩

/-! ## `GpuHashJoinExec` -/

/-- Inner hash join: the left input is streamed, the right one collected once. -/
structure GpuHashJoinExec where
  leftKey : Nat
  rightKey : Nat
  projection : Option (List Nat)
  schema : Schema
  target : BackendKind
  deriving DecidableEq

/-- `joined_schema`: the fields of both sides, without metadata. -/
def joinedSchema (left right : Schema) : Schema := ⟨left.fields ++ right.fields, []⟩

/-- The check of one join key. -/
def checkKey (schema : Schema) (key : Nat) (side : String) : DFResult Unit := do
  let dt ← fieldType schema key "GpuHashJoinExec"
  if dt = .int64 then .ok ()
  else .error (.plan ("GpuHashJoinExec: " ++ side ++ " key column " ++ toString key ++
    " has type " ++ dt.debug ++ "; v1 supports Int64"))

/-- `GpuHashJoinExec::try_new`. -/
def GpuHashJoinExec.tryNew (left right : Schema) (leftKey rightKey : Nat)
    (target : BackendKind) : DFResult GpuHashJoinExec := do
  checkKey left leftKey "left"
  checkKey right rightKey "right"
  .ok ⟨leftKey, rightKey, none, joinedSchema left right, target⟩

/-- The output schema under a projection of the joined row. -/
def joinSchema (full : Schema) : Option (List Nat) → DFResult Schema
  | none => .ok full
  | some indices =>
    if indices.isEmpty then
      .error (.plan "GpuHashJoinExec: projection must select at least one column")
    else projectSchema full indices

/-- `GpuHashJoinExec::with_projection`. -/
def GpuHashJoinExec.withProjection (exec : GpuHashJoinExec) (left right : Schema)
    (projection : Option (List Nat)) : DFResult GpuHashJoinExec := do
  let schema ← joinSchema (joinedSchema left right) projection
  .ok { exec with projection := projection, schema := schema }

/-! ## `GpuAggregateExec` -/

/-- Grouped aggregation over every input partition. -/
structure GpuAggregateExec where
  spec : AggregateSpec
  schema : Schema
  target : BackendKind
  deriving DecidableEq

/-- The name of a field. -/
def Schema.fieldName (schema : Schema) (index : Nat) : String :=
  ((schema.fields[index]?).map Field.name).getD ""

/-- The output type of an aggregate. -/
def AggregateFunction.outputType : AggregateFunction → DataType → DataType
  | .count, _ => .int64
  | _, dt => dt

/-- The output field of one aggregate. -/
def aggregateField (input : Schema) (entry : AggregateFunction × Nat) :
    DFResult Field := do
  let dt ← fieldType input entry.2 "GpuAggregateExec aggregate input"
  if dt = .int64 ∨ dt = .float64 then
    .ok ⟨entry.1.name ++ "(" ++ input.fieldName entry.2 ++ ")", entry.1.outputType dt, true, []⟩
  else .error (.plan ("GpuAggregateExec: aggregate input column " ++ toString entry.2 ++
    " has type " ++ dt.debug ++ "; v1 supports Int64 and Float64"))

def aggregateOutputSchema (input : Schema) (spec : AggregateSpec) :
    DFResult Schema := do
  let keyType ← fieldType input spec.groupBy "GpuAggregateExec group key"
  if keyType = .int64 then
    let fields ← spec.aggregates.mapM (aggregateField input)
    .ok ⟨⟨input.fieldName spec.groupBy, .int64, true, []⟩ :: fields, []⟩
  else .error (.plan ("GpuAggregateExec: group key column " ++ toString spec.groupBy ++
    " has type " ++ keyType.debug ++ "; v1 supports Int64"))

/-- `GpuAggregateExec::try_new`. -/
def GpuAggregateExec.tryNew (input : Schema) (spec : AggregateSpec) (target : BackendKind) :
    DFResult GpuAggregateExec := do
  let schema ← aggregateOutputSchema input spec
  .ok ⟨spec, schema, target⟩

/-- `GpuAggregateExec::with_output_schema`: the planner's names and nullability,
under the types the spec yields. -/
def GpuAggregateExec.withOutputSchema (exec : GpuAggregateExec) (schema : Schema) :
    DFResult GpuAggregateExec :=
  if schema.fields.length ≠ exec.schema.fields.length then
    .error (.plan ("GpuAggregateExec: planned schema has " ++ toString schema.fields.length ++
      " fields, the spec yields " ++ toString exec.schema.fields.length))
  else
    match (schema.fields.zip exec.schema.fields).find? fun pair =>
        pair.1.dataType ≠ pair.2.dataType with
    | some (planned, ours) => .error (.plan ("GpuAggregateExec: planned field " ++ planned.name ++
        " has type " ++ planned.dataType.debug ++ ", the spec yields " ++ ours.dataType.debug))
    | none => .ok { exec with schema := schema }

/-! ## `GpuVectorDistanceExec` -/

/-- The input with one distance column appended. -/
structure GpuVectorDistanceExec where
  column : Nat
  query : List F32
  metric : DistanceMetric
  outputName : String
  schema : Schema
  target : BackendKind
  deriving DecidableEq

/-- `GpuVectorDistanceExec::try_new`. -/
def GpuVectorDistanceExec.tryNew (input : Schema) (column : Nat) (query : List F32)
    (metric : DistanceMetric) (outputName : String) (target : BackendKind) :
    DFResult GpuVectorDistanceExec := do
  let dt ← fieldType input column "GpuVectorDistanceExec"
  match vectorDimension dt with
  | none => .error (.plan ("GpuVectorDistanceExec: column " ++ toString column ++ " has type " ++
      dt.debug ++ "; expected FixedSizeList<Float32>"))
  | some dim =>
    if query.length ≠ dim then
      .error (.plan ("GpuVectorDistanceExec: query has " ++ toString query.length ++
        " dimensions but the column has " ++ toString dim))
    else .ok ⟨column, query, metric, outputName,
      ⟨input.fields ++ [⟨outputName, .float32, true, []⟩], []⟩, target⟩

/-! ## Plan trees -/

/-- The nodes with one input. -/
inductive UnaryExec where
  | filterExec (filter : FilterExec)
  | projectionExec (projection : ProjectionExec)
  | aggregateExec (agg : AggregateExec)
  | repartitionExec (partitions : Nat)
  | coalescePartitionsExec
  | sortExec (sort : SortExec)
  | gpuFilterExec (exec : GpuFilterExec)
  | gpuAggregateExec (exec : GpuAggregateExec)
  | gpuVectorDistanceExec (exec : GpuVectorDistanceExec)

/-- The nodes with a left and a right input. -/
inductive BinaryExec where
  | hashJoinExec (join : HashJoinExec)
  | sortMergeJoinExec (join : SortMergeJoinExec)
  | gpuHashJoinExec (exec : GpuHashJoinExec)

/-- A physical plan. -/
inductive Plan where
  | unary (op : UnaryExec) (input : Plan)
  | binary (op : BinaryExec) (left right : Plan)
  | foreign (op : ForeignExec) (children : List Plan)

@[elab_as_elim, induction_eliminator]
theorem Plan.induction {motive : Plan → Prop}
    (unary : ∀ op input, motive input → motive (.unary op input))
    (binary : ∀ op left right, motive left → motive right → motive (.binary op left right))
    (foreign : ∀ op children, (∀ child ∈ children, motive child) → motive (.foreign op children))
    (plan : Plan) : motive plan :=
  @Plan.rec motive (fun children => ∀ child ∈ children, motive child) unary binary foreign
    (fun _ hmem => absurd hmem List.not_mem_nil)
    (fun _ _ hhead htail child hmem => by
      rcases List.mem_cons.mp hmem with rfl | hmem
      · exact hhead
      · exact htail child hmem)
    plan

/-- `schema` of a node with one input. -/
def UnaryExec.schema : UnaryExec → Schema → Schema
  | .filterExec filter, input =>
    match filter.projection with
    | none => input
    | some indices => (input.project indices).getD input
  | .projectionExec projection, _ => projection.schema
  | .aggregateExec agg, _ => agg.schema
  | .repartitionExec _, input => input
  | .coalescePartitionsExec, input => input
  | .sortExec _, input => input
  | .gpuFilterExec exec, _ => exec.schema
  | .gpuAggregateExec exec, _ => exec.schema
  | .gpuVectorDistanceExec exec, _ => exec.schema

/-- `schema` of a node with two inputs. -/
def BinaryExec.schema : BinaryExec → Schema
  | .hashJoinExec join => join.schema
  | .sortMergeJoinExec join => join.schema
  | .gpuHashJoinExec exec => exec.schema

/-- `ExecutionPlan::schema`. -/
def Plan.schema : Plan → Schema
  | .unary op input => op.schema input.schema
  | .binary op _ _ => op.schema
  | .foreign op _ => op.schema

/-- The partition count of a node with one input.  `GpuAggregateExec` has a single
output partition; a `SortExec` that does not preserve partitioning merges. -/
def UnaryExec.partitions : UnaryExec → Nat → Nat
  | .repartitionExec partitions, _ => partitions
  | .coalescePartitionsExec, _ => 1
  | .sortExec sort, input => if sort.preservePartitioning then input else 1
  | .gpuAggregateExec _, _ => 1
  | _, input => input

/-- The partition count of a node with two inputs.  `GpuHashJoinExec` has the
partitions of its left (probe) input. -/
def BinaryExec.partitions : BinaryExec → Nat → Nat → Nat
  | .hashJoinExec join, left, right => join.partitions left right
  | .sortMergeJoinExec join, left, right => join.partitions left right
  | .gpuHashJoinExec _, left, _ => left

mutual

/-- `output_partitioning().partition_count()`. -/
def Plan.partitionCount : Plan → Nat
  | .unary op input => op.partitions input.partitionCount
  | .binary op left right => op.partitions left.partitionCount right.partitionCount
  | .foreign op children => op.partitions (Plan.partitionCounts children)

/-- The partition counts of a node's inputs. -/
def Plan.partitionCounts : List Plan → List Nat
  | [] => []
  | child :: children => child.partitionCount :: Plan.partitionCounts children

end

/-! ## Replacing the inputs of a node -/

/-- `with_new_children` of a node with one input: a `Gpu*Exec` runs its
constructor again over the new input. -/
def UnaryExec.withNewChildren (input : Schema) : UnaryExec → DFResult UnaryExec
  | .gpuFilterExec exec => do
      let exec ← GpuFilterExec.tryNew input exec.predicate exec.projection exec.target
      .ok (.gpuFilterExec exec)
  | .gpuAggregateExec exec => do
      let fresh ← GpuAggregateExec.tryNew input exec.spec exec.target
      let exec ← fresh.withOutputSchema exec.schema
      .ok (.gpuAggregateExec exec)
  | .gpuVectorDistanceExec exec => do
      let exec ← GpuVectorDistanceExec.tryNew input exec.column exec.query exec.metric
        exec.outputName exec.target
      .ok (.gpuVectorDistanceExec exec)
  | op => .ok op

/-- `with_new_children` of a node with two inputs. -/
def BinaryExec.withNewChildren (left right : Schema) :
    BinaryExec → DFResult BinaryExec
  | .gpuHashJoinExec exec => do
      let fresh ← GpuHashJoinExec.tryNew left right exec.leftKey exec.rightKey exec.target
      let exec ← fresh.withProjection left right exec.projection
      .ok (.gpuHashJoinExec exec)
  | op => .ok op

end OxideLake
