import OxideLake.Planner.Plan

/-!
# The placement rules

`HardwarePlacementRule` rewrites eligible nodes into `Gpu*Exec`, bottom-up.  Each
lowering either declines (`Ok(None)`: the node stays on the CPU), or runs the
constructor of the replacement and passes the constructor's error on.
`VectorDistancePlacementRule` runs the distance lowering alone.

The reasons a lowering gives for declining only feed the log and `oxide explain`;
they are left out.  An index that is out of bounds unwinds: `panicked`.
-/

namespace OxideLake

/-- Indexing a `Vec` or a schema's fields: out of bounds panics. -/
def getOrPanic {α : Type} (xs : List α) (index : Nat) : DFResult α :=
  match xs[index]? with
  | some x => .ok x
  | none => .error (.panicked "index out of bounds")

/-! ## Filters and projections over them -/

variable (target : BackendKind)

/-- `lower_filter`, over an input of schema `input`. -/
def lowerFilter (filter : FilterExec) (input : Schema) :
    DFResult (Option GpuFilterExec) :=
  match lowerPredicate filter.predicate input with
  | none => .ok none
  | some predicate => do
      let exec ← GpuFilterExec.tryNew input predicate
        (filter.projection.getD (List.range input.width)) target
      .ok (if exec.schema = (UnaryExec.filterExec filter).schema input then some exec else none)

/-- The loop of `fuse_projection`: the filter's own columns behind plain,
non-renaming column expressions. -/
def fuseColumns (filter : GpuFilterExec) : List ProjectionExpr →
    DFResult (Option (List Nat))
  | [] => .ok (some [])
  | expr :: rest =>
    match columnIndex expr.expr with
    | none => .ok none
    | some index => do
        let field ← getOrPanic filter.schema.fields index
        if field.name ≠ expr.aliasName then .ok none
        else do
          let column ← getOrPanic filter.projection index
          let fused ← fuseColumns filter rest
          .ok (fused.map (column :: ·))

/-- `fuse_projection`: a projection over a `GpuFilterExec` whose own input has
schema `source`. -/
def fuseProjection (projection : ProjectionExec) (filter : GpuFilterExec)
    (source : Schema) : DFResult (Option GpuFilterExec) := do
  let fused ← fuseColumns filter projection.expr
  match fused with
  | none => .ok none
  | some fused => do
      let exec ← GpuFilterExec.tryNew source filter.predicate fused target
      .ok (if exec.schema = projection.schema then some exec else none)

/-! ## Distance projections -/

def distanceMetricFor (name : String) : Option DistanceMetric :=
  if name = "l2_distance" then some .l2
  else if name = "cosine_distance" then some .cosine
  else none

/-- `literal_query`: the items of a one-row, non-null `FixedSizeList<Float32>`
without null items. -/
def literalQuery : ScalarValue → Option (List F32)
  | .fixedSizeList list =>
    match list.cells with
    | [some (.vector items)] =>
      if items.all ListItem.valid then some (items.map ListItem.raw) else none
    | _ => none
  | _ => none

/-- The value of a literal expression. -/
def literalValue : PhysicalExpr → Option ScalarValue
  | .literal value => some value
  | _ => none

/-- One column and one literal, in either order. -/
def distanceOperands (a b : PhysicalExpr) : Option (Nat × ScalarValue) :=
  match columnIndex a, columnIndex b with
  | some column, none => (literalValue b).map fun value => (column, value)
  | none, some column => (literalValue a).map fun value => (column, value)
  | _, _ => none

/-- The leading expressions pass every input column through under its own name. -/
def passesThrough (input : Schema) (exprs : List ProjectionExpr) : Bool :=
  exprs.length = input.fields.length ∧
    ∀ entry ∈ exprs.zipIdx, columnIndex entry.1.expr = some entry.2 ∧
      (input.fields[entry.2]?).map Field.name = some entry.1.aliasName

/-- The metric, column and query of a distance call. -/
def distanceCall : PhysicalExpr → Option (DistanceMetric × Nat × List F32)
  | .scalarFunction name [a, b] => do
      let metric ← distanceMetricFor name
      let (column, value) ← distanceOperands a b
      let query ← literalQuery value
      some (metric, column, query)
  | _ => none

def lowerVectorDistance (projection : ProjectionExec) (input : Schema) :
    Option GpuVectorDistanceExec := do
  let last ← projection.expr.getLast?
  if passesThrough input projection.expr.dropLast then
    let (metric, column, query) ← distanceCall last.expr
    match GpuVectorDistanceExec.tryNew input column query metric last.aliasName target with
    | .error _ => none
    | .ok exec => if exec.schema = projection.schema then some exec else none
  else none

/-! ## Joins -/

/-- The guards both join lowerings share: inner, no residual filter, `NULL` keys
match nothing, one key pair of two plain columns. -/
def joinKeys (join : JoinOn) : Option (Nat × Nat) :=
  if join.joinType = .inner ∧ join.filter.isNone ∧ join.nullEquality = .nullEqualsNothing then
    match join.on with
    | [(left, right)] => do
        let leftKey ← columnIndex left
        let rightKey ← columnIndex right
        some (leftKey, rightKey)
    | _ => none
  else none

/-- Both key columns are `Int64`; a key past the last field panics. -/
def bothInt64 (left : Schema) (leftKey : Nat) (right : Schema) (rightKey : Nat) :
    DFResult Bool := do
  let leftField ← getOrPanic left.fields leftKey
  if leftField.dataType ≠ .int64 then .ok false
  else do
    let rightField ← getOrPanic right.fields rightKey
    .ok (rightField.dataType = .int64)

/-- The position of the only field of `full` equal to `field`. -/
def onlyMatch (full : List Field) (field : Field) : Option Nat :=
  match (full.zipIdx.filter fun entry => entry.1 = field).map Prod.snd with
  | [only] => some only
  | _ => none

/-- The join's output columns as indices into `build ++ probe`.  A pushed
projection is recovered from the fields of the join's schema; `none` when one of
them is ambiguous. -/
def dfProjection (join : HashJoinExec) (build probe : Schema) : Option (List Nat) :=
  if join.projection.isSome then
    join.schema.fields.mapM (onlyMatch (build.fields ++ probe.fields))
  else some (List.range (build.width + probe.width))

/-- An index into `build ++ probe` as one into `probe ++ build`. -/
def swapSides (buildWidth probeWidth index : Nat) : Nat :=
  if index < buildWidth then probeWidth + index else index - buildWidth

/-- The replacement of a hash join with the given keys and output columns. -/
def placeJoin (join : HashJoinExec) (build probe : Schema)
    (buildKey probeKey : Nat) (projection : List Nat) :
    DFResult (Option GpuHashJoinExec) := do
  let exec ← GpuHashJoinExec.tryNew probe build probeKey buildKey target
  let exec ← exec.withProjection probe build
    (some (projection.map (swapSides build.width probe.width)))
  .ok (if exec.schema = join.schema then some exec else none)

/-- `lower_join`: DataFusion's left input is the build side. -/
def lowerJoin (join : HashJoinExec) (build probe : Schema) :
    DFResult (Option GpuHashJoinExec) :=
  match joinKeys join.toJoinOn with
  | none => .ok none
  | some (buildKey, probeKey) => do
      let int64 ← bothInt64 build buildKey probe probeKey
      if int64 then
        match dfProjection join build probe with
        | none => .ok none
        | some projection => placeJoin target join build probe buildKey probeKey projection
      else .ok none

/-- `strip_sort`: drops a `SortExec` without a `LIMIT`. -/
def stripSort : Plan → Plan
  | .unary (.sortExec sort) input =>
    if sort.fetch.isNone then input else .unary (.sortExec sort) input
  | plan => plan

/-- `lower_sort_merge_join`, over the inputs' schemas behind the dropped sorts.
The width check comes before the keys are looked at. -/
def lowerSortMergeJoin (join : SortMergeJoinExec) (left right : Schema) :
    DFResult (Option GpuHashJoinExec) :=
  match joinKeys join.toJoinOn with
  | none => .ok none
  | some (leftKey, rightKey) =>
    if join.schema.width ≠ left.width + right.width then .ok none
    else do
      let int64 ← bothInt64 left leftKey right rightKey
      if int64 then do
        let exec ← GpuHashJoinExec.tryNew left right leftKey rightKey target
        .ok (if exec.schema = join.schema then some exec else none)
      else .ok none

/-! ## Aggregates -/

/-- The aggregates the device kernels implement, by name. -/
def aggregateFunction (name : String) : Option AggregateFunction :=
  if name = "sum" then some .sum
  else if name = "count" then some .count
  else if name = "min" then some .min
  else if name = "max" then some .max
  else none

/-- One aggregate call over one plain `Int64` or `Float64` column. -/
def lowerAggregateCall (input : Schema) (call : AggregateFunctionExpr) :
    DFResult (Option (AggregateFunction × Nat)) :=
  match aggregateFunction call.funName, call.isDistinct, call.expressions.map columnIndex with
  | some func, false, [some column] => do
      let field ← getOrPanic input.fields column
      .ok (if field.dataType = .int64 ∨ field.dataType = .float64 then some (func, column)
        else none)
  | _, _, _ => .ok none

/-- The aggregate calls in order; the first that declines ends the loop. -/
def lowerAggregateCalls (input : Schema) : List AggregateFunctionExpr →
    DFResult (Option (List (AggregateFunction × Nat)))
  | [] => .ok (some [])
  | call :: calls => do
      let head ← lowerAggregateCall input call
      match head with
      | none => .ok none
      | some head => do
          let tail ← lowerAggregateCalls input calls
          .ok (tail.map (head :: ·))

/-- The only grouping column, when there is one grouping set of one plain column. -/
def groupColumn (group : PhysicalGroupBy) : Option Nat :=
  if group.isSingle ∧ group.nullExpr.isEmpty then
    match group.expr with
    | [(key, _)] => columnIndex key
    | _ => none
  else none

/-- `lower_aggregate_spec`, over an input of schema `input`. -/
def lowerAggregateSpec (agg : AggregateExec) (input : Schema) :
    DFResult (Option AggregateSpec) :=
  match groupColumn agg.groupExpr with
  | none => .ok none
  | some groupBy => do
      let field ← getOrPanic input.fields groupBy
      if field.dataType ≠ .int64 ∨ agg.filterExpr.any Option.isSome then .ok none
      else do
        let aggregates ← lowerAggregateCalls input agg.aggrExpr
        .ok (aggregates.map fun aggregates => ⟨groupBy, aggregates⟩)

/-- The node behind the exchange between the final and the partial half. -/
def lookThrough : Plan → Plan
  | .unary (.repartitionExec _) input => lookThrough input
  | .unary .coalescePartitionsExec input => lookThrough input
  | plan => plan

/-- The partial half of a two-phase pair and its input. -/
def partialHalf (agg : AggregateExec) : Plan → Option (AggregateExec × Plan)
  | .unary (.aggregateExec half) source =>
    if half.mode = .partialMode ∧ half.aggrExpr.length = agg.aggrExpr.length ∧
        half.groupExpr.expr.length = agg.groupExpr.expr.length then some (half, source)
    else none
  | _ => none

/-- The aggregate whose grouping is lowered and the input it reads: the node
itself when it is single-phase, the partial half of a two-phase pair. -/
def aggregateSource (agg : AggregateExec) (input : Plan) : Option (AggregateExec × Plan) :=
  match agg.mode with
  | .single | .singlePartitioned => some (agg, input)
  | .final | .finalPartitioned => partialHalf agg (lookThrough input)
  | _ => none

/-- A multi-partition source keeps one `CoalescePartitionsExec`. -/
def coalesced (source : Plan) : Plan :=
  if 1 < source.partitionCount then .unary .coalescePartitionsExec source else source

/-- The replacement of an aggregate with the given spec. -/
def placeAggregate (schema : Schema) (source : Plan)
    (spec : AggregateSpec) : DFResult (Option Plan) := do
  let exec ← GpuAggregateExec.tryNew (coalesced source).schema spec target
  match exec.withOutputSchema schema with
  | .ok exec => .ok (some (.unary (.gpuAggregateExec exec) (coalesced source)))
  | .error _ => .ok none

def lowerAggregate (agg : AggregateExec) (input : Plan) :
    DFResult (Option Plan) :=
  match aggregateSource agg input with
  | none => .ok none
  | some (half, source) => do
      let spec ← lowerAggregateSpec half source.schema
      match spec with
      | none => .ok none
      | some spec => placeAggregate target agg.schema source spec

/-! ## The rules -/

/-- `fuse_projection` on the projection's input: only a `GpuFilterExec` takes a
projection in. -/
def fuseInto (projection : ProjectionExec) :
    Plan → DFResult (Option Plan)
  | .unary (.gpuFilterExec filter) source => do
      let gpu ← fuseProjection target projection filter source.schema
      .ok (gpu.map fun exec => Plan.unary (.gpuFilterExec exec) source)
  | _ => .ok none

/-- The two lowerings of a projection, in order. -/
def rewriteProjection (projection : ProjectionExec) (input : Plan) :
    DFResult Plan := do
  let fused ← fuseInto target projection input
  .ok ((fused.or ((lowerVectorDistance target projection input.schema).map fun exec =>
      Plan.unary (.gpuVectorDistanceExec exec) input)).getD
    (.unary (.projectionExec projection) input))

/-- `rewrite`: one node, its inputs already rewritten. -/
def rewrite : Plan → DFResult Plan
  | .unary (.filterExec filter) input => do
      let gpu ← lowerFilter target filter input.schema
      .ok ((gpu.map fun exec => Plan.unary (.gpuFilterExec exec) input).getD
        (.unary (.filterExec filter) input))
  | .unary (.projectionExec projection) input => rewriteProjection target projection input
  | .binary (.hashJoinExec join) build probe => do
      let gpu ← lowerJoin target join build.schema probe.schema
      .ok ((gpu.map fun exec => Plan.binary (.gpuHashJoinExec exec) probe build).getD
        (.binary (.hashJoinExec join) build probe))
  | .binary (.sortMergeJoinExec join) left right => do
      let gpu ← lowerSortMergeJoin target join (stripSort left).schema (stripSort right).schema
      .ok ((gpu.map fun exec =>
          Plan.binary (.gpuHashJoinExec exec) (stripSort left) (stripSort right)).getD
        (.binary (.sortMergeJoinExec join) left right))
  | .unary (.aggregateExec agg) input => do
      let gpu ← lowerAggregate target agg input
      .ok (gpu.getD (.unary (.aggregateExec agg) input))
  | plan => .ok plan

/-- What the foreign nodes' own `with_new_children` say to new inputs in place of the
old: `InterleaveExec` refuses inputs without one common hash partitioning.  A node
whose inputs stay is not rebuilt. -/
structure ForeignNodes where
  withNewChildren : ForeignExec → List Plan → List Plan → DFResult Unit
  same : ∀ op children, withNewChildren op children children = .ok ()

variable (nodes : ForeignNodes)

mutual

/-- `transform_up`: the inputs first, then the node over the new inputs.
Rebuilding a node over unchanged inputs gives the node back, so every node is
rebuilt. -/
def transformUp (f : Plan → DFResult Plan) : Plan → DFResult Plan
  | .unary op input => do
      let input ← transformUp f input
      let op ← op.withNewChildren input.schema
      f (.unary op input)
  | .binary op left right => do
      let left ← transformUp f left
      let right ← transformUp f right
      let op ← op.withNewChildren left.schema right.schema
      f (.binary op left right)
  | .foreign op children => do
      let children' ← transformAll f children
      nodes.withNewChildren op children children'
      f (.foreign op children')

/-- `transform_up` of every input of a node. -/
def transformAll (f : Plan → DFResult Plan) :
    List Plan → DFResult (List Plan)
  | [] => .ok []
  | child :: children => do
      let child ← transformUp f child
      let children ← transformAll f children
      .ok (child :: children)

end

/-- `HardwarePlacementRule::optimize`. -/
def optimize (target : BackendKind) (plan : Plan) : DFResult Plan :=
  if target.isGpu then transformUp nodes (rewrite target) plan else .ok plan

/-- The node function of `VectorDistancePlacementRule`. -/
def rewriteDistance : Plan → DFResult Plan
  | .unary (.projectionExec projection) input =>
    .ok (((lowerVectorDistance target projection input.schema).map fun exec =>
      Plan.unary (.gpuVectorDistanceExec exec) input).getD
        (.unary (.projectionExec projection) input))
  | plan => .ok plan

/-- `VectorDistancePlacementRule::optimize`. -/
def optimizeDistance (target : BackendKind) (plan : Plan) : DFResult Plan :=
  if target.isGpu then transformUp nodes (rewriteDistance target) plan else .ok plan

end OxideLake
