import OxideLake.Device.Kernels

/-!
# `GpuOperator`: one operator's batches on a backend

The operator layer (`operator.rs`) owns the column plumbing around a device
kernel.  Only the columns an operator needs are uploaded, cut into a *sub-batch*
with its own column numbering (`SidePlan`); projected columns a device cannot
hold stay on the host and are gathered afterwards at the row ids the device
returns in one extra column.  A backend that answers `Unsupported` sends the
batch to the CPU reference.

A backend is a record of functions over an arbitrary type `D` of device-resident
batches.  Its answers may differ from call to call, so a run passes one backend
value a call; only the operator's own state — the cached device build and the
counters — is threaded.  Streams, timings and byte counts do not influence any
result and are left out.
-/

namespace OxideLake

/-- The operations of `GpuBackend` the operators call. -/
structure GpuBackend (D : Type) where
  kind : BackendKind
  upload : RecordBatch → Result D
  download : D → Result RecordBatch
  synchronize : Result Unit
  filterProject : D → Predicate → List Nat → Result D
  hashJoin : D → D → Nat → Nat → Result D
  aggregate : D → AggregateSpec → Result D
  vectorDistance : D → Nat → List F32 → DistanceMetric → String → Result D
  supportsPredicate : Predicate → Bool
  supportsHashJoin : Bool
  supportsAggregate : Bool

/-- The batches of a stream, each with the backend its call runs on. -/
abbrev Calls (D : Type) := List (GpuBackend D × RecordBatch)

/-! ## Column plans -/

/-- Name of the synthetic row-id column. -/
def rowIdName : String := "__oxide_row"

/-- `device_eligible`: the column types a device can hold. -/
def deviceEligible (dt : DataType) : Bool :=
  dt = .int64 ∨ dt = .float64 ∨ dt = .float32 ∨ (vectorDimension dt).isSome

def pushUnique (cols : List Nat) (index : Nat) : List Nat :=
  if index ∈ cols then cols else cols ++ [index]

/-- `Vec::dedup`: of each run of equal elements the last one is kept. -/
def dedupRuns : List Nat → List Nat
  | a :: b :: rest => if a = b then dedupRuns (b :: rest) else a :: dedupRuns (b :: rest)
  | cols => cols

/-- `field`: a field by index. -/
def fieldAt (schema : Schema) (index : Nat) : Result Field :=
  match schema.fields[index]? with
  | some field => .ok field
  | none => .error (columnOutOfRange index schema.fields.length)

/-- `RecordBatch::column`: panics past the last column. -/
def columnAt (batch : RecordBatch) (index : Nat) : Result Column :=
  match batch.columns[index]? with
  | some column => .ok column
  | none => .error (.panicked "index out of bounds")

/-- The columns of one input that travel to the device, in sub-batch order, and
whether a trailing row-id column is added. -/
structure SidePlan where
  deviceCols : List Nat
  rowIds : Bool
  deriving DecidableEq

namespace SidePlan

variable (plan : SidePlan)

/-- Where an original column sits in the sub-batch. -/
def position (original : Nat) : Option Nat :=
  plan.deviceCols.idxOf? original

/-- Where the row ids sit in the sub-batch. -/
def rowIdPosition : Option Nat :=
  if plan.rowIds then some plan.deviceCols.length else none

/-- Number of columns of the sub-batch. -/
def width : Nat :=
  plan.deviceCols.length + (if plan.rowIds then 1 else 0)

/-- The row ids `0 .. n`. -/
def rowIdColumn (n : Nat) : Column :=
  Column.ofInt64 ((List.range n).map fun i => some (Int64.ofNat i))

/-- The trailing row-id entry, when requested. -/
def rowIdEntry (n : Nat) : List (Field × Column) :=
  if plan.rowIds then [(⟨rowIdName, .int64, false, []⟩, rowIdColumn n)] else []

/-- The planned columns, then `0..n` row ids when requested. -/
def subBatch (batch : RecordBatch) : Result RecordBatch := do
  let entries ← plan.deviceCols.mapM fun index => do
    let field ← fieldAt batch.schema index
    let column ← columnAt batch index
    pure (field, column)
  let all := entries ++ plan.rowIdEntry batch.numRows
  RecordBatch.tryNew ⟨all.map Prod.fst, []⟩ (all.map Prod.snd)

end SidePlan

/-- `remap_predicate`: the predicate over sub-batch columns. -/
def remapPredicate (plan : SidePlan) : Predicate → Result Predicate
  | .compare column op literal =>
    match plan.position column with
    | some position => .ok (.compare position op literal)
    | none => .error (.plan s!"predicate column {column} missing from device plan")
  | .and left right => do
      let l ← remapPredicate plan left
      let r ← remapPredicate plan right
      .ok (.and l r)

/-- A row id as an index; a negative one does not convert. -/
def rowIndex : Option Int64 → Result (Option Nat)
  | none => .ok none
  | some v =>
    if 0 ≤ v.toInt then .ok (some v.toInt.toNat) else .error (.arrow "Cast to usize failed")

/-- `take_rows`: gathers a host column at the device's row ids. -/
def takeRows (column rowIds : Column) : Result Column := do
  if rowIds.dataType = .int64 then
    let indices ← rowIds.int64s.mapM rowIndex
    column.take indices
  else .error (.arrow "take indices are not integers")

/-! ## Device attempts -/

/-- What a device attempt produced. -/
inductive DeviceOutcome where
  | ran (batch : RecordBatch)
  | declined (why : EngineError)

/-- `try_device`: an `Unsupported` error declines, any other error is kept. -/
def tryDevice : Result RecordBatch → Result DeviceOutcome
  | .ok batch => .ok (.ran batch)
  | .error e => if e.isUnsupported then .ok (.declined e) else .error e

/-- A device output continued on the host; a declined attempt stays declined. -/
def DeviceOutcome.onHost (outcome : DeviceOutcome) (assemble : RecordBatch → Result RecordBatch) :
    Result DeviceOutcome :=
  match outcome with
  | .declined why => .ok (.declined why)
  | .ran devOut => do
      let out ← assemble devOut
      .ok (.ran out)

namespace GpuBackend

variable {D : Type}

variable (backend : GpuBackend D)

/-- `no_device_path`: why there is no device path, or `none` when there is. -/
def noDevicePath (supported : Bool) (what : String) :
    Option EngineError :=
  if !backend.kind.isGpu then
    some (.unsupported "backend.device" ("the backend selected on this machine is `" ++
      backend.kind.asStr ++
      "`, so an operator placed on a device runs the CPU reference"))
  else if !supported then
    some (.unsupported "backend.operation"
      ("backend `" ++ backend.kind.asStr ++ "` does not support " ++ what))
  else none

/-- `round_trip`: upload, run the kernel, download, synchronize. -/
def roundTrip (sub : RecordBatch) (kernel : D → Result D) : Result RecordBatch := do
  let dev ← backend.upload sub
  let out ← kernel dev
  let host ← backend.download out
  backend.synchronize
  .ok host

/-- The reassembly loop of `filter_project_on_device`: device outputs for the
eligible columns, host gathers at the compacted row ids for the rest. -/
def reassemble (batch devOut : RecordBatch) (rowIds : Option Column) :
    Nat → List (Nat × Bool) → Result (List (Field × Column))
  | _, [] => .ok []
  | nextDevice, (i, eligible) :: rest => do
      let field ← fieldAt batch.schema i
      if eligible then
        let column ← columnAt devOut nextDevice
        let tail ← reassemble batch devOut rowIds (nextDevice + 1) rest
        .ok ((field, column) :: tail)
      else
        match rowIds with
        | none => .error (.execution "row ids missing for host gather")
        | some ids =>
          let host ← columnAt batch i
          let column ← takeRows host ids
          let tail ← reassemble batch devOut rowIds nextDevice rest
          .ok ((field, column) :: tail)

/-- The compacted row ids: the last column of the device output, when planned. -/
def rowIdsOut (plan : SidePlan) (devOut : RecordBatch) : Result (Option Column) :=
  if plan.rowIds then (columnAt devOut (devOut.numColumns - 1)).map some else .ok none

/-- The output batch of a filter, from the device output. -/
def filterOutput (plan : SidePlan) (batch : RecordBatch) (projected : List (Nat × Bool))
    (devOut : RecordBatch) : Result RecordBatch := do
  let rowIds ← rowIdsOut plan devOut
  let entries ← reassemble batch devOut rowIds 0 projected
  RecordBatch.tryNew ⟨entries.map Prod.fst, []⟩ (entries.map Prod.snd)

/-- The sub-batch plan of a filter: predicate columns, then eligible projected
columns, each once; row ids when some projected column stays on the host. -/
def filterPlan (predicate : Predicate) (projected : List (Nat × Bool)) : SidePlan where
  deviceCols :=
    ((projected.filter Prod.snd).map Prod.fst).foldl pushUnique
      ((dedupRuns predicate.columns).foldl pushUnique [])
  rowIds := projected.any fun entry => !entry.2

/-- Positions of the eligible projected columns in the sub-batch. -/
def devProjection (plan : SidePlan) : List (Nat × Bool) → Result (List Nat)
  | [] => .ok plan.rowIdPosition.toList
  | (i, eligible) :: rest =>
    if eligible then
      match plan.position i with
      | some position => do
          let tail ← devProjection plan rest
          .ok (position :: tail)
      | none => .error (.plan s!"projected column {i} missing from device plan")
    else devProjection plan rest

def filterProjectOnDevice (batch : RecordBatch) (predicate : Predicate)
    (projection : List Nat) : Result DeviceOutcome := do
  let projected ← projection.mapM fun i => do
    let field ← fieldAt batch.schema i
    pure (i, deviceEligible field.dataType)
  let plan := filterPlan predicate projected
  let sub ← plan.subBatch batch
  let remapped ← remapPredicate plan predicate
  let devCols ← devProjection plan projected
  let outcome ← tryDevice (backend.roundTrip sub fun dev =>
    backend.filterProject dev remapped devCols)
  outcome.onHost (filterOutput plan batch projected)

def aggregateOnDevice (batch : RecordBatch) (spec : AggregateSpec) :
    Result DeviceOutcome := do
  let plan : SidePlan := ⟨(spec.aggregates.map Prod.snd).foldl pushUnique [spec.groupBy], false⟩
  let sub ← plan.subBatch batch
  let remapped : AggregateSpec :=
    ⟨(plan.position spec.groupBy).getD 0,
      spec.aggregates.map fun entry => (entry.1, (plan.position entry.2).getD 0)⟩
  tryDevice (backend.roundTrip sub fun dev => backend.aggregate dev remapped)

/-- The input batch with the device's distance column appended. -/
def distanceOutput (batch : RecordBatch) (outputName : String) (devOut : RecordBatch) :
    Result RecordBatch := do
  let distance ← columnAt devOut (devOut.numColumns - 1)
  RecordBatch.tryNew ⟨batch.schema.fields ++ [⟨outputName, .float32, true, []⟩], []⟩
    (batch.columns ++ [distance])

def vectorDistanceOnDevice (batch : RecordBatch) (column : Nat)
    (query : List F32) (metric : DistanceMetric) (outputName : String) :
    Result DeviceOutcome := do
  let plan : SidePlan := ⟨[column], false⟩
  let sub ← plan.subBatch batch
  let outcome ← tryDevice (backend.roundTrip sub fun dev =>
    backend.vectorDistance dev 0 query metric outputName)
  outcome.onHost (distanceOutput batch outputName)

end GpuBackend

/-! ## The build side of a join -/

/-- The build side of a hash join, hashed once: only `JoinBuild::new` makes one,
so the table is the one built from the batch. -/
structure JoinBuild (order : MapOrder) where
  batch : RecordBatch
  key : Nat
  table : JoinTable
  built : JoinTable.build order batch key = .ok table

/-- `JoinBuild::new`. -/
def JoinBuild.new (order : MapOrder) (batch : RecordBatch) (key : Nat) :
    Result (JoinBuild order) :=
  match h : JoinTable.build order batch key with
  | .ok table => .ok ⟨batch, key, table, h⟩
  | .error e => .error e

/-- The build side as uploaded for one operator, with the plan it was cut by. -/
structure DeviceBuild (D : Type) where
  plan : SidePlan
  batch : D

/-- The counters of `OperatorStats` that an operator call moves. -/
structure OperatorStats where
  rowsIn : UInt64 := 0
  rowsOut : UInt64 := 0
  batches : UInt64 := 0
  fallbackBatches : UInt64 := 0
  deriving DecidableEq

namespace OperatorStats

def recordBatch (stats : OperatorStats) (rowsIn rowsOut : Nat) : OperatorStats :=
  { stats with
    rowsIn := stats.rowsIn + UInt64.ofNat rowsIn
    rowsOut := stats.rowsOut + UInt64.ofNat rowsOut
    batches := stats.batches + 1 }

def recordFallback (stats : OperatorStats) : OperatorStats :=
  { stats with fallbackBatches := stats.fallbackBatches + 1 }

end OperatorStats

/-- The state one `GpuOperator` keeps between calls: the write-once cell of the
device build, and the counters. -/
structure OperatorState (D : Type) where
  deviceBuild : Option (DeviceBuild D) := none
  stats : OperatorStats := {}

namespace OperatorState

variable {D : Type}

/-- How every operator entry point ends: a device result is recorded; a declined
batch is counted as a fallback, run on the CPU reference and then recorded; an
error is returned as it is. -/
def finish (state : OperatorState D) (rowsIn : Nat) (outcome : Result DeviceOutcome)
    (reference : Unit → Result RecordBatch) :
    Result RecordBatch × OperatorState D :=
  match outcome with
  | .error e => (.error e, state)
  | .ok (.ran out) =>
    (.ok out, { state with stats := state.stats.recordBatch rowsIn out.numRows })
  | .ok (.declined _) =>
    let counted := { state with stats := state.stats.recordFallback }
    match reference () with
    | .error e => (.error e, counted)
    | .ok out =>
      (.ok out, { counted with stats := counted.stats.recordBatch rowsIn out.numRows })

/-- `GpuOperator::filter_project`. -/
def filterProject (state : OperatorState D) (backend : GpuBackend D) (batch : RecordBatch)
    (predicate : Predicate) (projection : List Nat) :
    Result RecordBatch × OperatorState D :=
  state.finish batch.numRows
    (match backend.noDevicePath (backend.supportsPredicate predicate) "this predicate" with
      | some why => .ok (.declined why)
      | none => backend.filterProjectOnDevice batch predicate projection)
    (fun _ => Kernels.filterProject batch predicate projection)

/-- `GpuOperator::aggregate`. -/
def aggregate (state : OperatorState D) (fpu : FloatUnit) (backend : GpuBackend D)
    (batch : RecordBatch) (spec : AggregateSpec) :
    Result RecordBatch × OperatorState D :=
  state.finish batch.numRows
    (match backend.noDevicePath backend.supportsAggregate "aggregation" with
      | some why => .ok (.declined why)
      | none => backend.aggregateOnDevice batch spec)
    (fun _ => Kernels.aggregate fpu batch spec)

/-- `GpuOperator::vector_distance`. -/
def vectorDistance (state : OperatorState D) (fpu : FloatUnit) (backend : GpuBackend D)
    (batch : RecordBatch) (column : Nat) (query : List F32) (metric : DistanceMetric)
    (outputName : String) : Result RecordBatch × OperatorState D :=
  state.finish batch.numRows
    (match backend.noDevicePath true "vector distance" with
      | some why => .ok (.declined why)
      | none => backend.vectorDistanceOnDevice batch column query metric outputName)
    (fun _ => Kernels.vectorDistance fpu batch column query metric outputName)

/-- `OnceLock::get_or_init`: a filled cell keeps its value. -/
def getOrInit {α : Type} (cell : Option α) (fresh : α) : α × Option α :=
  match cell with
  | some value => (value, cell)
  | none => (fresh, some fresh)

/-- Cuts the build side by `plan`, uploads it and waits for the upload. -/
def uploadBuild {order : MapOrder} (backend : GpuBackend D) (build : JoinBuild order)
    (plan : SidePlan) : Result D := do
  let sub ← plan.subBatch build.batch
  let batch ← backend.upload sub
  backend.synchronize
  .ok batch

/-- `device_build`: the cached build when it was cut by this plan; otherwise a
fresh upload, handed to the write-once cell. -/
def deviceBuildFor {order : MapOrder} (state : OperatorState D) (backend : GpuBackend D)
    (build : JoinBuild order) (plan : SidePlan) :
    Result (DeviceBuild D) × OperatorState D :=
  match state.deviceBuild.filter fun cached => cached.plan = plan with
  | some cached => (.ok cached, state)
  | none =>
    match uploadBuild backend build plan with
    | .error e => (.error e, state)
    | .ok batch =>
      let (used, cell) := getOrInit state.deviceBuild ⟨plan, batch⟩
      (.ok used, { state with deviceBuild := cell })

/-- One selected column of `side_plan`: pushed when a device can hold it, row ids
requested otherwise. -/
def planColumn (schema : Schema) (plan : SidePlan) (index : Nat) :
    Result SidePlan := do
  let field ← fieldAt schema index
  .ok (if deviceEligible field.dataType
    then { plan with deviceCols := pushUnique plan.deviceCols index }
    else { plan with rowIds := true })

/-- `side_plan`: the key first, then the eligible selected columns once each; row
ids when some selected column stays on the host. -/
def sidePlan (schema : Schema) (key : Nat) (selected : List Nat) :
    Result SidePlan :=
  selected.foldlM (planColumn schema) ⟨[key], false⟩

/-- The two column plans of a join call. -/
structure JoinPlans where
  selected : List Nat
  left : SidePlan
  right : SidePlan

/-- The planning half of `hash_join_on_device`: the selected columns of
`left ++ build`, checked, and the plan of each side. -/
def joinPlans {order : MapOrder} (left : RecordBatch) (build : JoinBuild order) (leftKey : Nat)
    (projection : Option (List Nat)) : Result JoinPlans := do
  let width := left.numColumns
  let total := width + build.batch.numColumns
  let selected := Kernels.selectedColumns left build.batch projection
  match selected.find? fun index => total ≤ index with
  | some index => .error (.plan s!"join projection index {index} out of range")
  | none =>
    let leftPlan ← sidePlan left.schema leftKey (selected.filter (· < width))
    let rightPlan ← sidePlan build.batch.schema build.key
      ((selected.filter (width ≤ ·)).map (· - width))
    .ok ⟨selected, leftPlan, rightPlan⟩

/-- The row ids of one side, when its plan has them.  `offset` is where the side's
sub-batch starts in the device output. -/
def sideIds (plan : SidePlan) (devOut : RecordBatch) (offset : Nat) :
    Result (Option Column) :=
  match plan.rowIdPosition with
  | none => .ok none
  | some position => (columnAt devOut (offset + position)).map some

/-- One output column of one side: read from the device output when the side's
plan carries it, gathered on the host at the side's row ids otherwise. -/
def sideOutput (batch : RecordBatch) (plan : SidePlan) (devOut : RecordBatch)
    (ids : Option Column) (offset own : Nat) : Result (Field × Column) := do
  let field ← fieldAt batch.schema own
  match plan.position own with
  | some position =>
    let column ← columnAt devOut (offset + position)
    .ok (field, column)
  | none =>
    match ids with
    | none => .error (.execution "row ids missing for host gather")
    | some ids =>
      let host ← columnAt batch own
      let column ← takeRows host ids
      .ok (field, column)

/-- The output batch of a join, from the device output: left sub-batch columns,
then right sub-batch columns. -/
def joinBatch (left right : RecordBatch) (plans : JoinPlans) (devOut : RecordBatch) :
    Result RecordBatch := do
  let leftIds ← sideIds plans.left devOut 0
  let rightIds ← sideIds plans.right devOut plans.left.width
  let entries ← plans.selected.mapM fun index =>
    if index < left.numColumns then sideOutput left plans.left devOut leftIds 0 index
    else sideOutput right plans.right devOut rightIds plans.left.width
      (index - left.numColumns)
  RecordBatch.tryNew ⟨entries.map Prod.fst, []⟩ (entries.map Prod.snd)

/-- The device half of `hash_join_on_device`: probe sub-batch against the device
build. -/
def hashJoinDevice {order : MapOrder} (state : OperatorState D) (backend : GpuBackend D)
    (build : JoinBuild order) (leftKey : Nat) (plans : JoinPlans) (leftSub : RecordBatch) :
    Result DeviceOutcome × OperatorState D :=
  let (devBuild, state) := state.deviceBuildFor backend build plans.right
  (tryDevice (do
    let devBuild ← devBuild
    backend.roundTrip leftSub fun devLeft =>
      backend.hashJoin devLeft devBuild.batch ((plans.left.position leftKey).getD 0)
        ((plans.right.position build.key).getD 0)), state)

def hashJoinOnDevice {order : MapOrder} (state : OperatorState D) (backend : GpuBackend D)
    (left : RecordBatch) (build : JoinBuild order) (leftKey : Nat)
    (projection : Option (List Nat)) : Result DeviceOutcome × OperatorState D :=
  match joinPlans left build leftKey projection with
  | .error e => (.error e, state)
  | .ok plans =>
    match plans.left.subBatch left with
    | .error e => (.error e, state)
    | .ok leftSub =>
      let (outcome, state) := state.hashJoinDevice backend build leftKey plans leftSub
      (outcome >>= fun outcome => outcome.onHost (joinBatch left build.batch plans), state)

/-- The device attempt of `GpuOperator::hash_join`, or why there is none. -/
def joinOutcome {order : MapOrder} (state : OperatorState D) (backend : GpuBackend D)
    (left : RecordBatch) (build : JoinBuild order) (leftKey : Nat)
    (projection : Option (List Nat)) : Result DeviceOutcome × OperatorState D :=
  match backend.noDevicePath backend.supportsHashJoin "hash joins" with
  | some why => (.ok (.declined why), state)
  | none => state.hashJoinOnDevice backend left build leftKey projection

/-- `GpuOperator::hash_join`. -/
def hashJoin {order : MapOrder} (state : OperatorState D) (backend : GpuBackend D)
    (left : RecordBatch) (build : JoinBuild order) (leftKey : Nat)
    (projection : Option (List Nat)) : Result RecordBatch × OperatorState D :=
  let (outcome, state) := state.joinOutcome backend left build leftKey projection
  state.finish left.numRows outcome fun _ =>
    Kernels.hashJoinProbe left leftKey build.batch build.table projection

end OperatorState

end OxideLake
