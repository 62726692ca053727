import OxideLake.Device.ColumnTransfer
import OxideLake.Device.Cuda.Aggregation
import OxideLake.Device.Cuda.HashJoin
import OxideLake.Device.FilterPipeline

/-!
# The CUDA backend

`CudaBackend` of `cuda/mod.rs`: batches are uploaded by cutting the bytes out of their Arrow arrays
and downloaded by making arrays of the bytes again; the four operators of `cuda/ops.rs` work on the
bytes in between.  Every driver call succeeds here, so what can still fail are the engine's own
checks.

A `Column` does not say how its array is laid out.  `Layout` is the array behind each column; which
columns carry a validity bitmap, and where a slice starts, is up to it.
-/

namespace OxideLake

open Cuda OxideLake.Filter

/-! ## Batches -/

/-- The Arrow array behind a column, if there is one in memory. -/
structure Layout where
  array : Column → Option ArrowArray
  sound : ∀ column found, array column = some found → found.data.toColumn = column

/-- The array of the column carries a validity bitmap. -/
def Layout.HasBitmap (layout : Layout) (column : Column) : Prop :=
  ∃ found, layout.array column = some found ∧ found.data.nulls.isSome

structure CudaBatch where
  numRows : ℕ
  columns : List ColumnBytes

inductive BatchInner where
  | cuda (batch : CudaBatch)
  | host (batch : RecordBatch)

structure DeviceBatch where
  schema : Schema
  numRows : ℕ
  inner : BatchInner

def DeviceBatch.cudaBatch (batch : DeviceBatch) : Result CudaBatch :=
  match batch.inner with
  | .cuda resident => .ok resident
  | .host _ => .error (.device ("batch belongs to the " ++ BackendKind.cuda.asStr ++
      " backend, not the CUDA backend"))

/-- `alloc`: fresh bitmaps are zeroed. -/
def Filter.FilterDevice.Zeroed (device : FilterDevice) : Prop :=
  ∀ out i, (device.validity out).fresh i = 0

/-- `CudaBackend`, with what the host does not decide: the layout of its arrays, and what the device
does in the launches of each operator. -/
structure CudaBackend where
  layout : Layout
  filter : FilterDevice
  filter_zeroed : filter.Zeroed
  join : JoinDevice
  gathers : FilterDevice
  gathers_zeroed : gathers.Zeroed
  groups : AggregateDevice
  distances : ColumnBytes → List F32 → DistanceMetric → ℕ → UInt8

namespace CudaBackend

variable (backend : CudaBackend)

/-! ## Transfers -/

/-- `extract`, on the array behind a column.  A column of a type a device can hold whose array does
not exist could not be allocated. -/
def extractColumn (column : Column) : Result ColumnBytes :=
  match backend.layout.array column with
  | some array => extract array
  | none =>
    if isDeviceEligible column.dataType then .error (.panicked "capacity overflow")
    else .error (.unsupported "device.column_type"
      (column.dataType.debug ++ " columns are not device-resident in v1"))

def upload (batch : RecordBatch) : Result DeviceBatch := do
  let columns ← batch.columns.mapM backend.extractColumn
  .ok ⟨batch.schema, batch.numRows, .cuda ⟨batch.numRows, columns⟩⟩

/-- `rebuild`, and the column the array holds. -/
def rebuildColumn (col : ColumnBytes) : Result Column := do
  let array ← rebuild col
  .ok array.data.toColumn

/-- `download`: `rebuild_batch` of the downloaded bytes, or the host batch. -/
def download (batch : DeviceBatch) : Result RecordBatch :=
  match batch.inner with
  | .cuda resident => do
      let columns ← resident.columns.mapM rebuildColumn
      RecordBatch.tryNew batch.schema columns
  | .host host => .ok host

/-! ## Operators -/

def filterProject (input : DeviceBatch) (predicate : Predicate) (projection : List ℕ) :
    Result DeviceBatch := do
  let batch ← input.cudaBatch
  let run ← Filter.filterProject .cuda backend.filter input.schema batch.numRows batch.columns
    predicate projection
  .ok ⟨⟨run.fields, []⟩, run.numRows, .cuda ⟨run.numRows, run.columns.map DeviceColumn.download⟩⟩

/-- The gathers of one side of a join, its first output column being column `first`. -/
def gatherSide (columns : List ColumnBytes) (first : ℕ) (rows : List ℕ) :
    Result (List DeviceColumn) :=
  (columns.zipIdx first).mapM fun entry =>
    gatherColumn .cuda backend.gathers entry.2 entry.1 (rows.getD · 0) rows.length

def hashJoin (left right : DeviceBatch) (leftKey rightKey : ℕ) :
    Result DeviceBatch := do
  let l ← left.cudaBatch
  let r ← right.cudaBatch
  let lk ← Filter.column l.columns leftKey
  let rk ← Filter.column r.columns rightKey
  requireInt64 lk.toColumn "left join key"
  requireInt64 rk.toColumn "right join key"
  let pairs ← joinPairs backend.join lk.toColumn.int64s rk.toColumn.int64s
  let leftColumns ← backend.gatherSide l.columns 0 (pairs.map Prod.fst)
  let rightColumns ← backend.gatherSide r.columns l.columns.length (pairs.map Prod.snd)
  .ok ⟨⟨left.schema.fields ++ right.schema.fields, []⟩, pairs.length,
    .cuda ⟨pairs.length, (leftColumns ++ rightColumns).map DeviceColumn.download⟩⟩

/-- `aggregate`, on the columns the bytes stand for; the result stays on the host. -/
def aggregate (input : DeviceBatch) (spec : AggregateSpec) : Result DeviceBatch := do
  let batch ← input.cudaBatch
  let view ← RecordBatch.tryNew input.schema (batch.columns.map ColumnBytes.toColumn)
  let out ← Cuda.aggregate backend.groups view spec
  .ok ⟨out.schema, out.numRows, .host out⟩

def maxSharedQueryBytes : ℕ := 48 * 1024

/-- The column `vector_distance` appends: `n` floats with the validity of the input. -/
def distanceColumn (col : ColumnBytes) (query : List F32) (metric : DistanceMetric) (n : ℕ) :
    ColumnBytes where
  dataType := .float32
  len := n
  values := Scatter.read (backend.distances col query metric) (n * 4)
  validity := col.validity
  childLen := 0

def vectorDistance (input : DeviceBatch) (columnIndex : ℕ) (query : List F32)
    (metric : DistanceMetric) (outputName : String) : Result DeviceBatch := do
  let batch ← input.cudaBatch
  let col ← Filter.column batch.columns columnIndex
  match vectorDimension col.dataType with
  | none => .error (.unsupported "cuda.vector_distance" ("column " ++ toString columnIndex ++
      " has type " ++ col.dataType.debug ++ "; expected FixedSizeList<Float32>"))
  | some dim =>
    if query.length ≠ dim then
      .error (.plan s!"query vector has {query.length} dimensions but the column has {dim}")
    else if maxSharedQueryBytes < dim * 4 then
      .error (.unsupported "cuda.vector_distance"
        s!"dimension {dim} exceeds the shared-memory staging limit")
    else do
      let n ← u32Len batch.numRows "vector input"
      let _ ← u32Len dim "vector dimension"
      if 0 < n then let _ ← u32Len (dim * 4) "shared memory"
      .ok ⟨⟨input.schema.fields ++ [⟨outputName, .float32, true, []⟩], []⟩, batch.numRows,
        .cuda ⟨batch.numRows, batch.columns ++ [backend.distanceColumn col query metric n]⟩⟩

end CudaBackend

end OxideLake
