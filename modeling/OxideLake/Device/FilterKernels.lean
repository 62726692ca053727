import OxideLake.Device.Columns
import OxideLake.Device.Cuda.Host
import OxideLake.Device.Kernels
import OxideLake.Foundations.Compaction

/-!
# The device filter

`filter_project` of `cuda/ops.rs` and `dispatch_filter_project` of `metal.rs` run the same
pipeline: a byte mask for every comparison, the conjunction of the masks, the number of
selected rows of every block, an exclusive scan of those on the host, a scatter of the
selected row indices and a gather of every projected column's values and validity bits.

The versions differ inside a block.  CUDA counts with `__syncthreads_count` and ranks with a
scan by doubling offsets; Metal sums over SIMD groups of 32 lanes, which then add to a
shared total in some order.  They also differ in the unit a gather copies by and in when
the width of a row is checked.

A launch is the list of the stores of its threads.  A device says in which order the
stores of each launch take effect and what each fresh buffer holds.
-/

namespace OxideLake

namespace Filter

open Scatter Compaction Bytes Cuda

/-- The device versions of the pipeline. -/
inductive Api where
  | cuda
  | metal
  deriving DecidableEq

/-! ## Launches -/

/-- `grid_for`, and the threadgroups of `dispatch`: at least one block of 256 threads. -/
def gridFor (n : ℕ) : ℕ := max ((n + 255) / 256) 1

/-- The threads of a grid by block and place in the block. -/
def threads (blocks : ℕ) : List (ℕ × ℕ) :=
  (List.range blocks).flatMap fun b => (List.range 256).map fun t => (b, t)

/-- `blockIdx.x * blockDim.x + threadIdx.x` on `u32`. -/
def threadIndex (thread : ℕ × ℕ) : ℕ := (thread.1 * 256 + thread.2) % 2 ^ 32

/-- A buffer after the launch that fills it: the stores as they took effect, and what it
holds. -/
structure Stored (α : Type) where
  writes : List (ℕ × α)
  contents : ℕ → α

/-- A fresh buffer and the order in which the stores of its launch take effect. -/
structure Fresh (α : Type) extends StoreOrder α where
  fresh : ℕ → α

namespace Fresh

variable {α : Type} (buffer : Fresh α)

/-- The buffer after a launch. -/
def launch (writes : List (ℕ × α)) : Stored α :=
  ⟨buffer.order writes, scatter buffer.fresh (buffer.order writes)⟩

/-- The buffer without a launch. -/
def untouched : Stored α := ⟨[], buffer.fresh⟩

end Fresh

/-- One run's buffers: the masks by the path of their predicate node, the gathered values
and validity by output column.  `adds` is the order in which the SIMD groups of a
threadgroup add their sums, and `compareF64` the comparison of doubles by operator code. -/
structure FilterDevice where
  masks : List Bool → Fresh UInt8
  counts : Fresh ℕ
  indices : Fresh ℕ
  values : ℕ → Fresh UInt8
  validity : ℕ → Fresh UInt8
  adds : ℕ → List ℕ
  adds_perm : ∀ b, (adds b).Perm (List.range 8)
  compareF64 : ℕ → F64 → F64 → Bool

/-! ## The mask -/

/-- The operator code of `leaf_mask` and `mask`. -/
def opCode : Comparison → ℕ
  | .eq => 0
  | .lt => 1
  | .ltEq => 2
  | .gt => 3
  | .gtEq => 4

/-- The `switch` of `oxide_compare_i64`. -/
def compareCode (op : ℕ) (v literal : Int64) : Bool :=
  match op with
  | 0 => v == literal
  | 1 => decide (v < literal)
  | 2 => decide (v ≤ literal)
  | 3 => decide (v > literal)
  | _ => decide (v ≥ literal)

/-- A thread of `oxide_compare_i64` or `oxide_compare_f64`; `test` is the comparison of
the row's value with the literal. -/
def compareThread (col : ColumnBytes) (test : ℕ → Bool) (n i : ℕ) : List (ℕ × UInt8) :=
  if n ≤ i then []
  else if !col.isValid i then [(i, 0)]
  else [(i, if test i then 1 else 0)]

/-- `oxide_compare_i64`. -/
def compareI64 (col : ColumnBytes) (op : ℕ) (literal : Int64) (n i : ℕ) : List (ℕ × UInt8) :=
  compareThread col
    (fun i => compareCode op (Int64.ofNat (leNat (slice col.values (i * 8) 8))) literal) n i

/-- `oxide_compare_f64`. -/
def compareF64 (device : FilterDevice) (col : ColumnBytes) (op : ℕ) (literal : F64) (n i : ℕ) :
    List (ℕ × UInt8) :=
  compareThread col
    (fun i => device.compareF64 op (BitVec.ofNat 64 (leNat (slice col.values (i * 8) 8)))
      literal) n i

/-- `oxide_mask_and`. -/
def maskAnd (a b : ℕ → UInt8) (n i : ℕ) : List (ℕ × UInt8) :=
  if n ≤ i then [] else [(i, a i &&& b i)]

/-- The stores of a one-thread-a-row kernel over `n` rows. -/
def rowLaunch {α : Type} (kernel : ℕ → List (ℕ × α)) (n : ℕ) : List (ℕ × α) :=
  (threads (gridFor n)).flatMap fun thread => kernel (threadIndex thread)

def column (columns : List ColumnBytes) (index : ℕ) : Result ColumnBytes :=
  match columns[index]? with
  | some col => .ok col
  | none => .error (columnOutOfRange index columns.length)

variable (api : Api)

/-- `leaf_mask`, and the comparison case of Metal's `mask`. -/
def leafMask (device : FilterDevice) (path : List Bool) (col : ColumnBytes)
    (op : Comparison) (literal : Literal) (n : ℕ) : Result (Stored UInt8) :=
  match api with
  | .cuda =>
    if col.dataType = literal.dataType then
      match literal with
      | .int64 v => .ok ((device.masks path).launch (rowLaunch (compareI64 col (opCode op) v n) n))
      | .float64 v =>
        .ok ((device.masks path).launch (rowLaunch (compareF64 device col (opCode op) v n) n))
    else .error (.unsupported "cuda.filter" ("column has type " ++ col.dataType.debug ++
      " but the literal is " ++ literal.dataType.debug))
  | .metal =>
    match col.dataType, literal with
    | .int64, .int64 v =>
      .ok ((device.masks path).launch (rowLaunch (compareI64 col (opCode op) v n) n))
    | dt, lit => .error (.unsupported "metal.filter" ("column type " ++ dt.debug ++
        " vs literal " ++ lit.dataType.debug ++ ": Metal v1 compares Int64 only"))

/-- `evaluate_mask`, and Metal's `mask`. -/
def evaluateMask (api : Api) (device : FilterDevice) (columns : List ColumnBytes) (n : ℕ) :
    List Bool → Predicate → Result (Stored UInt8)
  | path, .compare idx op literal => do
      let col ← column columns idx
      leafMask api device path col op literal n
  | path, .and left right => do
      let l ← evaluateMask api device columns n (false :: path) left
      let r ← evaluateMask api device columns n (true :: path) right
      .ok ((device.masks path).launch (rowLaunch (maskAnd l.contents r.contents n) n))

/-! ## Compaction -/

/-- The flag of a thread in `oxide_block_count` and `oxide_scatter_indices`. -/
def Selected (mask : ℕ → UInt8) (n i : ℕ) : Prop := i < n ∧ mask i ≠ 0

instance (mask : ℕ → UInt8) (n : ℕ) : DecidablePred (Selected mask n) :=
  fun _ => inferInstanceAs (Decidable (_ ∧ _))

/-- The flags of a block. -/
abbrev Flag (mask : ℕ → UInt8) (n b t : ℕ) : Prop := Selected mask n (threadIndex (b, t))

/-- `oxide_block_count`: `__syncthreads_count`, or the sums of the SIMD groups, added up. -/
def blockCount (device : FilterDevice) (mask : ℕ → UInt8) (n b : ℕ) : ℕ :=
  match api with
  | .cuda => Nat.count (Flag mask n b) 256
  | .metal => ((device.adds b).map (Compaction.blockCount (Flag mask n b) 32)).sum

/-- The rank of a flagged thread in its block: the inclusive scan less one, or the totals of
the SIMD groups before and the exclusive prefix sum of the lanes. -/
def blockRank (mask : ℕ → UInt8) (n b t : ℕ) : ℕ :=
  match api with
  | .cuda => hillisSteele 8 (fun t => if Flag mask n b t then 1 else 0) t - 1
  | .metal => groupedRank (Flag mask n b) 32 t

/-- `oxide_scatter_indices`. -/
def scatterIndices (mask : ℕ → UInt8) (n : ℕ) (offsets : List ℕ) (thread : ℕ × ℕ) :
    List (ℕ × ℕ) :=
  if Flag mask n thread.1 thread.2 then
    [(offsets.getD thread.1 0 + blockRank api mask n thread.1 thread.2, threadIndex thread)]
  else []

/-- `compact`: the selected row indices and how many there are. -/
def compact (device : FilterDevice) (mask : ℕ → UInt8) (n : ℕ) :
    Result (Stored ℕ × ℕ) := do
  let counts := device.counts.launch
    ((List.range (gridFor n)).map fun b => (b, blockCount api device mask n b))
  let (offsets, total) ← exclusiveScan (read counts.contents (gridFor n))
  .ok (if 0 < total then
      device.indices.launch ((threads (gridFor n)).flatMap (scatterIndices api mask n offsets))
    else device.indices.untouched, total)

/-! ## Gathering -/

/-- The copy loop of `oxide_gather_fixed` in units of `unit` bytes. -/
def copyRow (unit width : ℕ) (src : List UInt8) (row j : ℕ) : List (ℕ × UInt8) :=
  (List.range (width / unit)).flatMap fun k => (List.range unit).map fun byte =>
    (j * width + k * unit + byte, src.getD (row * width + k * unit + byte) 0)

/-- `oxide_gather_fixed`. -/
def gatherFixed (src : List UInt8) (width : ℕ) (indices : ℕ → ℕ) (nOut j : ℕ) :
    List (ℕ × UInt8) :=
  if nOut ≤ j then []
  else match api with
    | .cuda =>
      if width % 8 = 0 then copyRow 8 width src (indices j) j
      else if width % 4 = 0 then copyRow 4 width src (indices j) j
      else copyRow 1 width src (indices j) j
    | .metal => copyRow 1 width src (indices j) j

/-- The bit loop of `oxide_gather_validity`: it breaks behind the last row. -/
def validityLoop (valid : ℕ → Bool) (nOut byte : ℕ) : ℕ → ℕ → ℕ → ℕ
  | 0, _, out => out
  | left + 1, bit, out =>
    if nOut ≤ byte * 8 + bit then out
    else validityLoop valid nOut byte left (bit + 1)
      (if valid (byte * 8 + bit) then out ||| 1 <<< bit else out)

/-- `oxide_gather_validity`: one thread a byte; `n_out + 7` is a `u32`. -/
def gatherValidity (src : List UInt8) (indices : ℕ → ℕ) (nOut byte : ℕ) : List (ℕ × UInt8) :=
  if (nOut + 7) % 2 ^ 32 / 8 ≤ byte then []
  else [(byte, UInt8.ofNat (validityLoop (fun j => bit src (indices j)) nOut byte 8 0 0))]

/-- `CudaColumn` and `MetalColumn`, as a gather leaves them. -/
structure DeviceColumn where
  dataType : DataType
  len : ℕ
  childLen : ℕ
  valuesLen : ℕ
  values : Stored UInt8
  validity : Option (Stored UInt8)

/-- `download_column`. -/
def DeviceColumn.download (col : DeviceColumn) : ColumnBytes where
  dataType := col.dataType
  len := col.len
  values := read col.values.contents col.valuesLen
  validity := col.validity.map fun bits => read bits.contents ((col.len + 7) / 8)
  childLen := col.childLen

/-- The gathered column: both kernels are launched only when there are rows. -/
def gathered (device : FilterDevice) (out : ℕ) (col : ColumnBytes) (indices : ℕ → ℕ)
    (width total : ℕ) : DeviceColumn where
  dataType := col.dataType
  len := total
  childLen := total * (vectorDimension col.dataType).getD 0
  valuesLen := total * width
  values :=
    if 0 < total then
      (device.values out).launch (rowLaunch (gatherFixed api col.values width indices total) total)
    else (device.values out).untouched
  validity := col.validity.map fun src =>
    if 0 < total then
      (device.validity out).launch (rowLaunch (gatherValidity src indices total) ((total + 7) / 8))
    else (device.validity out).untouched

/-- `gather_column`, and Metal's `gather`, which checks the width only for a launch. -/
def gatherColumn (device : FilterDevice) (out : ℕ) (col : ColumnBytes)
    (indices : ℕ → ℕ) (total : ℕ) : Result DeviceColumn := do
  let width ← rowWidth col.dataType
  match api with
  | .cuda =>
    let width ← u32Len width "row width"
    let total ← u32Len total "gather output"
    if col.validity.isSome ∧ 0 < total then
      let _ ← u32Len ((total + 7) / 8) "validity bytes"
      .ok (gathered .cuda device out col indices width total)
    else .ok (gathered .cuda device out col indices width total)
  | .metal =>
    let total ← u32Len total "gather output"
    if 0 < total then
      let width ← u32Len width "row width"
      .ok (gathered .metal device out col indices width total)
    else .ok (gathered .metal device out col indices width total)

/-! ## The pipeline -/

/-- `field`, and the field lookup of `dispatch_filter_project`. -/
def field (api : Api) (schema : Schema) (index : ℕ) : Result Field :=
  match schema.fields[index]? with
  | some field => .ok field
  | none =>
    match api with
    | .cuda => .error (.plan ("column index " ++ toString index ++ " out of range for schema " ++
        schema.display))
    | .metal => .error (.plan ("column index " ++ toString index ++ " out of range"))

/-- What a run of the pipeline leaves: the output batch, and the index buffer. -/
structure FilterRun where
  fields : List Field
  numRows : ℕ
  columns : List DeviceColumn
  indices : Stored ℕ

/-- `filter_project` of `cuda/ops.rs` and `dispatch_filter_project` of `metal.rs` on the
device columns of a batch. -/
def filterProject (device : FilterDevice) (schema : Schema) (numRows : ℕ)
    (columns : List ColumnBytes) (predicate : Predicate) (projection : List ℕ) :
    Result FilterRun := do
  let n ← u32Len numRows "filter input"
  let fields ← projection.mapM (field api schema)
  -- the projection is checked before anything is launched
  let _ ← projection.mapM (column columns)
  let mask ← evaluateMask api device columns n [] predicate
  let (indices, total) ← compact api device mask.contents n
  let gathered ← projection.zipIdx.mapM fun entry => do
    let col ← column columns entry.1
    gatherColumn api device entry.2 col indices.contents total
  .ok ⟨fields, total, gathered, indices⟩

end Filter

end OxideLake
