import OxideLake.Arrow.FixedSizeList
import OxideLake.Device.Kernels

/-!
# Distances of stored vectors

`l2`, `cosine` and `vector_distance` of `cpu/kernels.rs` over the storage of a vector column: the
row loop finds a row's slots by its `value_offset` and reads them raw.  Float operations are
parameters; a sum adds from left to right.

On columns whose offsets fit an `i32` the kernel is the one over logical columns
(`StoredBatch.vectorDistance_eq_kernel`).
-/

namespace OxideLake

open RowMajor FixedSizeListArray Partial

/-! ## Metrics -/

/-- The `f32` operations the metrics use. -/
structure Float32Ops where
  add : F32 → F32 → F32
  sub : F32 → F32 → F32
  mul : F32 → F32 → F32
  div : F32 → F32 → F32
  sqrt : F32 → F32
  /-- the sum of no values -/
  emptySum : F32
  /-- `== 0.0` -/
  isZero : F32 → Bool

namespace Float32Ops

variable (ops : Float32Ops)

/-- `sum::<f32>()`. -/
def sum (xs : List F32) : F32 := xs.foldl ops.add ops.emptySum

/-- `l2`: Euclidean distance. -/
def l2 (a b : List F32) : F32 :=
  ops.sqrt (ops.sum (List.zipWith (fun x y => ops.mul (ops.sub x y) (ops.sub x y)) a b))

/-- `cosine`: `1 - cos(θ)`, NaN when either norm is zero. -/
def cosine (a b : List F32) : F32 :=
  let dot := ops.sum (List.zipWith ops.mul a b)
  let na := ops.sqrt (ops.sum (a.map fun x => ops.mul x x))
  let nb := ops.sqrt (ops.sum (b.map fun y => ops.mul y y))
  if ops.isZero na || ops.isZero nb then 0x7FC00000#32
  else ops.sub 0x3F800000#32 (ops.div dot (ops.mul na nb))

/-- The distance of a metric. -/
def distance (metric : DistanceMetric) (a b : List F32) : F32 :=
  match metric with
  | .l2 => ops.l2 a b
  | .cosine => ops.cosine a b

/-- Multiplication and the squared difference do not depend on the order of their operands. -/
structure Commutes : Prop where
  mul_comm : ∀ x y, ops.mul x y = ops.mul y x
  sqDiff_comm : ∀ x y, ops.mul (ops.sub x y) (ops.sub x y) = ops.mul (ops.sub y x) (ops.sub y x)

variable {ops}

theorem l2_comm (h : ops.Commutes) (a b : List F32) : ops.l2 a b = ops.l2 b a := by
  rw [l2, l2, List.zipWith_comm_of_comm h.sqDiff_comm]

theorem cosine_comm (h : ops.Commutes) (a b : List F32) : ops.cosine a b = ops.cosine b a := by
  unfold cosine
  dsimp only
  rw [List.zipWith_comm_of_comm h.mul_comm, Bool.or_comm, h.mul_comm (ops.sqrt _) (ops.sqrt _)]

theorem distance_comm (h : ops.Commutes) (metric : DistanceMetric) (a b : List F32) :
    ops.distance metric a b = ops.distance metric b a := by
  cases metric with
  | l2 => exact l2_comm h a b
  | cosine => exact cosine_comm h a b

end Float32Ops

/-- The float unit with these metrics. -/
def FloatUnit.withOps (fpu : FloatUnit) (ops : Float32Ops) : FloatUnit :=
  { fpu with l2 := ops.l2, cosine := ops.cosine }

/-! ## The kernel -/

/-- A read that may panic. -/
def EngineError.orPanic {α : Type} : Option α → Result α
  | some value => .ok value
  | none => .error (.panicked "index out of bounds")

theorem EngineError.orPanic_eq_ok {α : Type} {x : Option α} {value : α}
    (h : orPanic x = .ok value) : x = some value := by
  cases x with
  | none => cases h
  | some v => exact congrArg some (Except.ok.inj h)

namespace Kernels

variable (ops : Float32Ops)

/-- The body of the row loop of `vector_distance`. -/
def rowDistance (list : FixedSizeListArray) (raw : List F32) (dim : ℕ) (query : List F32)
    (metric : DistanceMetric) (row : ℕ) : Result (Option F32) := do
  let null ← EngineError.orPanic (list.isNull row)
  if null then .ok none
  else do
    let v ← EngineError.orPanic (sliceOf raw (list.start row) dim)
    .ok (some (ops.distance metric v query))

end Kernels

/-- `vector_distance`: appends a nullable `Float32` distance column. -/
def StoredBatch.vectorDistance (ops : Float32Ops) (stored : StoredBatch) (columnIndex : ℕ)
    (query : List F32) (metric : DistanceMetric) (outputName : String) :
    Result RecordBatch :=
  match stored.arrays[columnIndex]? with
  | none => .error (columnOutOfRange columnIndex stored.batch.numColumns)
  | some (.other col _) => .error (.unsupported "cpu.vector_distance"
      ("column " ++ toString columnIndex ++ " has type " ++ col.dataType.debug ++
        "; expected FixedSizeList<Float32>"))
  | some (.fixedSizeList list) =>
    match list.values with
    | .other itemType _ _ => .error (.unsupported "cpu.vector_distance"
        ("vector element type is " ++ itemType.debug ++ "; expected Float32"))
    | .float32 array =>
      if list.valueLength.toInt < 0 then .error (.plan "negative list size")
      else if (query.length : ℤ) ≠ list.valueLength.toInt then
        .error (.plan ("query vector has " ++ toString query.length ++
          " dimensions but the column has " ++ toString list.valueLength.toInt))
      else do
        let distances ← (List.range stored.numRows).mapM
          (Kernels.rowDistance ops list array.values list.dim query metric)
        RecordBatch.tryNew
          ⟨stored.batch.schema.fields ++ [⟨outputName, .float32, true, []⟩], []⟩
          (stored.batch.columns ++ [Column.ofFloat32 distances])

/-! ## What the kernel computes -/

/-- The distance the kernel gives a row: of the slots from the row's offset on. -/
def FixedSizeListArray.distanceAt (ops : Float32Ops) (list : FixedSizeListArray)
    (array : Float32Array) (query : List F32) (metric : DistanceMetric) (row : ℕ) : Option F32 :=
  if list.isValid row then
    some (ops.distance metric (list.slotsFrom array (list.start row)) query)
  else none

section Kernel

variable {ops : Float32Ops} {stored : StoredBatch} {list : FixedSizeListArray}
  {array : Float32Array} {query : List F32} {metric : DistanceMetric} {outputName : String}
  {c row : ℕ}

theorem rowDistance_eq (h : list.values = .float32 array) (hrow : row < list.len) :
    Kernels.rowDistance ops list array.values list.dim query metric row =
      .ok (list.distanceAt ops array query metric row) := by
  rw [Kernels.rowDistance, isNull_of_lt hrow,
    sliceOf_start h hrow, distanceAt]
  cases list.isValid row <;> rfl

/-- **The kernel on a vector column of the query's dimension** appends a distance a row. -/
theorem StoredBatch.vectorDistance_eq (hlist : stored.arrays[c]? = some (.fixedSizeList list))
    (h : list.values = .float32 array) (hquery : query.length = list.dim) :
    stored.vectorDistance ops c query metric outputName =
      RecordBatch.tryNew ⟨stored.batch.schema.fields ++ [⟨outputName, .float32, true, []⟩], []⟩
        (stored.batch.columns ++ [Column.ofFloat32
          ((List.range stored.numRows).map (list.distanceAt ops array query metric))]) := by
  have hrows : ∀ row ∈ List.range stored.numRows,
      Kernels.rowDistance ops list array.values list.dim query metric row =
        .ok (list.distanceAt ops array query metric row) := by
    intro row hrow
    refine rowDistance_eq h ?_
    rw [StoredBatch.len_eq (List.mem_of_getElem? hlist)]
    exact List.mem_range.mp hrow
  rw [vectorDistance, hlist]
  dsimp only
  rw [h]
  dsimp only
  rw [if_neg (not_lt.mpr list.valueLength_nonneg), list.valueLength_toInt,
    if_neg (not_not.mpr (congrArg Nat.cast hquery)), mapM_eq_ok_map hrows, ok_bind]

theorem distanceAt_eq_distance (fpu : FloatUnit) (h : list.values = .float32 array)
    (hrow : row < list.len) (hexact : list.isValid row = true → list.start row = row * list.dim) :
    list.distanceAt ops array query metric row =
      Kernels.distance (fpu.withOps ops) metric query (list.cell row) := by
  rw [distanceAt, cell_float32 h]
  split
  · next hvalid =>
    rw [hexact hvalid, ← items_raw h hrow]
    cases metric <;> rfl
  · rfl

theorem offset_lt {rows dim : ℕ} (hrow : row < rows) (h : rows * dim ≤ 2 ^ 31) :
    row * dim < 2 ^ 31 := by
  have hnext : row * dim + dim ≤ rows * dim :=
    Nat.succ_mul row dim ▸ Nat.mul_le_mul_right dim hrow
  rcases Nat.eq_zero_or_pos dim with rfl | hpos
  · rw [Nat.mul_zero]
    decide
  · omega

/-- **Where all offsets fit an `i32`, the kernel is the one over logical columns.** -/
theorem StoredBatch.vectorDistance_eq_kernel (fpu : FloatUnit)
    (hexact : ∀ list, stored.arrays[c]? = some (.fixedSizeList list) →
      stored.numRows * list.dim ≤ 2 ^ 31) :
    stored.vectorDistance ops c query metric outputName =
      Kernels.vectorDistance (fpu.withOps ops) stored.batch c query metric outputName := by
  have hcolumn : stored.batch.columns[c]? = (stored.arrays[c]?).map ArrayRef.toColumn := by
    rw [columns_batch, List.getElem?_map]
  cases harray : stored.arrays[c]? with
  | none =>
    rw [harray] at hcolumn
    rw [vectorDistance, harray, Kernels.vectorDistance, Kernels.column, hcolumn]
    rfl
  | some ref =>
    rw [harray] at hcolumn
    rw [Kernels.vectorDistance, Kernels.column, hcolumn]
    cases ref with
    | other col notList =>
      rw [vectorDistance, harray]
      dsimp only [Option.map_some, ArrayRef.toColumn]
      rw [ok_bind]
      split
      · next htype =>
        rw [htype] at notList
        cases notList
      · rfl
    | fixedSizeList list =>
      have hnonneg := list.valueLength_nonneg
      show _ = if list.values.valueType ≠ .float32 then _ else _
      cases hvalues : list.values with
      | other itemType notFloat bytes =>
        rw [vectorDistance, harray]
        dsimp only
        rw [hvalues]
        exact (if_pos notFloat).symm
      | float32 array =>
        show _ = if DataType.float32 ≠ .float32 then _ else _
        rw [if_neg (not_not.mpr rfl), if_neg (not_lt.mpr hnonneg), list.valueLength_toInt]
        by_cases hquery : query.length = list.dim
        · rw [if_neg (not_not.mpr (congrArg Nat.cast hquery)),
            vectorDistance_eq harray hvalues hquery]
          have hlen := len_eq (List.mem_of_getElem? harray)
          show _ = RecordBatch.tryNew _ (_ ++ [Column.ofFloat32 (List.map _
            ((List.range list.len).map list.cell))])
          rw [List.map_map, hlen]
          congr 3
          refine congrArg _ (List.map_congr_left fun row hrow => ?_)
          have hrow := List.mem_range.mp hrow
          refine distanceAt_eq_distance fpu hvalues (hlen ▸ hrow) fun _ => ?_
          exact start_eq (offset_lt hrow (hexact list harray))
        · have hquery : (query.length : ℤ) ≠ list.dim := mt Nat.cast_inj.mp hquery
          rw [if_pos hquery, vectorDistance, harray]
          dsimp only
          rw [hvalues]
          dsimp only
          rw [if_neg (not_lt.mpr hnonneg), list.valueLength_toInt, if_pos hquery]
          rfl

end Kernel

end OxideLake
