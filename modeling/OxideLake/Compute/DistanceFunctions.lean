import OxideLake.Device.Distance

/-!
# The distance functions

`l2_distance` and `cosine_distance` of `udf.rs`.  Each argument is an array with a row for every
row of the batch or a scalar that stands for all of them; a scalar's list is read at its row 0.
A row is `NULL` when one of its vectors is.  `invokeWithArgs_eq` says what a call returns.
-/

namespace OxideLake

open RowMajor

/-! ## Arguments -/

/-- The `ScalarValue`s a function tells apart. -/
inductive Scalar where
  | fixedSizeList (list : FixedSizeListArray)
  | utf8 (value : Option String)
  | largeUtf8 (value : Option String)
  | utf8View (value : Option String)
  | other (dataType : DataType)

def Scalar.dataType : Scalar → DataType
  | .fixedSizeList list => list.dataType
  | .utf8 _ => .utf8
  | .largeUtf8 _ => .foreign "LargeUtf8"
  | .utf8View _ => .foreign "Utf8View"
  | .other dataType => dataType

/-- `ColumnarValue`: an argument of a function. -/
inductive ColumnarValue where
  | array (ref : ArrayRef)
  | scalar (value : Scalar)

/-- A read that may panic. -/
def DataFusionError.orPanic {α : Type} : Option α → DFResult α
  | some value => .ok value
  | none => .error (.panicked "index out of bounds")

theorem DataFusionError.orPanic_eq_ok {α : Type} {x : Option α} {value : α}
    (h : orPanic x = .ok value) : x = some value := by
  cases x with
  | none => cases h
  | some v => exact congrArg some (Except.ok.inj h)

/-- A list argument and whether it is a scalar. -/
structure ListOperand where
  list : FixedSizeListArray
  isScalar : Bool

namespace ListOperand

variable (operand : ListOperand)

/-- The argument itself. -/
def value : ColumnarValue :=
  if operand.isScalar then .scalar (.fixedSizeList operand.list)
  else .array (.fixedSizeList operand.list)

/-- The row of the list that stands for a row of the batch. -/
def row (row : ℕ) : ℕ := if operand.isScalar then 0 else row

/-- The row's vector is not `NULL`. -/
def isValid (row : ℕ) : Bool := operand.list.isValid (operand.row row)

/-- The slots a row's vector is read from. -/
def slots (array : Float32Array) (row : ℕ) : List F32 :=
  operand.list.slotsFrom array (operand.list.start (operand.row row))

/-- An operand with a vector for every row. -/
structure Covers (array : Float32Array) (rows : ℕ) : Prop where
  float32 : operand.list.values = .float32 array
  row_lt : ∀ row < rows, operand.row row < operand.list.len

end ListOperand

/-! ## The functions -/

namespace DistanceUdf

def distanceUdfName : DistanceMetric → String
  | .l2 => "l2_distance"
  | .cosine => "cosine_distance"

def fixedSizeList (name : String) : ColumnarValue → DFResult ListOperand
  | .array (.fixedSizeList list) => .ok ⟨list, false⟩
  | .array (.other col _) =>
    .error (.execution (name ++ ": expected FixedSizeList, got " ++ col.dataType.debug))
  | .scalar (.fixedSizeList list) => .ok ⟨list, true⟩
  | .scalar other =>
    .error (.execution (name ++ ": expected FixedSizeList, got " ++ other.dataType.debug))

def floatValues (name : String) (list : FixedSizeListArray) :
    DFResult (List F32 × ℕ) :=
  match list.values with
  | .other itemType _ _ => .error (.execution
      (name ++ ": vector elements are " ++ itemType.debug ++ ", expected Float32"))
  | .float32 array =>
    if list.valueLength.toInt < 0 then .error (.execution (name ++ ": negative list size"))
    else .ok (array.values, list.dim)

def slice (values : List F32) (list : FixedSizeListArray) (row dim : ℕ) :
    DFResult (List F32) :=
  DataFusionError.orPanic (sliceOf values (list.start row) dim)

variable (ops : Float32Ops) (metric : DistanceMetric)

/-- The closure `distance`. -/
def distance (a b : ListOperand) (aVals bVals : List F32) (aDim bDim row : ℕ) :
    DFResult (Option F32) := do
  let aNull ← DataFusionError.orPanic (a.list.isNull (a.row row))
  if aNull then .ok none
  else do
    let bNull ← DataFusionError.orPanic (b.list.isNull (b.row row))
    if bNull then .ok none
    else do
      let sa ← slice aVals a.list (a.row row) aDim
      let sb ← slice bVals b.list (b.row row) bDim
      .ok (some (ops.distance metric sa sb))

/-- What a call returns: `ColumnarValue` again, of floats. -/
inductive Output where
  | array (values : List (Option F32))
  | scalar (value : Option F32)
  deriving DecidableEq

def invokeWithArgs (args : List ColumnarValue) (numberRows : ℕ) :
    DFResult Output :=
  let name := distanceUdfName metric
  match args with
  | [a, b] => do
      let a ← fixedSizeList name a
      let b ← fixedSizeList name b
      let (aVals, aDim) ← floatValues name a.list
      let (bVals, bDim) ← floatValues name b.list
      if aDim ≠ bDim then
        .error (.execution (name ++ ": vectors have " ++ toString aDim ++ " and " ++
          toString bDim ++ " dimensions"))
      else if a.isScalar && b.isScalar then do
        let value ← distance ops metric a b aVals bVals aDim bDim 0
        .ok (.scalar value)
      else do
        let values ← (List.range numberRows).mapM (distance ops metric a b aVals bVals aDim bDim)
        .ok (.array values)
  | args => .error (.execution (name ++ " takes 2 arguments, got " ++ toString args.length))

/-! ## What a call returns -/

/-- The distance of a row. -/
def distanceOf (a b : ListOperand) (aArray bArray : Float32Array) (row : ℕ) : Option F32 :=
  if a.isValid row && b.isValid row then
    some (ops.distance metric (a.slots aArray row) (b.slots bArray row))
  else none

section Calls

variable {ops metric} {a b : ListOperand} {aArray bArray : Float32Array} {rows row : ℕ}

theorem floatValues_eq (name : String) {list : FixedSizeListArray} {array : Float32Array}
    (h : list.values = .float32 array) : floatValues name list = .ok (array.values, list.dim) := by
  rw [floatValues, h]
  exact if_neg (not_lt.mpr list.valueLength_nonneg)

theorem distance_eq (ha : a.Covers aArray rows) (hb : b.Covers bArray rows) (hrow : row < rows) :
    distance ops metric a b aArray.values bArray.values a.list.dim b.list.dim row =
      .ok (distanceOf ops metric a b aArray bArray row) := by
  have halt := ha.row_lt row hrow
  have hblt := hb.row_lt row hrow
  rw [distance, FixedSizeListArray.isNull_of_lt halt, FixedSizeListArray.isNull_of_lt hblt, slice,
    slice, FixedSizeListArray.sliceOf_start ha.float32 halt,
    FixedSizeListArray.sliceOf_start hb.float32 hblt, distanceOf, ListOperand.isValid,
    ListOperand.isValid]
  cases a.list.isValid (a.row row) with
  | false => rfl
  | true => cases b.list.isValid (b.row row) <;> rfl

theorem fixedSizeList_value (name : String) (operand : ListOperand) :
    fixedSizeList name operand.value = .ok operand := by
  obtain ⟨list, isScalar⟩ := operand
  cases isScalar <;> rfl

/-- **A call on two vectors of one dimension** that are not both scalars gives a distance a row. -/
theorem invokeWithArgs_eq (ha : a.Covers aArray rows) (hb : b.Covers bArray rows)
    (hdim : a.list.dim = b.list.dim) (harray : (a.isScalar && b.isScalar) = false) :
    invokeWithArgs ops metric [a.value, b.value] rows =
      .ok (.array ((List.range rows).map (distanceOf ops metric a b aArray bArray))) := by
  have hrows : ∀ row ∈ List.range rows,
      distance ops metric a b aArray.values bArray.values a.list.dim b.list.dim row =
        .ok (distanceOf ops metric a b aArray bArray row) :=
    fun row hrow => distance_eq ha hb (List.mem_range.mp hrow)
  rw [invokeWithArgs]
  simp only [fixedSizeList_value, Partial.ok_bind, floatValues_eq _ ha.float32,
    floatValues_eq _ hb.float32]
  rw [if_neg (not_not.mpr hdim), harray, if_neg Bool.false_ne_true, Partial.mapM_eq_ok_map hrows]
  rfl

end Calls

end DistanceUdf

end OxideLake
