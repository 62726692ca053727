import Mathlib
import OxideLake.Arrow.RecordBatch
import OxideLake.Foundations.RowMajor

/-!
# Fixed-size lists

`FixedSizeListArray` as Arrow keeps it: a validity bitmap of the rows and one child array with
the items of all rows.  A slice of a list array slices the child, so the items of row `r` are
the `value_length` slots of the child from slot `r * value_length` on.  `value_offset` computes
that product in an `i32` and wraps; the callers take a negative offset for `0`.

The slots of the child are raw: there is a bit pattern under a `NULL` item and in the slots of a
`NULL` row as well.  `toColumn` is the array seen logically.
-/

namespace OxideLake

open List RowMajor

/-- A position of a validity bitmap; without a bitmap all positions are valid. -/
def validBit (nulls : Option (List Bool)) (i : ℕ) : Bool :=
  match nulls with
  | none => true
  | some bits => (bits[i]?).getD false

/-- `Float32Array`: the raw slots and their validity. -/
structure Float32Array where
  values : List F32
  nulls : Option (List Bool)
  nulls_len : ∀ bits ∈ nulls, bits.length = values.length

/-- A slot as an item of a list. -/
def Float32Array.item (array : Float32Array) (i : ℕ) : ListItem :=
  ⟨(array.values[i]?).getD 0, validBit array.nulls i⟩

/-- The child of a list array; of a child that is no `Float32Array` the rows are carried as
bytes. -/
inductive ListValues where
  | float32 (array : Float32Array)
  | other (itemType : DataType) (notFloat : itemType ≠ .float32) (row : ℕ → List UInt8)

def ListValues.valueType : ListValues → DataType
  | .float32 _ => .float32
  | .other itemType _ _ => itemType

/-- The child has the items of `rows` rows, and not of one more. -/
def ListValues.Holds (rows dim : ℕ) : ListValues → Prop
  | .float32 array => rows * dim ≤ array.values.length ∧
      (0 < dim → array.values.length < (rows + 1) * dim)
  | .other _ _ _ => True

structure FixedSizeListArray where
  itemName : String
  itemNullable : Bool
  itemMetadata : Metadata
  valueLength : Int32
  values : ListValues
  nulls : Option (List Bool)
  len : ℕ
  valueLength_nonneg : 0 ≤ valueLength.toInt
  nulls_len : ∀ bits ∈ nulls, bits.length = len
  values_hold : values.Holds len valueLength.toNatClampNeg

namespace FixedSizeListArray

variable (list : FixedSizeListArray)

/-- Items a row, as a `usize`. -/
def dim : ℕ := list.valueLength.toNatClampNeg

def dataType : DataType :=
  .fixedSizeList list.itemName list.values.valueType list.itemNullable list.itemMetadata
    list.valueLength.toInt

/-- `is_null`; a position past the end of the bitmap panics. -/
def isNull (row : ℕ) : Option Bool :=
  match list.nulls with
  | none => some false
  | some bits => (bits[row]?).map fun valid => !valid

/-- `value_offset`: the first slot of a row, in an `i32`. -/
def valueOffset (row : ℕ) : Int32 := Int32.ofNat row * list.valueLength

/-- `usize::try_from(list.value_offset(row)).unwrap_or(0)`. -/
def start (row : ℕ) : ℕ := (list.valueOffset row).toNatClampNeg

end FixedSizeListArray

/-! ## Rows -/

namespace FixedSizeListArray

variable {list : FixedSizeListArray} {row : ℕ} {array : Float32Array}

/-- The row is not `NULL`. -/
def isValid (list : FixedSizeListArray) (row : ℕ) : Bool := validBit list.nulls row

theorem isNull_of_lt (h : row < list.len) : list.isNull row = some !list.isValid row := by
  unfold isNull isValid validBit
  cases hnulls : list.nulls with
  | none => rfl
  | some bits =>
    have hlt : row < bits.length := (list.nulls_len bits hnulls).symm ▸ h
    simp only [getElem?_eq_getElem hlt, Option.map_some, Option.getD_some]

theorem isNull_of_le (h : list.len ≤ row) :
    list.isNull row = none ∨ list.isNull row = some false ∧ list.nulls = none := by
  unfold isNull
  cases hnulls : list.nulls with
  | none => exact .inr ⟨rfl, rfl⟩
  | some bits =>
    have hle : bits.length ≤ row := (list.nulls_len bits hnulls).symm ▸ h
    simp only [getElem?_eq_none hle, Option.map_none, true_or]

theorem valueLength_toInt (list : FixedSizeListArray) : list.valueLength.toInt = list.dim :=
  (Int.toNat_of_nonneg list.valueLength_nonneg).symm

theorem dim_lt (list : FixedSizeListArray) : list.dim < 2 ^ 31 := by
  have hlt := list.valueLength.toInt_lt
  rw [valueLength_toInt] at hlt
  omega

theorem valueOffset_toInt (list : FixedSizeListArray) (row : ℕ) :
    (list.valueOffset row).toInt = ((row * list.dim : ℕ) : ℤ).bmod (2 ^ 32) := by
  rw [valueOffset, Int32.toInt_mul, Int32.toInt_ofNat', valueLength_toInt, Int.bmod_mul_bmod,
    Nat.cast_mul]
  rfl

theorem start_le (list : FixedSizeListArray) (row : ℕ) : list.start row ≤ row * list.dim := by
  show (list.valueOffset row).toInt.toNat ≤ _
  rw [valueOffset_toInt, Int.bmod_def]
  split <;> omega

theorem start_eq (h : row * list.dim < 2 ^ 31) : list.start row = row * list.dim := by
  show (list.valueOffset row).toInt.toNat = _
  rw [valueOffset_toInt, Int.bmod_def]
  split <;> omega

theorem start_zero (list : FixedSizeListArray) : list.start 0 = 0 := by
  have hle := list.start_le 0
  rwa [Nat.zero_mul, Nat.le_zero] at hle

theorem row_le (h : list.values = .float32 array) (hrow : row < list.len) :
    row * list.dim + list.dim ≤ array.values.length := by
  have hholds := list.values_hold
  rw [h] at hholds
  calc row * list.dim + list.dim = (row + 1) * list.dim := (Nat.succ_mul row list.dim).symm
    _ ≤ list.len * list.dim := Nat.mul_le_mul_right _ hrow
    _ ≤ array.values.length := hholds.1

/-- The slots from a position on, as many as a row has. -/
def slotsFrom (list : FixedSizeListArray) (array : Float32Array) (position : ℕ) : List F32 :=
  (array.values.drop position).take list.dim

theorem sliceOf_of_le {position : ℕ} (h : position + list.dim ≤ array.values.length) :
    sliceOf array.values position list.dim = some (list.slotsFrom array position) :=
  sliceOf_eq_some h

/-- **No row of an array is read past the end of its child.** -/
theorem sliceOf_start (h : list.values = .float32 array) (hrow : row < list.len) :
    sliceOf array.values (list.start row) list.dim =
      some (list.slotsFrom array (list.start row)) := by
  have hstart := list.start_le row
  have hend := row_le h hrow
  exact sliceOf_of_le (by omega)

theorem slotsFrom_eq_map {position : ℕ} (h : position + list.dim ≤ array.values.length) :
    list.slotsFrom array position =
      (range list.dim).map fun k => (array.item (position + k)).raw := by
  apply ext_getElem?
  intro k
  rw [slotsFrom, getElem?_take, getElem?_drop, getElem?_map]
  by_cases hk : k < list.dim
  · have hlt : position + k < array.values.length := by omega
    simp [Float32Array.item, hk, hlt]
  · simp [hk]

/-! ## The array seen logically -/

variable (list) in
/-- The items of a row. -/
def items (array : Float32Array) (row : ℕ) : List ListItem :=
  (range list.dim).map fun k => array.item (row * list.dim + k)

variable (list) in
/-- The value of a row, `NULL` when its bit is unset. -/
def cell (row : ℕ) : Option Cell :=
  if list.isValid row then
    some (match list.values with
      | .float32 array => .vector (list.items array row)
      | .other _ _ bytes => .foreign (bytes row))
  else none

theorem cell_float32 (h : list.values = .float32 array) (row : ℕ) :
    list.cell row = if list.isValid row then some (.vector (list.items array row)) else none := by
  rw [cell, h]

theorem items_raw (h : list.values = .float32 array) (hrow : row < list.len) :
    (list.items array row).map ListItem.raw = list.slotsFrom array (row * list.dim) := by
  rw [items, slotsFrom_eq_map (row_le h hrow), map_map]
  rfl

/-- The array as a column. -/
def toColumn (list : FixedSizeListArray) : Column where
  dataType := list.dataType
  cells := (range list.len).map list.cell
  typed := by
    intro cell hcell value hvalue
    obtain ⟨row, -, rfl⟩ := mem_map.mp hcell
    rw [Option.mem_def, FixedSizeListArray.cell] at hvalue
    split at hvalue
    · cases hvalue
      unfold dataType
      cases list.values with
      | float32 array => simp [Cell.hasType, ListValues.valueType, items, valueLength_toInt]
      | other itemType notFloat bytes => simp [Cell.hasType, ListValues.valueType, notFloat]
    · cases hvalue

@[simp] theorem toColumn_len (list : FixedSizeListArray) : list.toColumn.len = list.len := by
  rw [Column.len, toColumn, length_map, length_range]

end FixedSizeListArray

/-! ## Slices -/

/-- `Float32Array::slice`. -/
def Float32Array.slice (array : Float32Array) (offset length : ℕ) : Float32Array where
  values := (array.values.drop offset).take length
  nulls := array.nulls.map fun bits => (bits.drop offset).take length
  nulls_len := by
    intro bits hbits
    obtain ⟨source, hsource, rfl⟩ := Option.map_eq_some_iff.mp (Option.mem_def.mp hbits)
    rw [length_take, length_take, length_drop, length_drop,
      array.nulls_len source hsource]

/-- The child of a slice of rows. -/
def ListValues.slice (offset length dim : ℕ) : ListValues → ListValues
  | .float32 array => .float32 (array.slice (offset * dim) (length * dim))
  | .other itemType notFloat bytes => .other itemType notFloat fun row => bytes (offset + row)

namespace FixedSizeListArray

variable {list : FixedSizeListArray}

/-- `FixedSizeListArray::slice`. -/
def slice (list : FixedSizeListArray) (offset length : ℕ) (h : offset + length ≤ list.len) :
    FixedSizeListArray where
  itemName := list.itemName
  itemNullable := list.itemNullable
  itemMetadata := list.itemMetadata
  valueLength := list.valueLength
  values := list.values.slice offset length list.dim
  nulls := list.nulls.map fun bits => (bits.drop offset).take length
  len := length
  valueLength_nonneg := list.valueLength_nonneg
  nulls_len := by
    intro bits hbits
    obtain ⟨source, hsource, rfl⟩ := Option.map_eq_some_iff.mp (Option.mem_def.mp hbits)
    rw [length_take, length_drop, list.nulls_len source hsource]
    omega
  values_hold := by
    have hholds := list.values_hold
    cases hvalues : list.values with
    | other itemType notFloat bytes => trivial
    | float32 array =>
      rw [hvalues] at hholds
      obtain ⟨hle, -⟩ := hholds
      have hend : offset * list.dim + length * list.dim ≤ array.values.length :=
        (Nat.add_mul offset length list.dim ▸ Nat.mul_le_mul_right _ h).trans hle
      have hlen : ((array.values.drop (offset * list.dim)).take (length * list.dim)).length =
          length * list.dim := by
        rw [length_take, length_drop]
        omega
      refine ⟨hlen.ge, fun hpos => ?_⟩
      show ((array.values.drop (offset * list.dim)).take (length * list.dim)).length <
        (length + 1) * list.dim
      rw [hlen, Nat.succ_mul]
      exact Nat.lt_add_of_pos_right hpos

end FixedSizeListArray

theorem oneItem_pos : 0 < Int32.toInt 1 := by decide

theorem twoItems_pos : 0 < Int32.toInt 2 := by decide

/-- An array over valid items, its rows by their bits. -/
def FixedSizeListArray.ofRows (size : Int32) (hsize : 0 < size.toInt) (values : List F32)
    (valid : List Bool) (h : values.length = valid.length * size.toNatClampNeg) :
    FixedSizeListArray where
  itemName := "item"
  itemNullable := true
  itemMetadata := []
  valueLength := size
  values := .float32 ⟨values, none, nofun⟩
  nulls := some valid
  len := valid.length
  valueLength_nonneg := hsize.le
  nulls_len := fun _ hbits => Option.some.inj hbits ▸ rfl
  values_hold := ⟨h.ge, fun hpos => by
    rw [h, Nat.succ_mul]
    exact Nat.lt_add_of_pos_right hpos⟩

/-! ## Arrays and stored batches -/

/-- The type is a `FixedSizeList`. -/
def DataType.isFixedSizeList : DataType → Bool
  | .fixedSizeList _ _ _ _ _ => true
  | _ => false

/-- `ArrayRef`, as far as it is downcast: a list array or a column of another type. -/
inductive ArrayRef where
  | fixedSizeList (list : FixedSizeListArray)
  | other (column : Column) (notList : column.dataType.isFixedSizeList = false)

/-- The array seen logically. -/
def ArrayRef.toColumn : ArrayRef → Column
  | .fixedSizeList list => list.toColumn
  | .other column _ => column

/-- A record batch with the storage of its lists. -/
structure StoredBatch where
  metadata : Metadata
  entries : List (Field × ArrayRef)
  numRows : ℕ
  fits : ∀ entry ∈ entries, FieldFits numRows entry.1 entry.2.toColumn
  numRows_lt : numRows < 2 ^ 63

namespace StoredBatch

variable (stored : StoredBatch)

/-- The arrays of the batch. -/
def arrays : List ArrayRef := stored.entries.map Prod.snd

/-- The batch seen logically. -/
def batch : RecordBatch where
  metadata := stored.metadata
  entries := stored.entries.map fun entry => (entry.1, entry.2.toColumn)
  numRows := stored.numRows
  fits := by
    intro entry hentry
    obtain ⟨source, hsource, rfl⟩ := mem_map.mp hentry
    exact stored.fits source hsource
  numRows_lt := stored.numRows_lt

theorem columns_batch : stored.batch.columns = stored.arrays.map ArrayRef.toColumn := by
  rw [RecordBatch.columns, batch, arrays, map_map, map_map]
  rfl

variable {stored}

theorem len_eq {list : FixedSizeListArray} (h : ArrayRef.fixedSizeList list ∈ stored.arrays) :
    list.len = stored.numRows := by
  obtain ⟨entry, hentry, heq⟩ := mem_map.mp h
  have hlen := (stored.fits entry hentry).2.1
  rw [heq] at hlen
  rw [← hlen]
  exact list.toColumn_len.symm

end StoredBatch

end OxideLake
