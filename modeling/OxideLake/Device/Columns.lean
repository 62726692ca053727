import OxideLake.Arrow.RecordBatch
import OxideLake.Foundations.Bytes

/-!
# Column bytes

`columns.rs` moves columns as raw Arrow buffers: fixed-width rows packed from row 0 and
an optional validity bitmap.  `ColumnBytes` is that form, `toColumn` the array it stands
for.  The bytes of an item are all a vector has on this side: the items of a vector that
was moved are valid.
-/

namespace OxideLake

open Bytes

variable {dt : DataType}

def primitiveWidth : DataType → Option ℕ
  | .int64 => some 8
  | .float64 => some 8
  | .float32 => some 4
  | _ => none

def isDeviceEligible (dt : DataType) : Bool :=
  (primitiveWidth dt).isSome || (vectorDimension dt).isSome

theorem isDeviceEligible_iff : isDeviceEligible dt = true ↔
    (∃ width, primitiveWidth dt = some width) ∨ ∃ dim, vectorDimension dt = some dim := by
  simp only [isDeviceEligible, Bool.or_eq_true, Option.isSome_iff_exists]

/-- `row_width`: bytes a row. -/
def rowWidth (dt : DataType) : Result ℕ :=
  match primitiveWidth dt with
  | some width => .ok width
  | none =>
    match vectorDimension dt with
    | some dim => .ok (dim * 4)
    | none => .error (.unsupported "device.column_type"
        (dt.debug ++ " columns are not device-resident in v1"))

/-- `ColumnBytes`, and the columns of a batch on a device. -/
structure ColumnBytes where
  dataType : DataType
  len : ℕ
  values : List UInt8
  validity : Option (List UInt8)
  childLen : ℕ
  deriving DecidableEq

/-- The items of a vector from the bytes of its row. -/
def vectorItems (dim : ℕ) (row : List UInt8) : List ListItem :=
  (List.range dim).map fun k => ⟨BitVec.ofNat 32 (leNat (slice row (k * 4) 4)), true⟩

/-- The value of a row. -/
def cellOfBytes (dt : DataType) (row : List UInt8) : Option Cell :=
  match dt with
  | .int64 => some (.int64 (Int64.ofNat (leNat row)))
  | .float64 => some (.float64 (BitVec.ofNat 64 (leNat row)))
  | .float32 => some (.float32 (BitVec.ofNat 32 (leNat row)))
  | dt => (vectorDimension dt).map fun dim => .vector (vectorItems dim row)

theorem vectorDimension_eq_some {dim : ℕ} (h : vectorDimension dt = some dim) :
    ∃ name nullable metadata, dt = .fixedSizeList name .float32 nullable metadata dim ∧
    0 < dim := by
  cases dt with
  | fixedSizeList name itemType nullable metadata n =>
    rw [vectorDimension] at h
    split at h
    · next hcond =>
      obtain ⟨rfl, hpos⟩ := hcond
      cases h
      exact ⟨name, nullable, metadata, by rw [Int.toNat_of_nonneg hpos.le], by omega⟩
    · cases h
  | _ => cases h

theorem cellOfBytes_vector {dim : ℕ} (h : vectorDimension dt = some dim) (row : List UInt8) :
    cellOfBytes dt row = some (.vector (vectorItems dim row)) := by
  obtain ⟨name, nullable, metadata, rfl, -⟩ := vectorDimension_eq_some h
  show (vectorDimension _).map _ = _
  rw [h]
  rfl

theorem cellOfBytes_hasType {row : List UInt8} {cell : Cell} (h : cellOfBytes dt row = some cell) :
    cell.hasType dt = true := by
  unfold cellOfBytes at h
  split at h
  · cases h; rfl
  · cases h; rfl
  · cases h; rfl
  · obtain ⟨dim, hdim, rfl⟩ := Option.map_eq_some_iff.mp h
    obtain ⟨name, nullable, metadata, rfl, -⟩ := vectorDimension_eq_some hdim
    simp [Cell.hasType, vectorItems]

namespace ColumnBytes

variable (col : ColumnBytes)

/-- Bytes a row, zero for a type without a fixed width. -/
def width : ℕ := (rowWidth col.dataType).toOption.getD 0

theorem width_eq {col : ColumnBytes} {width : ℕ} (h : rowWidth col.dataType = .ok width) :
    col.width = width := by
  rw [ColumnBytes.width, h]
  rfl

/-- `oxide_is_valid`: no bitmap means all valid. -/
def isValid (row : ℕ) : Bool :=
  match col.validity with
  | none => true
  | some bits => bit bits row

/-- The bytes of a row. -/
def rowBytes (row : ℕ) : List UInt8 := slice col.values (row * col.width) col.width

/-- The value of a row, `NULL` when its bit is unset. -/
def cell (row : ℕ) : Option Cell :=
  if col.isValid row then cellOfBytes col.dataType (col.rowBytes row) else none

/-- The array the bytes stand for. -/
def toColumn : Column where
  dataType := col.dataType
  cells := (List.range col.len).map col.cell
  typed := by
    intro cell hcell value hvalue
    obtain ⟨row, -, rfl⟩ := List.mem_map.mp hcell
    rw [Option.mem_def, ColumnBytes.cell] at hvalue
    split at hvalue
    · exact cellOfBytes_hasType hvalue
    · cases hvalue

@[simp] theorem toColumn_len : col.toColumn.len = col.len := by
  simp [toColumn, Column.len]

/-- The column has a fixed width and its buffers hold all its rows. -/
structure WellFormed : Prop where
  width : rowWidth col.dataType = .ok col.width
  values : col.len * col.width ≤ col.values.length
  validity : ∀ bits, col.validity = some bits → (col.len + 7) / 8 ≤ bits.length

end ColumnBytes

end OxideLake
