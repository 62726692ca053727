import Mathlib

/-!
# Arrow types, fields and cells

The part of Arrow's type system the engine branches on.  `Int64`, `Float64`,
`Float32` and `FixedSizeList` are the types a device can hold; every other Arrow
type is only ever copied around on the host, so it is carried by its name.

Floats are bit patterns.  A vector cell keeps the raw slot of every item next to
the item's own validity, because the distance kernels read the raw slots.
-/

namespace OxideLake

/-- The bit pattern of an Arrow `Float64` value. -/
abbrev F64 := BitVec 64

/-- The bit pattern of an Arrow `Float32` value. -/
abbrev F32 := BitVec 32

/-- Key-value metadata of a field or a schema, in key order. -/
abbrev Metadata := List (String × String)

/-- An Arrow data type.  `fixedSizeList` carries its item field inline: name,
type, nullability and metadata, then the list size (an `i32` in Arrow). -/
inductive DataType where
  | int64
  | float64
  | float32
  | utf8
  | fixedSizeList (itemName : String) (itemType : DataType) (itemNullable : Bool)
      (itemMetadata : Metadata) (size : Int)
  | foreign (name : String)
  deriving DecidableEq, Repr

/-- An Arrow field. -/
structure Field where
  name : String
  dataType : DataType
  nullable : Bool
  metadata : Metadata := []
  deriving DecidableEq, Repr

/-- An Arrow schema: ordered fields plus schema-level metadata. -/
structure Schema where
  fields : List Field
  metadata : Metadata := []
  deriving DecidableEq, Repr

namespace Schema

/-- Number of fields. -/
def width (schema : Schema) : Nat := schema.fields.length

/-- `Schema::project`: the selected fields in order, schema metadata kept; an
index past the last field is an error. -/
def project (schema : Schema) (indices : List Nat) : Option Schema :=
  (indices.mapM fun i => schema.fields[i]?).map fun fields => ⟨fields, schema.metadata⟩

end Schema

/-- `vector_dimension`: `n` for a `FixedSizeList<Float32, n>` with `n > 0`. -/
def vectorDimension : DataType → Option Nat
  | .fixedSizeList _ itemType _ _ n =>
    if itemType = .float32 ∧ 0 < n then some n.toNat else none
  | _ => none

/-- One item slot of a vector: the raw value and whether the item is valid. -/
structure ListItem where
  raw : F32
  valid : Bool
  deriving DecidableEq, Repr

/-- One non-null Arrow value. -/
inductive Cell where
  | int64 (value : Int64)
  | float64 (value : F64)
  | float32 (value : F32)
  | vector (items : List ListItem)
  | utf8 (value : String)
  | foreign (payload : List UInt8)
  deriving DecidableEq

namespace Cell

/-- The cells an array of a given type may hold. -/
def hasType : Cell → DataType → Bool
  | .int64 _, .int64 => true
  | .float64 _, .float64 => true
  | .float32 _, .float32 => true
  | .utf8 _, .utf8 => true
  | .vector items, .fixedSizeList _ .float32 _ _ n => (items.length : Int) == n
  | .foreign _, .fixedSizeList _ itemType _ _ _ => itemType != .float32
  | .foreign _, .foreign _ => true
  | _, _ => false

/-- The `Int64` payload, when there is one. -/
def int64? : Cell → Option Int64
  | .int64 v => some v
  | _ => none

/-- The `Float64` payload, when there is one. -/
def float64? : Cell → Option F64
  | .float64 v => some v
  | _ => none

end Cell

/-- The values of an `Int64Array`. -/
abbrev Int64Array := List (Option Int64)

/-- The values of a `Float64Array`. -/
abbrev Float64Array := List (Option F64)

end OxideLake
