import OxideLake.Arrow.Types

/-!
# Errors

`EngineError` is the library error of the engine and `DataFusionError` the part
of DataFusion's error type its plan constructors return.  Only the variant
matters to control flow — `isUnsupported` is what sends a batch to the CPU
reference — but the texts are kept as the source writes them.

Rust code can also leave a function by panicking (an index out of bounds).  The
model keeps that as one more way to fail, `panicked`, so that a theorem about a
result being `ok` also says that nothing panicked.
-/

namespace OxideLake

/-- `EngineError`, plus `panicked` for unwinding out of the call. -/
inductive EngineError where
  | plan (detail : String)
  | execution (detail : String)
  | format (detail : String)
  | unsupported (feature detail : String)
  | device (detail : String)
  | arrow (detail : String)
  | io (notFound : Bool) (detail : String)
  | panicked (detail : String)
  deriving DecidableEq, Repr

/-- `Result`, with its default error. -/
abbrev Result := Except EngineError

/-- `EngineError::is_unsupported`: the signal operators use to fall back. -/
def EngineError.isUnsupported : EngineError → Bool
  | .unsupported _ _ => true
  | _ => false

/-- The error of an index past the last column of a batch. -/
def columnOutOfRange (index numColumns : Nat) : EngineError :=
  .plan ("column index " ++ toString index ++ " out of range for a batch with " ++
    toString numColumns ++ " columns")

/-- The text of `Schema::project` for the first index past the last field. -/
def projectOutOfBounds (indices : List Nat) (width : Nat) : String :=
  "project index " ++ toString ((indices.find? (width ≤ ·)).getD 0) ++
    " out of bounds, max field " ++ toString width

/-- The text inside an `ArrowError`. -/
def EngineError.arrowText : EngineError → String
  | .arrow detail => detail
  | _ => ""

/-- The `DataFusionError` variants the plan constructors, the plan codec and the SQL functions
produce. -/
inductive DataFusionError where
  | plan (detail : String)
  | execution (detail : String)
  | arrow (detail : String)
  | internal (detail : String)
  | panicked (detail : String)
  deriving DecidableEq, Repr

/-- The `Result` of `datafusion::error`. -/
abbrev DFResult := Except DataFusionError

mutual

/-- The `Debug` rendering of a data type, as error texts embed it. -/
def DataType.debug : DataType → String
  | .int64 => "Int64"
  | .float64 => "Float64"
  | .float32 => "Float32"
  | .utf8 => "Utf8"
  | .fixedSizeList name itemType nullable metadata n =>
    "FixedSizeList(" ++ Field.debugParts name itemType nullable metadata ++ ", " ++
      toString n ++ ")"
  | .foreign name => name

/-- The `Debug` rendering of a list's item field: a name other than `item`, the
type, and the nullability and metadata when they are set. -/
def Field.debugParts (name : String) (dataType : DataType) (nullable : Bool)
    (metadata : Metadata) : String :=
  "Field \x7b " ++ (if name = "item" then "" else "name: \"" ++ name ++ "\", ") ++
    "data_type: " ++ dataType.debug ++ (if nullable then ", nullable: true" else "") ++
    (if metadata.isEmpty then "" else ", metadata: " ++ reprStr metadata) ++ " \x7d"

end

/-- The rendering of a schema in error texts. -/
def Schema.display (schema : Schema) : String :=
  ", ".intercalate (schema.fields.map fun field =>
    Field.debugParts field.name field.dataType field.nullable field.metadata)

end OxideLake
