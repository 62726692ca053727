import OxideLake.Arrow.RecordBatch
import OxideLake.Core.Params
import OxideLake.Foundations.Binary64
import Mathlib

/-!
# The CPU reference kernels

`cpu/kernels.rs` defines the semantics the GPU kernels must match: filter and
projection, hash join, grouped aggregation and vector distance over host record
batches.

Float arithmetic is a parameter (`FloatUnit`): nothing below depends on how a
device rounds.  Float *comparison* in the filter is Arrow's total order on bit
patterns and is modelled exactly.
-/

namespace OxideLake

open Partial

variable {batch : RecordBatch}

/-- The float operations the kernels call. -/
structure FloatUnit where
  addF64 : F64 → F64 → F64
  minF64 : F64 → F64 → F64
  maxF64 : F64 → F64 → F64
  l2 : List F32 → List F32 → F32
  cosine : List F32 → List F32 → F32

namespace Column

theorem typed_map {α : Type} {dataType : DataType} {wrap : α → Cell}
    (hwrap : ∀ x, (wrap x).hasType dataType = true) (values : List (Option α)) :
    ∀ cell ∈ values.map (Option.map wrap), ∀ value ∈ cell, value.hasType dataType = true := by
  intro cell hcell value hvalue
  obtain ⟨v, -, rfl⟩ := List.mem_map.mp hcell
  obtain ⟨x, -, rfl⟩ := Option.map_eq_some_iff.mp (Option.mem_def.mp hvalue)
  exact hwrap x

/-- An `Int64Array`. -/
def ofInt64 (values : Int64Array) : Column where
  dataType := .int64
  cells := values.map fun v => v.map Cell.int64
  typed := typed_map (fun _ => rfl) values

/-- A `Float64Array`. -/
def ofFloat64 (values : Float64Array) : Column where
  dataType := .float64
  cells := values.map fun v => v.map Cell.float64
  typed := typed_map (fun _ => rfl) values

/-- A `Float32Array`. -/
def ofFloat32 (values : List (Option F32)) : Column where
  dataType := .float32
  cells := values.map fun v => v.map Cell.float32
  typed := typed_map (fun _ => rfl) values

/-- The values of an `Int64Array`. -/
def int64s (column : Column) : Int64Array :=
  column.cells.map fun cell => cell.bind Cell.int64?

/-- The values of a `Float64Array`. -/
def float64s (column : Column) : Float64Array :=
  column.cells.map fun cell => cell.bind Cell.float64?

@[simp] theorem length_int64s (column : Column) : column.int64s.length = column.len := by
  simp [int64s, len]

@[simp] theorem ofInt64_len (values : Int64Array) :
    (ofInt64 values).len = values.length := by
  simp [ofInt64, len]

@[simp] theorem int64s_ofInt64 (values : Int64Array) :
    (ofInt64 values).int64s = values := by
  simp only [int64s, ofInt64, List.map_map]
  conv_rhs => rw [← List.map_id values]
  refine List.map_congr_left fun v _ => ?_
  cases v <;> rfl

end Column

namespace Kernels

/-- `column`: a column by index. -/
def column (batch : RecordBatch) (index : Nat) : Result Column :=
  match batch.columns[index]? with
  | some column => .ok column
  | none => .error (columnOutOfRange index batch.numColumns)

/-- `int64_column`: a column by index that must be `Int64`, as its values. -/
def int64Column (batch : RecordBatch) (index : Nat) (role : String) :
    Result Int64Array := do
  let col ← column batch index
  if col.dataType = .int64 then .ok col.int64s
  else .error (.unsupported "cpu.int64_column"
    (role ++ " column " ++ toString index ++ " has type " ++ col.dataType.debug ++
      "; v1 supports Int64"))

theorem column_ok {index : Nat} {found : Column} (h : column batch index = .ok found) :
    batch.columns[index]? = some found := by
  rw [column] at h
  cases hget : batch.columns[index]? with
  | none => rw [hget] at h; cases h
  | some column' =>
    rw [hget] at h
    rw [Except.ok.inj h]

theorem int64Column_inv {index : Nat} {role : String} {values : Int64Array}
    (h : int64Column batch index role = .ok values) :
    ∃ col, batch.columns[index]? = some col ∧ col.dataType = .int64 ∧ values = col.int64s := by
  obtain ⟨col, hcol, h⟩ := bind_eq_ok_iff.mp h
  split at h
  · next htype => exact ⟨col, column_ok hcol, htype, (Except.ok.inj h).symm⟩
  · cases h

/-! ## Filter -/

/-- An `Int64` comparison. -/
def compareInt64 (op : Comparison) (a b : Int64) : Bool :=
  match op with
  | .eq => a == b
  | .lt => decide (a < b)
  | .ltEq => decide (a ≤ b)
  | .gt => decide (b < a)
  | .gtEq => decide (b ≤ a)

/-- A `Float64` comparison by the total order of bit patterns. -/
def compareTotal (op : Comparison) (a b : F64) : Bool :=
  match op with
  | .eq => Binary64.totalKey a == Binary64.totalKey b
  | .lt => decide (Binary64.totalKey a < Binary64.totalKey b)
  | .ltEq => decide (Binary64.totalKey a ≤ Binary64.totalKey b)
  | .gt => decide (Binary64.totalKey b < Binary64.totalKey a)
  | .gtEq => decide (Binary64.totalKey b ≤ Binary64.totalKey a)

/-- One cell against one literal of the cell's type. -/
def compareCell (op : Comparison) : Literal → Cell → Option Bool
  | .int64 b, .int64 a => some (compareInt64 op a b)
  | .float64 b, .float64 a => some (compareTotal op a b)
  | _, _ => none

/-- Three-valued `AND`. -/
def andKleene : Option Bool → Option Bool → Option Bool
  | some false, _ => some false
  | _, some false => some false
  | some true, some true => some true
  | _, _ => none

/-- `evaluate_predicate`: a boolean mask, `NULL` where the operand is. -/
def evaluatePredicate (batch : RecordBatch) : Predicate → Result (List (Option Bool))
  | .compare idx op literal => do
      let col ← column batch idx
      if col.dataType = literal.dataType then
        .ok (col.cells.map fun cell => cell.bind (compareCell op literal))
      else .error (.unsupported "cpu.filter"
        ("column " ++ toString idx ++ " has type " ++ col.dataType.debug ++
          " but the literal is " ++ literal.dataType.debug))
  | .and left right => do
      let l ← evaluatePredicate batch left
      let r ← evaluatePredicate batch right
      .ok (List.zipWith andKleene l r)

/-- `filter_project`: fused filter and projection. -/
def filterProject (batch : RecordBatch) (predicate : Predicate) (projection : List Nat) :
    Result RecordBatch := do
  let mask ← evaluatePredicate batch predicate
  let projected ← batch.project projection
  .ok (projected.filter mask)

/-! ## Hash join -/

def indexU32 (i : Nat) : Result Nat :=
  if i < 2 ^ 32 then .ok i else .error (.execution "batch exceeds u32::MAX rows")

end Kernels

/-- The order in which a hash map hands out its entries: any permutation. -/
structure MapOrder where
  order : List (Int64 × Nat) → List (Int64 × Nat)
  perm : ∀ entries, (order entries).Perm entries

/-- The build side of a hash join: each key's `(start, len)` range into a flat
row-index array grouped by key. -/
structure JoinTable where
  ranges : List (Int64 × Nat × Nat)
  rows : List Nat
  /-- Every range lies inside the row array. -/
  inRange : ∀ entry ∈ ranges, entry.2.1 + entry.2.2 ≤ rows.length

namespace JoinTable

/-- Pass 1, one key: `*counts.entry(key).or_insert(0) += 1` on a `u32`. -/
def bump (key : Int64) : List (Int64 × Nat) → List (Int64 × Nat)
  | [] => [(key, 1)]
  | (k, count) :: rest =>
    if k = key then (k, (count + 1) % 2 ^ 32) :: rest else (k, count) :: bump key rest

/-- Pass 1: rows per key. -/
def countKeys (keys : Int64Array) : List (Int64 × Nat) :=
  (keys.filterMap id).foldl (fun counts key => bump key counts) []

/-- Pass 2: prefix offsets, with a checked `u32` total. -/
def assignRanges : List (Int64 × Nat) → Nat → Result (List (Int64 × Nat × Nat) × Nat)
  | [], next => .ok ([], next)
  | (key, count) :: rest, next =>
    if next + count < 2 ^ 32 then do
      let (ranges, total) ← assignRanges rest (next + count)
      .ok ((key, next, count) :: ranges, total)
    else .error (.execution "build side exceeds u32::MAX rows")

/-- Pass 3: scatter the row indices, one cursor a key. -/
def scatterRows : Nat → Int64Array → (Int64 → Option Nat) → List Nat →
    Result (List Nat)
  | _, [], _, rows => .ok rows
  | j, none :: keys, cursor, rows => scatterRows (j + 1) keys cursor rows
  | j, some key :: keys, cursor, rows =>
    match cursor key with
    | none => scatterRows (j + 1) keys cursor rows
    | some slot => do
        let row ← Kernels.indexU32 j
        if slot < rows.length then
          scatterRows (j + 1) keys
            (Function.update cursor key (some ((slot + 1) % 2 ^ 32))) (rows.set slot row)
        else .error (.panicked "index out of bounds")

theorem scatterRows_length {keys : Int64Array} {j : Nat} {cursor : Int64 → Option Nat}
    {rows out : List Nat} (h : scatterRows j keys cursor rows = .ok out) :
    out.length = rows.length := by
  induction keys generalizing j cursor rows with
  | nil => cases h; rfl
  | cons key keys ih =>
    cases key with
    | none => exact ih h
    | some key =>
      rw [scatterRows] at h
      split at h
      · exact ih h
      · obtain ⟨row, -, h⟩ := bind_eq_ok_iff.mp h
        split at h
        · simpa using ih h
        · cases h

theorem assignRanges_inRange {counts : List (Int64 × Nat)} {next total : Nat}
    {ranges : List (Int64 × Nat × Nat)} (h : assignRanges counts next = .ok (ranges, total)) :
    next ≤ total ∧ ∀ entry ∈ ranges, entry.2.1 + entry.2.2 ≤ total := by
  induction counts generalizing next ranges with
  | nil => cases h; simp
  | cons entry rest ih =>
    obtain ⟨key, count⟩ := entry
    rw [assignRanges] at h
    split at h
    · obtain ⟨⟨tail, total'⟩, htail, h⟩ := bind_eq_ok_iff.mp h
      cases h
      obtain ⟨hle, hrange⟩ := ih htail
      refine ⟨by omega, fun entry hentry => ?_⟩
      rcases List.mem_cons.mp hentry with rfl | hentry
      · exact hle
      · exact hrange entry hentry
    · cases h

/-- The three passes on the key values. -/
def ofKeys (order : MapOrder) (keys : Int64Array) : Result JoinTable :=
  match hranges : assignRanges (order.order (countKeys keys)) 0 with
  | .error e => .error e
  | .ok (ranges, total) =>
    match hrows : scatterRows 0 keys (fun key => (ranges.lookup key).map Prod.fst)
        (List.replicate total 0) with
    | .error e => .error e
    | .ok rows =>
      .ok ⟨ranges, rows, fun entry hentry => by
        rw [scatterRows_length hrows, List.length_replicate]
        exact (assignRanges_inRange hranges).2 entry hentry⟩

/-- `JoinTable::build`: hashes the `Int64` key column; `NULL` keys are skipped. -/
def build (order : MapOrder) (batch : RecordBatch) (key : Nat) : Result JoinTable := do
  let keys ← Kernels.int64Column batch key "build join key"
  ofKeys order keys

/-- `JoinTable::matches`: the build rows whose key equals `key`. -/
def matching (table : JoinTable) (key : Int64) : List Nat :=
  match table.ranges.lookup key with
  | some (start, len) => (table.rows.drop start).take len
  | none => []

end JoinTable

namespace Kernels

/-- The probe loop of `hash_join_probe`: `(left, right)` row pairs in probe order. -/
def probePairs (table : JoinTable) : Nat → Int64Array →
    Result (List (Nat × Nat))
  | _, [] => .ok []
  | i, none :: keys => probePairs table (i + 1) keys
  | i, some key :: keys =>
    if (table.matching key).isEmpty then probePairs table (i + 1) keys
    else do
      let i ← indexU32 i
      let rest ← probePairs table (i + 1) keys
      .ok ((table.matching key).map (fun j => (i, j)) ++ rest)

/-- One output column of `hash_join_probe`. -/
def joinColumn (left right : RecordBatch) (pairs : List (Nat × Nat)) (index : Nat) :
    Result (Field × Column) :=
  match (left.entries ++ right.entries)[index]? with
  | none => .error (.plan ("join projection index " ++ toString index ++ " out of range for " ++
      toString (left.numColumns + right.numColumns) ++ " columns"))
  | some (field, column) => do
      let array ← column.take (if index < left.numColumns then pairs.map fun pair => some pair.1
        else pairs.map fun pair => some pair.2)
      .ok (field, array)

/-- The output columns: `projection` over `left ++ right`, or every column. -/
def selectedColumns (left right : RecordBatch) : Option (List Nat) → List Nat
  | some indices => indices
  | none => List.range (left.numColumns + right.numColumns)

/-- `hash_join_probe`: probes `left` against a prebuilt table over `right`. -/
def hashJoinProbe (left : RecordBatch) (leftKey : Nat) (right : RecordBatch) (table : JoinTable)
    (projection : Option (List Nat)) : Result RecordBatch := do
  let keys ← int64Column left leftKey "left join key"
  let pairs ← probePairs table 0 keys
  let entries ← (selectedColumns left right projection).mapM (joinColumn left right pairs)
  RecordBatch.tryNew ⟨entries.map Prod.fst, []⟩ (entries.map Prod.snd)

/-- `hash_join`: builds the table for `right` and probes once. -/
def hashJoin (order : MapOrder) (left right : RecordBatch) (leftKey rightKey : Nat) :
    Result RecordBatch := do
  let table ← JoinTable.build order right rightKey
  hashJoinProbe left leftKey right table none

end Kernels

/-! ## Grouped aggregation -/

/-- The running state of one aggregate of one group. -/
inductive Acc where
  | i64 (count sum : Int) (min max : Int64)
  | f64 (count : Int) (sum min max : F64)
  deriving DecidableEq

/-- `acc_count`. -/
def Acc.count : Acc → Int
  | .i64 count _ _ _ => count
  | .f64 count _ _ _ => count

/-- One aggregate's input column. -/
inductive Input where
  | i (values : Int64Array)
  | f (values : Float64Array)

namespace Input

/-- `Acc::for_type` at the two types an input can have: an empty accumulator. -/
def fresh : Input → Acc
  | .i _ => .i64 0 0 Int64.maxValue Int64.minValue
  | .f _ => .f64 0 0#64 0x7FF0000000000000#64 0xFFF0000000000000#64

/-- One row folded into one accumulator; a `NULL` value changes nothing. -/
def accumulate (fpu : FloatUnit) (input : Input) (row : Nat) (acc : Acc) : Acc :=
  match acc, input with
  | .i64 count sum min max, .i values =>
    match (values[row]?).join with
    | some v => .i64 (count + 1) (sum + v.toInt) (Min.min min v) (Max.max max v)
    | none => acc
  | .f64 count sum min max, .f values =>
    match (values[row]?).join with
    | some v => .f64 (count + 1) (fpu.addF64 sum v) (fpu.minF64 min v) (fpu.maxF64 max v)
    | none => acc
  | _, _ => acc

end Input

namespace Kernels

/-- The input column of one aggregate. -/
def aggregateInput (batch : RecordBatch) (idx : Nat) : Result Input := do
  let col ← column batch idx
  match col.dataType with
  | .int64 => .ok (.i col.int64s)
  | .float64 => .ok (.f col.float64s)
  | other => .error (.unsupported "cpu.aggregate"
      ("aggregate input column " ++ toString idx ++ " has type " ++ other.debug ++
        "; v1 supports Int64 and Float64"))

theorem aggregateInput_inv {idx : Nat} {input : Input} (h : aggregateInput batch idx = .ok input) :
    ∃ col, batch.columns[idx]? = some col ∧
      (col.dataType = .int64 ∧ input = .i col.int64s ∨
        col.dataType = .float64 ∧ input = .f col.float64s) := by
  obtain ⟨col, hcol, h⟩ := bind_eq_ok_iff.mp h
  refine ⟨col, column_ok hcol, ?_⟩
  split at h
  · next htype => exact .inl ⟨htype, (Except.ok.inj h).symm⟩
  · next htype => exact .inr ⟨htype, (Except.ok.inj h).symm⟩
  · cases h

/-- A group: its key and one accumulator an aggregate. -/
abbrev Group := Option Int64 × List Acc

variable (fpu : FloatUnit)

/-- Every accumulator of a group takes one row. -/
def accumulateAll (inputs : List Input) (row : Nat) (accs : List Acc) :
    List Acc :=
  List.zipWith (fun acc input => input.accumulate fpu row acc) accs inputs

/-- One row of the grouping loop: the row's group is found or appended. -/
def accumulateRow (fpu : FloatUnit) (inputs : List Input) (key : Option Int64) (row : Nat) :
    List Group → List Group
  | [] => [(key, accumulateAll fpu inputs row (inputs.map Input.fresh))]
  | (k, accs) :: rest =>
    if k = key then (k, accumulateAll fpu inputs row accs) :: rest
    else (k, accs) :: accumulateRow fpu inputs key row rest

/-- The grouping loop: groups in order of first appearance. -/
def groupRows (inputs : List Input) (keys : Int64Array) :
    List Group :=
  (List.range keys.length).foldl
    (fun groups row => accumulateRow fpu inputs (keys[row]?).join row groups) []

/-- Output order of two group keys: ascending, `NULL` last. -/
def keyLe : Option Int64 → Option Int64 → Bool
  | some x, some y => decide (x ≤ y)
  | none, some _ => false
  | some _, none => true
  | none, none => true

/-- The groups in output order. -/
def sortGroups (groups : List Group) : List Group :=
  groups.insertionSort fun a b => keyLe a.1 b.1

/-- The `SUM` of one group: `NULL` without values, an error outside `Int64`. -/
def sumI64 : Option Acc → Result (Option Int64)
  | some (.i64 count sum _ _) =>
    if 0 < count then
      if -2 ^ 63 ≤ sum ∧ sum < 2 ^ 63 then .ok (some (Int64.ofInt sum))
      else .error (.execution "SUM overflowed Int64")
    else .ok none
  | _ => .ok none

/-- The output column of aggregate `a` over the sorted groups. -/
def aggregateColumn (func : AggregateFunction) (input : Input) (groups : List Group) (a : Nat) :
    Result Column :=
  let acc : Group → Option Acc := fun group => group.2[a]?
  match func, input with
  | .count, _ =>
    .ok (Column.ofInt64 (groups.map fun g => (acc g).map fun c => Int64.ofInt c.count))
  | .sum, .i _ => do
      let out ← groups.mapM fun g => sumI64 (acc g)
      .ok (Column.ofInt64 out)
  | .sum, .f _ =>
    .ok (Column.ofFloat64 (groups.map fun g =>
      match acc g with
      | some (.f64 count sum _ _) => if 0 < count then some sum else none
      | _ => none))
  | .min, .i _ =>
    .ok (Column.ofInt64 (groups.map fun g =>
      match acc g with
      | some (.i64 count _ min _) => if 0 < count then some min else none
      | _ => none))
  | .max, .i _ =>
    .ok (Column.ofInt64 (groups.map fun g =>
      match acc g with
      | some (.i64 count _ _ max) => if 0 < count then some max else none
      | _ => none))
  | .min, .f _ =>
    .ok (Column.ofFloat64 (groups.map fun g =>
      match acc g with
      | some (.f64 count _ min _) => if 0 < count then some min else none
      | _ => none))
  | .max, .f _ =>
    .ok (Column.ofFloat64 (groups.map fun g =>
      match acc g with
      | some (.f64 count _ _ max) => if 0 < count then some max else none
      | _ => none))

/-- The name of field `index`. -/
def fieldName (batch : RecordBatch) (index : Nat) : String :=
  ((batch.schema.fields[index]?).map Field.name).getD ""

/-- One aggregate's output field and column. -/
def aggregateEntry (batch : RecordBatch) (groups : List Group)
    (entry : (AggregateFunction × Nat) × Input × Nat) : Result (Field × Column) := do
  let ((func, idx), input, a) := entry
  let array ← aggregateColumn func input groups a
  .ok (⟨func.name ++ "(" ++ fieldName batch idx ++ ")", array.dataType, true, []⟩, array)

/-- `aggregate`: grouped `SUM/COUNT/MIN/MAX` over one `Int64` key. -/
def aggregate (batch : RecordBatch) (spec : AggregateSpec) :
    Result RecordBatch := do
  let keys ← int64Column batch spec.groupBy "group key"
  let inputs ← spec.aggregates.mapM fun entry => aggregateInput batch entry.2
  let groups := sortGroups (groupRows fpu inputs keys)
  let keyColumn := Column.ofInt64 (groups.map Prod.fst)
  let entries ← (spec.aggregates.zip inputs.zipIdx).mapM (aggregateEntry batch groups)
  RecordBatch.tryNew
    ⟨⟨fieldName batch spec.groupBy, .int64, true, []⟩ :: entries.map Prod.fst, []⟩
    (keyColumn :: entries.map Prod.snd)

/-! ## Vector distance -/

/-- The distance of one row, `NULL` for a `NULL` vector. -/
def distance (fpu : FloatUnit) (metric : DistanceMetric) (query : List F32) :
    Option Cell → Option F32
  | some (.vector items) =>
    some (match metric with
      | .l2 => fpu.l2 (items.map ListItem.raw) query
      | .cosine => fpu.cosine (items.map ListItem.raw) query)
  | _ => none

/-- `vector_distance`: appends a nullable `Float32` distance column. -/
def vectorDistance (batch : RecordBatch) (columnIndex : Nat)
    (query : List F32) (metric : DistanceMetric) (outputName : String) :
    Result RecordBatch := do
  let col ← column batch columnIndex
  match col.dataType with
  | .fixedSizeList _ itemType _ _ size =>
    if itemType ≠ .float32 then
      .error (.unsupported "cpu.vector_distance"
        ("vector element type is " ++ itemType.debug ++ "; expected Float32"))
    else if size < 0 then .error (.plan "negative list size")
    else if (query.length : Int) ≠ size then
      .error (.plan s!"query vector has {query.length} dimensions but the column has {size}")
    else
      RecordBatch.tryNew
        ⟨batch.schema.fields ++ [⟨outputName, .float32, true, []⟩], []⟩
        (batch.columns ++ [Column.ofFloat32 (col.cells.map (distance fpu metric query))])
  | other => .error (.unsupported "cpu.vector_distance"
      ("column " ++ toString columnIndex ++ " has type " ++ other.debug ++
        "; expected FixedSizeList<Float32>"))

end Kernels

end OxideLake
