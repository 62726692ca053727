import OxideLake.Device.Cuda.Aggregation
import OxideLake.Foundations.TwoPhase
import OxideLake.Planner.CpuPath
import Mathlib

/-!
# The rows of an aggregation over `Int64` columns

`COUNT`, `SUM`, `MIN` and `MAX` each combine what they read off the rows of a group: a one
or a zero for `COUNT`, the values themselves for the others.  The reference kernel keeps a
count, an exact sum, a minimum and a maximum of every group instead, and turns them into
results in the end.  The rows it emits are shown to be a grouping of its input in the sense
of `TwoPhase`, whenever no `SUM` leaves `Int64`.
-/

namespace OxideLake

open List TwoPhase Partial RecordBatch Row

variable {D : Type}

variable {batch : RecordBatch} {values : Int64Array}

/-! ## The aggregates -/

namespace AggregateFunction

/-- How results are combined; `+` wraps. -/
def op : AggregateFunction → Int64 → Int64 → Int64
  | .count => (· + ·)
  | .sum => (· + ·)
  | .min => Min.min
  | .max => Max.max

/-- What is read off one value. -/
def reads : AggregateFunction → Option Int64 → Option Int64
  | .count, value => some (if value.isSome then 1 else 0)
  | _, value => value

variable (func : AggregateFunction)

theorem op_assoc (a b c : Int64) :
    func.op (func.op a b) c = func.op a (func.op b c) := by
  cases func with
  | count | sum => exact Int64.add_assoc a b c
  | min => simp only [op]; grind
  | max =>
    have hmax : ∀ a b : Int64, Max.max a b = if a ≤ b then b else a := fun _ _ => rfl
    simp only [op]
    grind

theorem op_comm (a b : Int64) : func.op a b = func.op b a := by
  cases func with
  | count | sum => exact Int64.add_comm a b
  | min => simp only [op]; grind
  | max =>
    have hmax : ∀ a b : Int64, Max.max a b = if a ≤ b then b else a := fun _ _ => rfl
    simp only [op]
    grind

/-- What changes no result. -/
def unit : AggregateFunction → Int64
  | .count => 0
  | .sum => 0
  | .min => Int64.maxValue
  | .max => Int64.minValue

theorem op_unit (a : Int64) : func.op a func.unit = a := by
  cases func with
  | count | sum => exact Int64.add_zero a
  | min =>
    show (if a ≤ Int64.maxValue then a else Int64.maxValue) = a
    rw [if_pos (Int64.le_maxValue a)]
  | max =>
    show (if a ≤ Int64.minValue then Int64.minValue else a) = a
    split
    · next hle => exact Int64.le_antisymm (Int64.minValue_le a) hle
    · rfl

/-- The aggregate of a value of every row. -/
def aggregateOf {α : Type} (func : AggregateFunction) (value : α → Option Int64) :
    Aggregate α Int64 where
  value := fun row => func.reads (value row)
  op := func.op
  assoc := func.op_assoc
  comm := func.op_comm

end AggregateFunction

variable (spec : AggregateSpec)

/-- The aggregates of a spec over `Int64` columns. -/
def AggregateSpec.overRows : List (Aggregate Row Int64) :=
  spec.aggregates.map fun entry => entry.1.aggregateOf (key · entry.2)

/-- The exact sum of the values there are. -/
def exactSum (values : Int64Array) : Int := (values.reduceOption.map Int64.toInt).sum

theorem exactSum_perm {values' : Int64Array} (h : values.Perm values') :
    exactSum values = exactSum values' :=
  ((h.filterMap id).map Int64.toInt).sum_eq

/-- The range of `i64`. -/
def FitsInt64 (sum : Int) : Prop := -2 ^ 63 ≤ sum ∧ sum < 2 ^ 63

/-- Every group's `SUM`s fit `i64`. -/
def AggregateSpec.SumsFit (rows : List Row) : Prop :=
  ∀ entry ∈ spec.aggregates, entry.1 = .sum → ∀ key,
    FitsInt64 (exactSum ((ofKey (Row.key · spec.groupBy) rows key).map (Row.key · entry.2)))

/-- The output row of a group: its key, then its results. -/
def groupRow (group : Option Int64 × Int64Array) : Row :=
  (group.1 :: group.2).map (Option.map Cell.int64)

/-! ## Accumulators -/

namespace Kernels

variable (fpu : FloatUnit)

/-- **The accumulator of a list of rows**: the count, the exact sum, the minimum and the
maximum of the values there are. -/
theorem foldl_accumulate (values : Int64Array) (rows : List Nat)
    (count sum : Int) (min max : Int64) :
    let present := (rows.map fun row => (values[row]?).join).reduceOption
    rows.foldl (fun acc row => (Input.i values).accumulate fpu row acc) (.i64 count sum min max) =
      .i64 (count + present.length) (sum + (present.map Int64.toInt).sum)
        (present.foldl Min.min min) (present.foldl Max.max max) := by
  induction rows generalizing count sum min max with
  | nil => simp
  | cons row rows ih =>
    rw [foldl_cons, Cuda.accumulate_i64, map_cons]
    cases hvalue : (values[row]?).join with
    | none => exact ih count sum min max
    | some v =>
      simp only
      rw [ih, reduceOption_cons_of_some, length_cons, map_cons, sum_cons,
        foldl_cons, foldl_cons]
      congr 1
      · push_cast
        omega
      · omega

/-- What an accumulator is turned into. -/
def Finishes (func : AggregateFunction) (acc : Option Acc) (result : Option Int64) : Prop :=
  match func with
  | .count => (acc.map fun acc => Int64.ofInt acc.count) = result
  | .sum => sumI64 acc = .ok result
  | .min => (match acc with
      | some (.i64 count _ min _) => if 0 < count then some min else none
      | _ => none) = result
  | .max => (match acc with
      | some (.i64 count _ _ max) => if 0 < count then some max else none
      | _ => none) = result

theorem aggregateColumn_of_finishes {func : AggregateFunction} {keys : Int64Array}
    {accs : Option Int64 → List Acc} {a : Nat} {result : Option Int64 → Option Int64}
    (h : ∀ key ∈ keys, Finishes func (accs key)[a]? (result key)) :
    aggregateColumn func (.i values) (keys.map fun key => (key, accs key)) a =
      .ok (.ofInt64 (keys.map result)) := by
  cases func with
  | count =>
    refine congrArg (fun out => Except.ok (Column.ofInt64 out)) ?_
    rw [map_map]
    exact map_congr_left h
  | sum =>
    simp only [aggregateColumn, mapM_map, Function.comp_def]
    rw [mapM_eq_ok_map h]
    rfl
  | min | max =>
    refine congrArg (fun out => Except.ok (Column.ofInt64 out)) ?_
    rw [map_map]
    exact map_congr_left h

theorem foldr_add_eq (values : List Int64) :
    values.foldr (· + ·) 0 = Int64.ofInt (values.map Int64.toInt).sum := by
  induction values with
  | nil => rfl
  | cons v values ih =>
    rw [foldr_cons, ih, map_cons, sum_cons, Int64.ofInt_add, Int64.ofInt_toInt]

theorem foldr_count_eq (values : Int64Array) :
    (values.map fun value => if value.isSome then (1 : Int64) else 0).foldr (· + ·) 0 =
      Int64.ofInt values.reduceOption.length := by
  induction values with
  | nil => rfl
  | cons value values ih =>
    rw [map_cons, foldr_cons, ih]
    cases value with
    | none => exact Int64.zero_add _
    | some v =>
      rw [reduceOption_cons_of_some, length_cons]
      push_cast
      rw [Int64.ofInt_add, Int64.add_comm]
      rfl

theorem foldl_op_eq (func : AggregateFunction) (unit : Int64) (values : List Int64) :
    values.foldl func.op unit = values.foldr func.op unit := by
  have : Std.Associative func.op := ⟨func.op_assoc⟩
  have : Std.Commutative func.op := ⟨func.op_comm⟩
  exact foldl_eq_foldr

theorem ite_count {β : Type} (values : Int64Array) (some' none' : β) :
    (if 0 < (0 : Int) + values.reduceOption.length then some' else none') =
      if values.reduceOption = [] then none' else some' := by
  cases values.reduceOption with
  | nil => rfl
  | cons v rest => rw [if_pos (by rw [length_cons]; omega), if_neg (cons_ne_nil v rest)]

theorem reduceWith_count (hne : values ≠ []) :
    reduceWith AggregateFunction.count.op (values.map AggregateFunction.count.reads) =
      some (Int64.ofInt values.reduceOption.length) := by
  have hall : (values.map AggregateFunction.count.reads).reduceOption =
      values.map fun value => if value.isSome then (1 : Int64) else 0 := by
    rw [reduceOption, filterMap_map]
    exact congrFun filterMap_eq_map values
  rw [reduceWith_eq_foldr AggregateFunction.count.op_unit, hall, if_neg (by simpa using hne),
    ← foldr_count_eq]
  rfl

theorem reduceWith_values {func : AggregateFunction} (hfunc : func ≠ .count) (values : Int64Array) :
    reduceWith func.op (values.map func.reads) = if values.reduceOption = [] then none
      else some (values.reduceOption.foldr func.op func.unit) := by
  have hreads : values.map func.reads = values := by
    cases func with
    | count => exact absurd rfl hfunc
    | sum | min | max => exact map_id values
  rw [hreads, reduceWith_eq_foldr func.op_unit]

/-- **The results of a group's accumulator** are the aggregates of the group's values. -/
theorem finishes_reduceWith (func : AggregateFunction) (hne : values ≠ [])
    (hfits : func = .sum → FitsInt64 (exactSum values)) :
    let present := values.reduceOption
    Finishes func (some (.i64 (0 + present.length) (0 + (present.map Int64.toInt).sum)
        (present.foldl Min.min Int64.maxValue) (present.foldl Max.max Int64.minValue)))
      (reduceWith func.op (values.map func.reads)) := by
  cases func with
  | count =>
    show some (Int64.ofInt (0 + _)) = _
    rw [reduceWith_count hne, Int.zero_add]
  | sum =>
    have hsum := hfits rfl
    unfold FitsInt64 exactSum at hsum
    rw [reduceWith_values (by decide)]
    show sumI64 _ = _
    rw [sumI64, ite_count, Int.zero_add, if_pos hsum, ← foldr_add_eq]
    split
    · rfl
    · rfl
  | min | max =>
    rw [reduceWith_values (by decide), ← foldl_op_eq]
    exact ite_count values _ _

theorem map_filter_keys (batch : RecordBatch) (groupBy column : Nat) (key : Option Int64) :
    ((range batch.numRows).filter fun row =>
        ((batch.rows.map (Row.key · groupBy))[row]?).join = key).map
      (fun row => ((batch.rows.map (Row.key · column))[row]?).join) =
      (ofKey (Row.key · groupBy) batch.rows key).map (Row.key · column) := by
  have hfilter : ((range batch.numRows).filter fun row =>
      ((batch.rows.map (Row.key · groupBy))[row]?).join = key) =
      (range batch.numRows).filter ((fun row => Row.key row groupBy = key) ∘ batch.row) := by
    refine filter_congr fun row hrow => ?_
    rw [batch.key_at groupBy (mem_range.mp hrow)]
    rfl
  have hrows : ofKey (Row.key · groupBy) batch.rows key = ((range batch.numRows).filter
      ((fun row => Row.key row groupBy = key) ∘ batch.row)).map batch.row := by
    rw [ofKey, batch.rows_eq_map_row, filter_map]
  rw [hfilter, hrows, map_map]
  refine map_congr_left fun row hrow => ?_
  exact batch.key_at column (mem_range.mp (mem_of_mem_filter hrow))

theorem accOver_eq (batch : RecordBatch) (groupBy column : Nat) (key : Option Int64) :
    let present := ((ofKey (Row.key · groupBy) batch.rows key).map (Row.key · column)).reduceOption
    accOver fpu (batch.rows.map (Row.key · groupBy)) key (.i (batch.rows.map (Row.key · column)))
        (range batch.numRows) =
      .i64 (0 + present.length) (0 + (present.map Int64.toInt).sum)
        (present.foldl Min.min Int64.maxValue) (present.foldl Max.max Int64.minValue) := by
  rw [accOver, Input.fresh, foldl_accumulate, map_filter_keys]

/-- **The accumulator of a group** finishes as the aggregate of the group's rows. -/
theorem finishes_accOver (batch : RecordBatch) (groupBy : Nat)
    (entry : AggregateFunction × Nat) {key : Option Int64}
    (hkey : key ∈ batch.rows.map (Row.key · groupBy))
    (hfits : entry.1 = .sum →
      FitsInt64 (exactSum ((ofKey (Row.key · groupBy) batch.rows key).map (Row.key · entry.2)))) :
    Finishes entry.1
      (some (accOver fpu (batch.rows.map (Row.key · groupBy)) key
        (.i (batch.rows.map (Row.key · entry.2))) (range batch.numRows)))
      ((entry.1.aggregateOf (Row.key · entry.2)).reduce
        (ofKey (Row.key · groupBy) batch.rows key)) := by
  have hne : (ofKey (Row.key · groupBy) batch.rows key).map (Row.key · entry.2) ≠ [] := by
    obtain ⟨row, hrow, rfl⟩ := mem_map.mp hkey
    exact ne_nil_of_mem (mem_map_of_mem (mem_ofKey.mpr ⟨hrow, rfl⟩))
  have hfinishes := finishes_reduceWith entry.1 hne hfits
  rw [accOver_eq]
  rw [map_map] at hfinishes
  exact hfinishes

end Kernels

/-! ## The output -/

/-- What the columns of an aggregation hold for a key. -/
def AggregateSpec.outputs (rows : List Row) :
    List (Option Int64 → Option Int64) :=
  id :: spec.overRows.map fun aggregate key =>
    aggregate.reduce (ofKey (Row.key · spec.groupBy) rows key)

theorem AggregateSpec.outputs_ne_nil (rows : List Row) :
    spec.outputs rows ≠ [] := cons_ne_nil _ _

theorem groupRow_outputs (rows : List Row) (key : Option Int64) :
    groupRow (key, reduceAll spec.overRows (ofKey (Row.key · spec.groupBy) rows key)) =
      (spec.outputs rows).map fun output => (output key).map Cell.int64 := by
  rw [groupRow, AggregateSpec.outputs, reduceAll, map_cons, map_cons, map_map,
    map_map]
  rfl

theorem tryNew_int64s {α : Type} (schema : Schema) {items : List α}
    {outputs : List (α → Option Int64)} (hne : outputs ≠ [])
    (hlength : schema.fields.length = outputs.length)
    (htypes : ∀ field ∈ schema.fields, field.dataType = .int64)
    (hnull : ∀ (i : Nat) (field : Field) (output : α → Option Int64), schema.fields[i]? =
      some field →
      outputs[i]? = some output → field.nullable = false → ∀ item ∈ items, output item ≠ none)
    (hlt : items.length < 2 ^ 63) :
    ∃ batch, RecordBatch.tryNew schema (outputs.map fun output =>
      Column.ofInt64 (items.map output)) = .ok batch := by
  refine RecordBatch.tryNew_of_forall₂ (by simpa using hne) ?_ hlt
  rw [forall₂_map_right_iff, forall₂_iff_get]
  refine ⟨hlength, fun i hi hi' => ⟨(htypes _ (getElem_mem hi)).symm, ?_, fun hplanned hnone => ?_⟩⟩
  · rw [Column.ofInt64_len, length_map]
  · obtain ⟨value, hvalue, hmap⟩ := mem_map.mp hnone
    obtain ⟨item, hitem, hread⟩ := mem_map.mp hvalue
    exact hnull i _ _ (getElem?_eq_getElem hi) (getElem?_eq_getElem hi') hplanned item hitem
      (hread.trans (Option.map_eq_none_iff.mp hmap))

theorem RecordBatch.rows_of_int64s {α : Type} {items : List α} {outputs : List (α → Option Int64)}
    (hne : outputs ≠ [])
    (hcolumns : batch.columns = outputs.map fun output => Column.ofInt64 (items.map output)) :
    batch.rows = items.map fun item => outputs.map fun output => (output item).map Cell.int64 := by
  have hwidth : batch.numColumns = outputs.length := by
    rw [← length_columns, hcolumns, length_map]
  apply rows_eq_of_cells
  · obtain ⟨output, rest, rfl⟩ := exists_cons_of_ne_nil hne
    have hfirst : Column.ofInt64 (items.map output) ∈ batch.columns := by
      rw [hcolumns]
      exact mem_cons_self
    rw [length_map, ← batch.column_len hfirst, Column.ofInt64_len, length_map]
  · intro row hrow
    obtain ⟨item, -, rfl⟩ := mem_map.mp hrow
    rw [length_map, hwidth]
  · intro index column hcolumn
    rw [hcolumns, getElem?_map, Option.map_eq_some_iff] at hcolumn
    obtain ⟨output, houtput, rfl⟩ := hcolumn
    show (items.map output).map _ = (items.map _).map _
    rw [map_map, map_map]
    refine map_congr_left fun item _ => ?_
    show _ = Row.at _ index
    rw [Row.at, getElem?_map, houtput]
    rfl

theorem isInt64_of_hasInt64 {index : Nat} (h : batch.schema.HasInt64 index) :
    Cuda.IsInt64 batch index ∧
      Cuda.valuesAt batch index = batch.rows.map (key · index) := by
  obtain ⟨field, hfield, htype⟩ := h
  obtain ⟨column, hcolumn, hcolumnType, -⟩ := entry_of_field hfield
  refine ⟨⟨column, hcolumn, hcolumnType.trans htype⟩, ?_⟩
  exact keyValues_eq_map_rows (length_columns batch ▸
    (List.getElem?_eq_some_iff.mp hcolumn).1)

theorem length_keys_lt {groupBy : Nat} {keys : Int64Array} (hnodup : keys.Nodup)
    (hkeys : ∀ key ∈ keys, key ∈ batch.rows.map (Row.key · groupBy)) :
    keys.length < 2 ^ 63 := by
  have hle := (hnodup.subperm hkeys).length_le
  rw [length_map, length_rows] at hle
  exact lt_of_le_of_lt hle batch.numRows_lt

/-- The field and the column of one aggregate. -/
def AggregateSpec.outputEntry (batch : RecordBatch)
    (keys : Int64Array) (entry : AggregateFunction × Nat) : Field × Column :=
  (⟨entry.1.name ++ "(" ++ Kernels.fieldName batch entry.2 ++ ")", .int64, true, []⟩,
    .ofInt64 (keys.map fun key =>
      (entry.1.aggregateOf (Row.key · entry.2)).reduce
        (ofKey (Row.key · spec.groupBy) batch.rows key)))

/-- The columns the reference aggregation over `Int64` columns hands to `RecordBatch::try_new`: one
row a key, in ascending order with `NULL` last. -/
theorem Kernels.aggregate_eq_tryNew (fpu : FloatUnit) {spec : AggregateSpec}
    (hkey : batch.schema.HasInt64 spec.groupBy)
    (hvalues : ∀ entry ∈ spec.aggregates, batch.schema.HasInt64 entry.2)
    (hfits : spec.SumsFit batch.rows) :
    ∃ keys : Int64Array, keys.Nodup ∧
      (∀ key, key ∈ keys ↔ key ∈ batch.rows.map (Row.key · spec.groupBy)) ∧
      (keys.Pairwise fun a b => keyLe a b = true) ∧
      aggregate fpu batch spec = RecordBatch.tryNew
        ⟨⟨fieldName batch spec.groupBy, .int64, true, []⟩ ::
          (spec.aggregates.map (spec.outputEntry batch keys)).map Prod.fst, []⟩
        ((spec.outputs batch.rows).map fun output => Column.ofInt64 (keys.map output)) := by
  have hint64 := fun entry hentry => isInt64_of_hasInt64 (hvalues entry hentry)
  obtain ⟨hkeyColumn, hkeyValues⟩ := isInt64_of_hasInt64 hkey
  obtain ⟨hnodup, hmem, hsorted⟩ := sortGroups_groupRows_keys fpu (Cuda.inputsOf batch spec)
    (Cuda.valuesAt batch spec.groupBy)
  have hgroups := sortGroups_groupRows_eq fpu (Cuda.inputsOf batch spec)
    (Cuda.valuesAt batch spec.groupBy)
  rw [hkeyValues, length_map, length_rows] at hgroups
  rw [hkeyValues] at hnodup hmem hsorted
  generalize hkeys : (sortGroups (groupRows fpu (Cuda.inputsOf batch spec)
    (batch.rows.map (Row.key · spec.groupBy)))).map Prod.fst = keys at hnodup hmem hsorted hgroups
  -- one aggregate, over all groups
  have hentry : ∀ entry ∈ spec.aggregates.zipIdx, aggregateEntry batch
      (Cuda.referenceGroups fpu batch spec) (entry.1, .i (Cuda.valuesAt batch entry.1.2), entry.2) =
      .ok (spec.outputEntry batch keys entry.1) := by
    intro entry hentry
    have hentry' := fst_mem_of_mem_zipIdx hentry
    have hcolumn : aggregateColumn entry.1.1 (.i (Cuda.valuesAt batch entry.1.2))
        (Cuda.referenceGroups fpu batch spec) entry.2 =
        .ok (spec.outputEntry batch keys entry.1).2 := by
      rw [Cuda.referenceGroups, hkeyValues, hgroups]
      refine aggregateColumn_of_finishes fun key hk => ?_
      rw [getElem?_map, Cuda.inputsOf, getElem?_map,
        mem_zipIdx_iff_getElem?.mp hentry, Option.map_some, Option.map_some,
        (hint64 entry.1 hentry').2]
      exact finishes_accOver fpu batch spec.groupBy entry.1 ((hmem key).mp hk) fun hsum =>
        hfits entry.1 hentry' hsum key
    simp only [aggregateEntry, hcolumn]
    rfl
  refine ⟨keys, hnodup, hmem, hsorted, ?_⟩
  rw [Cuda.reference_eq_outputBatch fpu hkeyColumn fun entry hentry => (hint64 entry hentry).1,
    mapM_eq_ok_map hentry, ok_bind, Cuda.outputBatch, Cuda.referenceGroups,
    hkeyValues, hkeys, ← Function.comp_def (spec.outputEntry batch keys), ← map_map,
    zipIdx_map_fst]
  refine congrArg (RecordBatch.tryNew _) ?_
  rw [AggregateSpec.outputs, map_cons, map_id, AggregateSpec.overRows, map_map,
    map_map, map_map]
  rfl

/-- **The reference aggregation over `Int64` columns** is a grouping of its rows. -/
theorem Kernels.aggregate_outputs (fpu : FloatUnit) {spec : AggregateSpec}
    (hkey : batch.schema.HasInt64 spec.groupBy)
    (hvalues : ∀ entry ∈ spec.aggregates, batch.schema.HasInt64 entry.2)
    (hfits : spec.SumsFit batch.rows) :
    ∃ out, ∃ keys : Int64Array, aggregate fpu batch spec = .ok out ∧
      out.columns = ((spec.outputs batch.rows).map fun output =>
        Column.ofInt64 (keys.map output)) ∧
      keys.Nodup ∧ (∀ key, key ∈ keys ↔ key ∈ batch.rows.map (Row.key · spec.groupBy)) ∧
      keys.Pairwise fun a b => keyLe a b = true := by
  obtain ⟨keys, hnodup, hmem, hsorted, hrun⟩ := aggregate_eq_tryNew fpu hkey hvalues hfits
  have hlength := length_keys_lt hnodup fun key hk => (hmem key).mp hk
  have hfields : ∀ field ∈ (⟨fieldName batch spec.groupBy, .int64, true, []⟩ : Field) ::
      (spec.aggregates.map (spec.outputEntry batch keys)).map Prod.fst,
      field.dataType = .int64 ∧ field.nullable = true := by
    intro field hfield
    rcases mem_cons.mp hfield with rfl | hfield
    · exact ⟨rfl, rfl⟩
    · obtain ⟨entry, hentry, rfl⟩ := mem_map.mp hfield
      obtain ⟨entry, -, rfl⟩ := mem_map.mp hentry
      exact ⟨rfl, rfl⟩
  have hwidth : ((⟨fieldName batch spec.groupBy, .int64, true, []⟩ : Field) ::
      (spec.aggregates.map (spec.outputEntry batch keys)).map Prod.fst).length =
      (spec.outputs batch.rows).length := by
    simp [AggregateSpec.outputs, AggregateSpec.overRows]
  rw [hrun]
  obtain ⟨out, hout⟩ := tryNew_int64s ⟨_, []⟩ (spec.outputs_ne_nil batch.rows) hwidth
    (fun field hfield => (hfields field hfield).1) (fun i field output hfield _ hplanned => by
      rw [(hfields field (mem_of_getElem? hfield)).2] at hplanned
      cases hplanned) hlength
  exact ⟨out, keys, hout, (tryNew_ok hout).2.1, hnodup, hmem, hsorted⟩

namespace GpuAggregateExec

variable {exec : GpuAggregateExec} {input : Schema}

theorem Built.int64s (h : exec.Built input)
    (hvalues : ∀ entry ∈ exec.spec.aggregates, input.HasInt64 entry.2) (rows : List Row) :
    exec.schema.fields.length = (exec.spec.outputs rows).length ∧
      ∀ field ∈ exec.schema.fields, field.dataType = .int64 := by
  obtain ⟨-, key, fields, hfields, hkeyType, htypes⟩ := h.typed
  rw [hfields]
  refine ⟨?_, fun field hfield => ?_⟩
  · simp [AggregateSpec.outputs, AggregateSpec.overRows, htypes.length_eq]
  · rcases mem_cons.mp hfield with rfl | hfield
    · exact hkeyType
    · obtain ⟨entry, hentry, source, hsource, htype⟩ := forall₂_exists_left htypes hfield
      obtain ⟨source', hsource', hint64⟩ := hvalues entry hentry
      rw [hsource] at hsource'
      cases hsource'
      rw [htype, hint64]
      cases entry.1 <;> rfl

/-- **A `GpuAggregateExec` over `Int64` columns groups its input**, on every backend that
conforms, if no `SUM` leaves `i64` and the declared nullability allows the results. -/
theorem execute_groups (fpu : FloatUnit) (h : exec.Built input)
    (hvalues : ∀ entry ∈ exec.spec.aggregates, input.HasInt64 entry.2) {backend : GpuBackend D}
    (conforms : backend.Conforms fpu) {batches : List RecordBatch}
    (hbatches : ∀ batch ∈ batches, batch.schema.fields = input.fields)
    (hrows : (streamRows batches).length < 2 ^ 63) (hfits : exec.spec.SumsFit (streamRows batches))
    (hnull : ∀ key ∈ (streamRows batches).map (Row.key · exec.spec.groupBy),
      ∀ (i : Nat) (field : Field), exec.schema.fields[i]? = some field → field.nullable = false →
        Row.at (groupRow (key, reduceAll exec.spec.overRows
          (ofKey (Row.key · exec.spec.groupBy) (streamRows batches) key))) i ≠ none) :
    ∃ out groups, exec.execute fpu input backend batches = .ok out ∧ out.schema = exec.schema ∧
      out.rows = groups.map groupRow ∧
      GroupsOf (Row.key · exec.spec.groupBy) (reduceAll exec.spec.overRows) (streamRows batches)
        groups := by
  obtain ⟨all, hall⟩ := concatBatches_eq_ok (concatenable_of_rows hbatches hrows)
  obtain ⟨-, rfl, hallRows⟩ := concatBatches_ok hall
  have hallRows : all.rows = streamRows batches := hallRows
  rw [← hallRows] at hfits hnull ⊢
  obtain ⟨ref, keys, href, hcolumns, hnodup, hkeys, -⟩ :=
    Kernels.aggregate_outputs fpu h.typed.1.1 hvalues hfits
  have hsame := ({} : OperatorState D).aggregate_sameResult conforms all exec.spec
  rw [href] at hsame
  obtain ⟨aggregated, haggregated, hsameColumns⟩ := hsame.ok_right
  have haggregatedColumns : aggregated.columns = (exec.spec.outputs all.rows).map fun output =>
      Column.ofInt64 (keys.map output) := by
    rw [← hcolumns, RecordBatch.columns, hsameColumns.1]
    rfl
  -- the declared schema takes the columns
  obtain ⟨hlength, htypes⟩ := h.int64s hvalues all.rows
  have hlt := length_keys_lt hnodup fun key hk => (hkeys key).mp hk
  obtain ⟨out, hout⟩ := tryNew_int64s exec.schema (exec.spec.outputs_ne_nil all.rows)
    hlength htypes
    (fun i field output hfield houtput hplanned key hk hnone => by
      refine hnull key ((hkeys key).mp hk) i field hfield hplanned ?_
      rw [groupRow_outputs, Row.at, getElem?_map, houtput, Option.map_some, hnone]
      rfl) hlt
  obtain ⟨hschema, houtColumns, -⟩ := tryNew_ok hout
  refine ⟨out, keys.map fun key => (key, reduceAll exec.spec.overRows
    (ofKey (Row.key · exec.spec.groupBy) all.rows key)), ?_, hschema, ?_,
    groupsOf_keys hnodup hkeys⟩
  · rw [execute, hall, ok_bind, haggregated, ok_bind, haggregatedColumns, hout]
  · rw [RecordBatch.rows_of_int64s (exec.spec.outputs_ne_nil all.rows) houtColumns, map_map]
    exact map_congr_left fun key _ => (groupRow_outputs exec.spec all.rows key).symm

end GpuAggregateExec

end OxideLake
