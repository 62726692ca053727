import OxideLake.Planner.AggregateRows

/-!
# The reference aggregation, exactly

`aggregate` over `Int64` columns in the terms of its result: a row a key, in ascending order with
`NULL` last, and in every row the number, the exact sum and the exact extremes of the values the
group has.  The extremes start at `i64::MAX` and `i64::MIN`, which are also values a column can
hold; the count tells an empty group from one that holds them.  A call fails on nothing but a
requested `SUM` outside `i64`, and permuted rows give the same result. -/

namespace OxideLake

open List TwoPhase Partial

variable {rows : List Row} {spec : AggregateSpec}

/-- What an aggregate returns for the values of a group. -/
def AggregateFunction.IsResult (func : AggregateFunction) (values : List Int64)
    (result : Option Int64) : Prop :=
  match func with
  | .count => ∃ n, result = some n ∧ n.toInt = values.length
  | .sum => (result = none ↔ values = []) ∧
      ∀ sum, result = some sum → sum.toInt = (values.map Int64.toInt).sum
  | .min => (result = none ↔ values = []) ∧
      ∀ least, result = some least → least ∈ values ∧ ∀ v ∈ values, least ≤ v
  | .max => (result = none ↔ values = []) ∧
      ∀ greatest, result = some greatest → greatest ∈ values ∧ ∀ v ∈ values, v ≤ greatest

namespace AggregateFunction

/-! ## Extremes -/

theorem foldr_mem {func : AggregateFunction} (hop : ∀ a b, func.op a b = a ∨ func.op a b = b)
    {values : List Int64} (hne : values ≠ []) : values.foldr func.op func.unit ∈ values := by
  induction values with
  | nil => exact absurd rfl hne
  | cons v values ih =>
    rw [foldr_cons]
    by_cases hnil : values = []
    · rw [hnil, foldr_nil, func.op_unit]
      exact mem_cons_self
    · rcases hop v (values.foldr func.op func.unit) with hkeep | hkeep
      · rw [hkeep]
        exact mem_cons_self
      · rw [hkeep]
        exact mem_cons_of_mem _ (ih hnil)

theorem foldr_bound {func : AggregateFunction} {R : Int64 → Int64 → Prop}
    (hleft : ∀ a b, R (func.op a b) a) (hright : ∀ a b c, R b c → R (func.op a b) c)
    (values : List Int64) : ∀ v ∈ values, R (values.foldr func.op func.unit) v := by
  induction values with
  | nil => exact nofun
  | cons w values ih =>
    intro v hv
    rw [foldr_cons]
    rcases mem_cons.mp hv with rfl | hv
    · exact hleft v _
    · exact hright w _ v (ih v hv)

theorem min_op_cases (a b : Int64) :
    AggregateFunction.min.op a b = a ∨ AggregateFunction.min.op a b = b := by
  show (if a ≤ b then a else b) = a ∨ (if a ≤ b then a else b) = b
  split
  · exact .inl rfl
  · exact .inr rfl

theorem max_op_cases (a b : Int64) :
    AggregateFunction.max.op a b = a ∨ AggregateFunction.max.op a b = b := by
  show (if a ≤ b then b else a) = a ∨ (if a ≤ b then b else a) = b
  split
  · exact .inr rfl
  · exact .inl rfl

theorem min_op_le (a b : Int64) :
    AggregateFunction.min.op a b ≤ a ∧ AggregateFunction.min.op a b ≤ b :=
  ⟨Std.min_le_left, Std.min_le_right⟩

theorem le_max_op (a b : Int64) :
    a ≤ AggregateFunction.max.op a b ∧ b ≤ AggregateFunction.max.op a b := by
  show a ≤ (if a ≤ b then b else a) ∧ b ≤ (if a ≤ b then b else a)
  split
  · next hle => exact ⟨hle, Int64.le_refl b⟩
  · next hnot => exact ⟨Int64.le_refl a, (Int64.le_total a b).resolve_left hnot⟩

theorem foldr_min_le (values : List Int64) : ∀ v ∈ values,
    values.foldr AggregateFunction.min.op AggregateFunction.min.unit ≤ v :=
  foldr_bound (R := fun a b => a ≤ b) (fun a b => (min_op_le a b).1)
    (fun a b _ hbc => Int64.le_trans (min_op_le a b).2 hbc) values

theorem le_foldr_max (values : List Int64) : ∀ v ∈ values,
    v ≤ values.foldr AggregateFunction.max.op AggregateFunction.max.unit :=
  foldr_bound (R := fun a b => b ≤ a) (fun a b => (le_max_op a b).1)
    (fun a b _ hbc => Int64.le_trans hbc (le_max_op a b).2) values

/-! ## Results -/

theorem isResult_reduceWith (func : AggregateFunction) {values : Int64Array} (hne : values ≠ [])
    (hlt : values.length < 2 ^ 63) (hfits : func = .sum → FitsInt64 (exactSum values)) :
    func.IsResult values.reduceOption (reduceWith func.op (values.map func.reads)) := by
  cases func with
  | count =>
    refine ⟨_, Kernels.reduceWith_count hne, ?_⟩
    have hle := reduceOption_length_le values
    exact Int64.toInt_ofInt_of_le (by omega) (by omega)
  | sum =>
    rw [Kernels.reduceWith_values (by decide)]
    refine ⟨by split <;> simp_all, fun sum hsum => ?_⟩
    split at hsum
    · cases hsum
    · obtain ⟨hlow, hhigh⟩ := hfits rfl
      rw [← Option.some.inj hsum]
      exact (congrArg Int64.toInt (Kernels.foldr_add_eq _)).trans
        (Int64.toInt_ofInt_of_le hlow hhigh)
  | min =>
    rw [Kernels.reduceWith_values (by decide)]
    refine ⟨by split <;> simp_all, fun least hleast => ?_⟩
    split at hleast
    · cases hleast
    · next hsome =>
      rw [← Option.some.inj hleast]
      exact ⟨foldr_mem min_op_cases hsome, foldr_min_le _⟩
  | max =>
    rw [Kernels.reduceWith_values (by decide)]
    refine ⟨by split <;> simp_all, fun greatest hgreatest => ?_⟩
    split at hgreatest
    · cases hgreatest
    · next hsome =>
      rw [← Option.some.inj hgreatest]
      exact ⟨foldr_mem max_op_cases hsome, le_foldr_max _⟩

end AggregateFunction

/-! ## Sums outside `i64` -/

namespace Kernels

theorem fits_of_finishes {values : Int64Array} {result : Option Int64}
    (h : sumI64 (some (.i64 (0 + values.reduceOption.length)
      (0 + (values.reduceOption.map Int64.toInt).sum)
      (values.reduceOption.foldl Min.min Int64.maxValue)
      (values.reduceOption.foldl Max.max Int64.minValue))) = .ok result) :
    FitsInt64 (exactSum values) := by
  rw [sumI64, ite_count, Int.zero_add] at h
  split at h
  · next hnil =>
    rw [exactSum, hnil]
    exact ⟨by decide, by decide⟩
  · split at h
    · next hfits => exact hfits
    · cases h

theorem mem_referenceGroups (fpu : FloatUnit) {batch : RecordBatch}
    (hkeyValues : Cuda.valuesAt batch spec.groupBy = batch.rows.map (Row.key · spec.groupBy))
    {key : Option Int64} (hkey : key ∈ batch.rows.map (Row.key · spec.groupBy)) :
    (key, (Cuda.inputsOf batch spec).map fun input =>
      accOver fpu (batch.rows.map (Row.key · spec.groupBy)) key input (range batch.numRows)) ∈
      Cuda.referenceGroups fpu batch spec := by
  obtain ⟨-, hmem, -⟩ := sortGroups_groupRows_keys fpu (Cuda.inputsOf batch spec)
    (Cuda.valuesAt batch spec.groupBy)
  have hgroups := sortGroups_groupRows_eq fpu (Cuda.inputsOf batch spec)
    (Cuda.valuesAt batch spec.groupBy)
  rw [Cuda.referenceGroups, hgroups]
  rw [hkeyValues] at hmem ⊢
  rw [length_map, RecordBatch.length_rows]
  exact mem_map.mpr ⟨key, (hmem key).mpr hkey, rfl⟩

theorem sumsFit_of_ok (fpu : FloatUnit) {batch out : RecordBatch}
    (hkey : batch.schema.HasInt64 spec.groupBy)
    (hvalues : ∀ entry ∈ spec.aggregates, batch.schema.HasInt64 entry.2)
    (hok : aggregate fpu batch spec = .ok out) : spec.SumsFit batch.rows := by
  have hint64 := fun entry hentry => isInt64_of_hasInt64 (hvalues entry hentry)
  obtain ⟨hkeyColumn, hkeyValues⟩ := isInt64_of_hasInt64 hkey
  rw [Cuda.reference_eq_outputBatch fpu hkeyColumn fun entry hentry =>
    (hint64 entry hentry).1] at hok
  obtain ⟨entries, hentries, -⟩ := bind_eq_ok_iff.mp hok
  rintro ⟨func, c⟩ hentry rfl key
  by_cases hk : key ∈ batch.rows.map (Row.key · spec.groupBy)
  · -- the column of this aggregate is there, so the sum of this group is
    obtain ⟨a, ha⟩ := mem_iff_getElem?.mp hentry
    obtain ⟨result, hresult⟩ := mapM_ok_of_mem hentries
      (mem_zipIdx_iff_getElem?.mpr ha : ((.sum, c), a) ∈ spec.aggregates.zipIdx)
    obtain ⟨column, hcolumn, -⟩ := bind_eq_ok_iff.mp hresult
    obtain ⟨sums, hsums, -⟩ := bind_eq_ok_iff.mp hcolumn
    obtain ⟨sum, hsum⟩ := mapM_ok_of_mem hsums (mem_referenceGroups fpu hkeyValues hk)
    dsimp only at hsum
    rw [getElem?_map, Cuda.inputsOf, getElem?_map, ha, Option.map_some, Option.map_some,
      (hint64 _ hentry).2, accOver_eq] at hsum
    exact fits_of_finishes hsum
  · rw [ofKey_eq_nil hk, map_nil]
    exact ⟨by decide, by decide⟩

theorem sumsFit_perm {rows' : List Row} (h : rows'.Perm rows) :
    spec.SumsFit rows' ↔ spec.SumsFit rows := by
  have hsum : ∀ c key, exactSum ((ofKey (Row.key · spec.groupBy) rows' key).map (Row.key · c)) =
      exactSum ((ofKey (Row.key · spec.groupBy) rows key).map (Row.key · c)) :=
    fun c key => exactSum_perm ((ofKey_perm h key).map _)
  simp only [AggregateSpec.SumsFit, hsum]

theorem outputs_perm (spec : AggregateSpec) {rows' : List Row} (h : rows'.Perm rows) :
    spec.outputs rows' = spec.outputs rows := by
  refine congrArg (id :: ·) (map_congr_left fun aggregate _ => funext fun key => ?_)
  exact reduceWith_perm aggregate.assoc aggregate.comm ((ofKey_perm h key).map _)

end Kernels

/-! ## The aggregation -/

/-- The values a group has in a column. -/
def groupValues (rows : List Row) (groupBy : Nat) (key : Option Int64) (column : Nat) :
    List Int64 :=
  ((ofKey (Row.key · groupBy) rows key).map (Row.key · column)).reduceOption

/-- **The aggregation of a list of rows**: a row a key that occurs, in ascending order with `NULL`
last, and in the column of every aggregate its result for the group. -/
structure IsAggregation (spec : AggregateSpec) (input : List Row) (keys : Int64Array)
    (out : RecordBatch) : Prop where
  once : keys.Nodup
  occur : ∀ key, key ∈ keys ↔ key ∈ input.map (Row.key · spec.groupBy)
  ascending : keys.Pairwise fun a b => Kernels.keyLe a b = true
  rows : out.numRows = keys.length
  width : out.numColumns = spec.aggregates.length + 1
  keyColumn : out.columns[0]? = some (Column.ofInt64 keys)
  results : ∀ i entry, spec.aggregates[i]? = some entry → ∃ results : Int64Array,
    out.columns[i + 1]? = some (Column.ofInt64 results) ∧
    List.Forall₂ (fun key result =>
      entry.1.IsResult (groupValues input spec.groupBy key entry.2) result) keys results

namespace Kernels

variable {fpu : FloatUnit} {batch : RecordBatch} {spec : AggregateSpec}

/-- One group is enough for a sum that does not fit, and it is the group of a key that occurs. -/
theorem not_sumsFit_iff : ¬ spec.SumsFit rows ↔
    ∃ entry ∈ spec.aggregates, entry.1 = .sum ∧ ∃ key ∈ rows.map (Row.key · spec.groupBy),
      ¬ FitsInt64 ((groupValues rows spec.groupBy key entry.2).map Int64.toInt).sum := by
  constructor
  · intro hnot
    by_contra hnone
    refine hnot fun entry hentry hsum key => ?_
    by_contra hoverflow
    refine hnone ⟨entry, hentry, hsum, key, ?_, hoverflow⟩
    by_contra habsent
    rw [ofKey_eq_nil habsent, map_nil] at hoverflow
    exact hoverflow ⟨by decide, by decide⟩
  · rintro ⟨entry, hentry, hsum, key, -, hoverflow⟩ hfits
    exact hoverflow (hfits entry hentry hsum key)

variable (hkey : batch.schema.HasInt64 spec.groupBy)
  (hvalues : ∀ entry ∈ spec.aggregates, batch.schema.HasInt64 entry.2)

include hkey hvalues

theorem aggregate_of_not_sumsFit (hnot : ¬ spec.SumsFit batch.rows) :
    aggregate fpu batch spec = .error sumOverflow := by
  have htyped : spec.Typed batch.schema := ⟨hkey, fun entry hentry => by
    obtain ⟨field, hfield, htype⟩ := hvalues entry hentry
    exact ⟨field, hfield, .inl htype⟩⟩
  refine (aggregate_fits fpu htyped).resolve_left ?_
  rintro ⟨out, -, -, hok, -⟩
  exact hnot (sumsFit_of_ok fpu hkey hvalues hok)

/-- What a returned aggregate is. -/
theorem isAggregation_of_ok {out : RecordBatch} (hok : aggregate fpu batch spec = .ok out) :
    ∃ keys, IsAggregation spec batch.rows keys out := by
  have hfits := sumsFit_of_ok fpu hkey hvalues hok
  obtain ⟨_, keys, hout, hcolumns, hnodup, hmem, hsorted⟩ :=
    aggregate_outputs fpu hkey hvalues hfits
  rw [hok] at hout
  cases hout
  have hkeyColumn : out.columns[0]? = some (Column.ofInt64 keys) := by
    rw [hcolumns, AggregateSpec.outputs, map_cons, map_id]
    rfl
  refine ⟨keys, hnodup, hmem, hsorted, ?_, ?_, hkeyColumn, fun i entry hentry => ?_⟩
  · rw [← out.column_len (mem_of_getElem? hkeyColumn), Column.ofInt64_len]
  · rw [← RecordBatch.length_columns, hcolumns]
    simp [AggregateSpec.outputs, AggregateSpec.overRows]
  · refine ⟨keys.map fun key => (entry.1.aggregateOf (Row.key · entry.2)).reduce
      (ofKey (Row.key · spec.groupBy) batch.rows key), ?_, ?_⟩
    · rw [hcolumns, AggregateSpec.outputs, map_cons, getElem?_cons_succ, getElem?_map,
        getElem?_map, AggregateSpec.overRows, getElem?_map, hentry]
      rfl
    · rw [forall₂_map_right_iff, forall₂_same]
      intro key hk
      obtain ⟨row, hrow, hrowKey⟩ := mem_map.mp ((hmem key).mp hk)
      have hgroup : (ofKey (Row.key · spec.groupBy) batch.rows key).map (Row.key · entry.2) ≠ [] :=
        ne_nil_of_mem (mem_map_of_mem (mem_ofKey.mpr ⟨hrow, hrowKey⟩))
      have hlength : ((ofKey (Row.key · spec.groupBy) batch.rows key).map
          (Row.key · entry.2)).length < 2 ^ 63 := by
        have hle : (ofKey (Row.key · spec.groupBy) batch.rows key).length ≤ batch.rows.length :=
          length_filter_le _ _
        rw [RecordBatch.length_rows] at hle
        rw [length_map]
        exact hle.trans_lt batch.numRows_lt
      have hresult := entry.1.isResult_reduceWith hgroup hlength fun hsum =>
        hfits entry (mem_of_getElem? hentry) hsum key
      rw [map_map] at hresult
      exact hresult

/-- The order of the rows does not matter. -/
theorem aggregate_perm {batch' : RecordBatch}
    (hfields : batch'.schema.fields = batch.schema.fields) (hrows : batch'.rows.Perm batch.rows) :
    aggregate fpu batch' spec = aggregate fpu batch spec := by
  have hkey' : batch'.schema.HasInt64 spec.groupBy := by
    rwa [Schema.HasInt64, hfields]
  have hvalues' : ∀ entry ∈ spec.aggregates, batch'.schema.HasInt64 entry.2 := by
    intro entry hentry
    rw [Schema.HasInt64, hfields]
    exact hvalues entry hentry
  by_cases hfits : spec.SumsFit batch.rows
  · obtain ⟨keys, hnodup, hmem, hsorted, hrun⟩ := aggregate_eq_tryNew fpu hkey hvalues hfits
    obtain ⟨keys', hnodup', hmem', hsorted', hrun'⟩ :=
      aggregate_eq_tryNew fpu hkey' hvalues' ((sumsFit_perm hrows).mpr hfits)
    -- both lists are sorted and list the keys that occur
    have hperm : keys'.Perm keys := (perm_ext_iff_of_nodup hnodup' hnodup).mpr fun key => by
      rw [hmem', hmem, (hrows.map _).mem_iff]
    obtain rfl : keys' = keys :=
      hperm.eq_of_pairwise (fun a b _ _ => keyLe_antisymm) hsorted' hsorted
    have hname : ∀ c, fieldName batch' c = fieldName batch c := fun c => by
      rw [fieldName, fieldName, hfields]
    have hentries : (spec.aggregates.map (spec.outputEntry batch' keys')).map Prod.fst =
        (spec.aggregates.map (spec.outputEntry batch keys')).map Prod.fst := by
      rw [map_map, map_map]
      refine map_congr_left fun entry _ => ?_
      simp only [Function.comp_apply, AggregateSpec.outputEntry, hname]
    rw [hrun, hrun', hname, hentries, outputs_perm spec hrows]
  · rw [aggregate_of_not_sumsFit hkey hvalues hfits,
      aggregate_of_not_sumsFit hkey' hvalues' (mt (sumsFit_perm hrows).mp hfits)]

end Kernels

/-- **The reference aggregation is the mathematical one.**  Over `Int64` columns a call fails
exactly if some requested `SUM` of a group lies outside `i64`; the batch it returns otherwise is
the aggregation of its rows; and batches with the same rows in another order give the same result.
-/
theorem Kernels.aggregate_exact (fpu : FloatUnit) {batch : RecordBatch} {spec : AggregateSpec}
    (hkey : batch.schema.HasInt64 spec.groupBy)
    (hvalues : ∀ entry ∈ spec.aggregates, batch.schema.HasInt64 entry.2) :
    ((∃ e, aggregate fpu batch spec = .error e) ↔
      ∃ entry ∈ spec.aggregates, entry.1 = .sum ∧ ∃ key ∈ batch.rows.map (Row.key · spec.groupBy),
        ¬ FitsInt64 ((groupValues batch.rows spec.groupBy key entry.2).map Int64.toInt).sum) ∧
    (∀ out, aggregate fpu batch spec = .ok out → ∃ keys, IsAggregation spec batch.rows keys out) ∧
    ∀ batch', batch'.schema.fields = batch.schema.fields → batch'.rows.Perm batch.rows →
      aggregate fpu batch' spec = aggregate fpu batch spec := by
  refine ⟨⟨?_, fun hoverflow => ?_⟩, fun out => isAggregation_of_ok hkey hvalues,
    fun batch' hfields hrows => aggregate_perm hkey hvalues hfields hrows⟩
  · rintro ⟨e, he⟩
    refine not_sumsFit_iff.mp fun hfits => ?_
    obtain ⟨out, -, hout, -⟩ := aggregate_outputs fpu hkey hvalues hfits
    rw [he] at hout
    cases hout
  · exact ⟨_, aggregate_of_not_sumsFit hkey hvalues (not_sumsFit_iff.mpr hoverflow)⟩

/-- Two groups of one region each and one without, the largest `i64` among the amounts. -/
def amounts : RecordBatch :=
  .ofEntries
    [(⟨"region", .int64, true, []⟩, Column.ofInt64 [some 7, none, some 7, some 2]),
      (⟨"amount", .int64, true, []⟩, Column.ofInt64 [some Int64.maxValue, none, some 1, some 5])]
    4 (by decide)

/-- The `MIN` and the `COUNT` of the amounts; their `SUM` overflows in region 7. -/
theorem aggregate_exact_amounts :
    (∃ out keys, Kernels.aggregate noFloats amounts ⟨0, [(.min, 1), (.count, 1)]⟩ = .ok out ∧
      IsAggregation ⟨0, [(.min, 1), (.count, 1)]⟩ amounts.rows keys out) ∧
    ∃ e, Kernels.aggregate noFloats amounts ⟨0, [(.sum, 1)]⟩ = .error e := by
  have hregion : ∀ aggregates, amounts.schema.HasInt64 (⟨0, aggregates⟩ : AggregateSpec).groupBy :=
    fun _ => ⟨_, rfl, rfl⟩
  have hamount : amounts.schema.HasInt64 1 := ⟨_, rfl, rfl⟩
  constructor
  · obtain ⟨-, hok, -⟩ := Kernels.aggregate_exact _ (hregion [(.min, 1), (.count, 1)])
      (by simp [hamount])
    obtain ⟨keys, hkeys⟩ := hok _ rfl
    exact ⟨_, keys, rfl, hkeys⟩
  · refine (Kernels.aggregate_exact _ (hregion [(.sum, 1)]) (by simp [hamount])).1.mpr
      ⟨_, mem_singleton_self _, rfl, some 7, by decide, ?_⟩
    unfold FitsInt64
    decide

end OxideLake
