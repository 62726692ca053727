import OxideLake.Planner.FilterFusion
import OxideLake.Planner.JoinColumns

/-!
# Which orders survive placement

`placement_keeps_order_iff` compares every replaced node with its original on the same input.  A
filter and a distance projection emit what their originals emit, as far as the order goes.  A hash
join in place of a hash join has the rows of every probe row together, as the original has, but a
device may return them in any order.  The replacements of a sort-merge join and of an aggregate
are those of `Planner.Ordering`.
-/

namespace OxideLake

open List Partial Row

variable {D : Type} {target : BackendKind} {ordering : List SortColumn} {input : Plan}
  {calls : Calls D} {outs : List RecordBatch} {fpu : FloatUnit}

/-! ## Filters and distances -/

/-- **The rows of a replaced filter** are those of the original without its row limit. -/
theorem FusesTo.execute_rows {filter : FilterExec} {projections : List ProjectionExec}
    {exec : GpuFilterExec} (h : FusesTo target filter input projections exec)
    (foreign : ForeignExprs) (hcalls : ConformingInput fpu input.schema calls)
    (houts : exec.execute calls = .ok outs) :
    streamRows outs = (FilterExec.output { filter with fetch := none } foreign
      (streamRows (calls.map Prod.snd))).map (applyAll foreign projections) := by
  obtain ⟨outs', houts', hrows⟩ := Replaces.execute_rows ⟨_, h⟩ foreign hcalls
  rw [houts] at houts'
  cases houts'
  rw [hrows, map_congr_left fun row hrow =>
    h.select_eq foreign (hcalls.length_of_mem (mem_of_mem_filter hrow)), FilterExec.output]
  unfold FilterExec.columns
  cases filter.projection with
  | none => rfl
  | some indices =>
    rw [map_map]
    rfl

/-- A distance projection passes the columns of its input on. -/
theorem ProjectionExec.apply_at (foreign : ForeignExprs) {projection : ProjectionExec}
    {columns : List ProjectionExpr} {last : ProjectionExpr} {schema : Schema}
    (hexprs : projection.expr = columns ++ [last]) (hpasses : passesThrough schema columns = true)
    (row : Row) {c : Nat} (hc : c < schema.width) :
    (projection.apply foreign row).at c = row.at c := by
  obtain ⟨hlength, hcolumns⟩ := of_decide_eq_true hpasses
  have hlt : c < columns.length := hlength ▸ hc
  have hmem : (columns.get ⟨c, hlt⟩, c) ∈ columns.zipIdx :=
    mem_zipIdx_iff_getElem?.mpr (getElem?_eq_getElem hlt)
  rw [Row.at, ProjectionExec.apply, hexprs, getElem?_map, getElem?_append_left hlt,
    getElem?_eq_getElem hlt]
  exact columnIndex_value foreign (hcolumns _ hmem).1 row

/-- **A replaced distance projection** is sorted by passed columns exactly when the original is. -/
theorem distance_sorted_iff (order : CellOrder) (foreign : ForeignExprs)
    {projection : ProjectionExec} {exec : GpuVectorDistanceExec}
    (h : rewrite target (.unary (.projectionExec projection) input) =
      .ok (.unary (.gpuVectorDistanceExec exec) input))
    (hcalls : ConformingInput fpu input.schema calls) (houts : exec.execute fpu calls = .ok outs)
    (hordering : ∀ c ∈ ordering, c.column < input.schema.width) :
    SortedBy order ordering (streamRows outs) ↔ SortedBy order ordering
      ((streamRows (calls.map Prod.snd)).map (projection.apply foreign)) := by
  obtain ⟨columns, last, metric, column, query, hexprs, hpasses, -, hnew, -⟩ :=
    lowerVectorDistance_inv (rewrite_projection_distance h)
  have hbuilt : GpuVectorDistanceExec.tryNew input.schema exec.column exec.query exec.metric
      exec.outputName exec.target = .ok exec := by
    obtain ⟨-, rfl⟩ := GpuVectorDistanceExec.tryNew_eq_ok hnew
    exact hnew
  obtain ⟨outs', houts', hrows⟩ := GpuVectorDistanceExec.execute_rows hbuilt hcalls
  rw [houts] at houts'
  cases houts'
  have hsame : ∀ row ∈ streamRows (calls.map Prod.snd), ∀ c ∈ ordering,
      (withDistance fpu exec.metric exec.query exec.column row).at c.column =
        (projection.apply foreign row).at c.column := fun row hrow c hc => by
    rw [ProjectionExec.apply_at foreign hexprs hpasses row (hordering c hc)]
    exact at_append_left _ (hcalls.length_of_mem hrow ▸ hordering c hc)
  rw [hrows, SortedBy, SortedBy, pairwise_map, pairwise_map]
  refine Pairwise.iff_of_mem fun {a b} ha hb => ?_
  rw [rowLe_congr order (forall₂_same.mpr fun c hc => ⟨rfl, hsame a ha c hc, hsame b hb c hc⟩)]

/-! ## Hash joins -/

theorem HashJoinExec.output_eq (join : HashJoinExec) (foreign : ForeignExprs) (build probe : Schema)
    (buildRows probeRows : List Row) : join.output foreign build probe buildRows probeRows =
      (probeRows.map fun row => join.output foreign build probe buildRows [row]).flatten := by
  simp only [HashJoinExec.output, EquiJoin.joinRows, flatMap_singleton]
  exact flatMap_def

/-- The columns of the probe side among the output columns of a join. -/
def HashJoinExec.ProbeColumn (join : HashJoinExec) (build probe : Schema) (column : Nat) : Prop :=
  ∃ i < probe.width, (join.outputColumns build probe)[column]? = some (build.width + i)

/-- **When the order of a hash join survives**: the replacement has the rows of every probe row
together, and it is sorted exactly when these are.  They always are by columns of the probe side. -/
theorem hashJoin_sorted_iff (order : CellOrder) (foreign : ForeignExprs) {map : MapOrder}
    {contents : D → RecordBatch} {join : HashJoinExec} {build probe : Plan} {exec : GpuHashJoinExec}
    (hwf : (Plan.binary (.hashJoinExec join) build probe).WellFormed)
    (h : rewrite target (.binary (.hashJoinExec join) build probe) =
      .ok (.binary (.gpuHashJoinExec exec) probe build)) {buildSide : List RecordBatch}
    (hside : ∀ batch ∈ buildSide, batch.schema.fields = build.schema.fields)
    (hcalls : JoiningInput contents probe.schema calls)
    (houts : exec.execute map build.schema buildSide calls = .ok outs)
    (hsorted : SortedBy order ordering (join.output foreign build.schema probe.schema
      (streamRows buildSide) (streamRows (calls.map Prod.snd)))) :
    (∃ groups, Forall₂ (fun row group => group.Perm (join.output foreign build.schema
        probe.schema (streamRows buildSide) [row])) (streamRows (calls.map Prod.snd)) groups ∧
      streamRows outs = groups.flatten ∧ (SortedBy order ordering (streamRows outs) ↔
        ∀ group ∈ groups, SortedBy order ordering group)) ∧
    ((∀ c ∈ ordering, join.ProbeColumn build.schema probe.schema c.column) →
      SortedBy order ordering (streamRows outs)) := by
  obtain ⟨-, -, hnames, -⟩ := hwf.inputs
  have hlower := rewrite_hashJoin_eq h
  obtain ⟨groups, hgroups, hrows⟩ :=
    GpuHashJoinExec.execute_rows (lowerJoin_fits hnames hlower).1 hcalls houts
  have hwidth : ∀ row ∈ streamRows buildSide, row.length = build.schema.width :=
    fun row hrow => length_of_mem_streamRows hside hrow
  have hgroups' : Forall₂ (fun row group => group.Perm (join.output foreign build.schema
      probe.schema (streamRows buildSide) [row])) (streamRows (calls.map Prod.snd)) groups := by
    refine ((forall₂_and_left _ _).mpr ⟨fun _ => hcalls.length_of_mem, hgroups⟩).imp
      fun row group hgroup => ?_
    obtain ⟨hlen, hperm⟩ := hgroup
    rw [← (lowerJoin_joined foreign hnames hlower hwidth (forall_mem_singleton.mpr hlen)).1,
      GpuHashJoinExec.joined, innerJoin, EquiJoin.joinRows, flatMap_singleton]
    exact hperm
  rw [join.output_eq] at hsorted
  have hiff : SortedBy order ordering (streamRows outs) ↔
      ∀ group ∈ groups, SortedBy order ordering group := by
    rw [hrows]
    exact EquiJoin.pairwise_flatten_of_perm (forall₂_map_right_iff.mpr hgroups'.flip) hsorted
  refine ⟨⟨groups, hgroups', hrows, hiff⟩, fun hordering => hiff.mpr fun group hgroup => ?_⟩
  -- by columns of the probe side all rows of a probe row are the same
  obtain ⟨row, -, hperm⟩ := forall₂_exists_left hgroups' hgroup
  have hcell : ∀ x ∈ group, ∀ c ∈ ordering, ∃ i,
      (join.outputColumns build.schema probe.schema)[c.column]? = some (build.schema.width + i) ∧
        x.at c.column = row.at i := by
    intro x hx c hc
    obtain ⟨i, -, hcolumn⟩ := hordering c hc
    rw [hperm.mem_iff, HashJoinExec.output, EquiJoin.joinRows, flatMap_singleton] at hx
    obtain ⟨buildRow, hbuildRow, rfl⟩ := mem_map.mp hx
    have hlen := hwidth buildRow (mem_of_mem_filter hbuildRow)
    refine ⟨i, hcolumn, ?_⟩
    rw [select_at _ hcolumn, at_append_right _ (by omega), hlen, Nat.add_sub_cancel_left]
  refine pairwise_of_forall_mem_list fun x hx y hy => ?_
  rw [rowLe_congr order (forall₂_same.mpr fun c hc => ⟨rfl, rfl, ?_⟩), rowLe_refl order ordering x]
  obtain ⟨i, hi, hxi⟩ := hcell x hx c hc
  obtain ⟨j, hj, hyj⟩ := hcell y hy c hc
  obtain rfl : i = j := Nat.add_left_cancel (Option.some.inj (hi.symm.trans hj))
  exact hyj.trans hxi.symm

/-! ## Every replaced node -/

/-- **When output order survives placement.**  Every node the rule replaces, beside its original
on the same input, on any backends that decline or agree with the reference:

* a filter, with the projections fused into it, is sorted exactly when the original is without its
  row limit;
* a distance projection is sorted by columns it passes through exactly when the original is;
* a hash join in place of one that is sorted has the rows of every probe row together and is
  sorted exactly when these are, so always by columns of the probe side;
* a sort-merge join's replacement is in join-key order exactly when the matched rows of its left
  input behind the dropped sort are;
* an aggregate's replacement is in group-key order exactly when no two keys of the input stand
  otherwise under `options` than ascending with `NULL` last. -/
theorem placement_keeps_order_iff (order : CellOrder) (foreign : ForeignExprs) (fpu : FloatUnit)
    (map : MapOrder) (contents : D → RecordBatch) (target : BackendKind) :
    (∀ filter input projections exec, FusesTo target filter input projections exec →
      ∀ (calls : Calls D) outs ordering,
        ConformingInput fpu input.schema calls → exec.execute calls = .ok outs →
        (SortedBy order ordering (streamRows outs) ↔ SortedBy order ordering
          ((FilterExec.output { filter with fetch := none } foreign
            (streamRows (calls.map Prod.snd))).map (applyAll foreign projections)))) ∧
    (∀ projection input exec, rewrite target (.unary (.projectionExec projection) input) =
        .ok (.unary (.gpuVectorDistanceExec exec) input) →
      ∀ (calls : Calls D) outs ordering,
        ConformingInput fpu input.schema calls → exec.execute fpu calls = .ok outs →
        (∀ c ∈ ordering, c.column < input.schema.width) →
        (SortedBy order ordering (streamRows outs) ↔ SortedBy order ordering
          ((streamRows (calls.map Prod.snd)).map (projection.apply foreign)))) ∧
    (∀ join build probe exec, (Plan.binary (.hashJoinExec join) build probe).WellFormed →
      rewrite target (.binary (.hashJoinExec join) build probe) =
        .ok (.binary (.gpuHashJoinExec exec) probe build) →
      ∀ (calls : Calls D) buildSide outs ordering,
        (∀ batch ∈ buildSide, batch.schema.fields = build.schema.fields) →
        JoiningInput contents probe.schema calls →
        exec.execute map build.schema buildSide calls = .ok outs →
        SortedBy order ordering (join.output foreign build.schema probe.schema
          (streamRows buildSide) (streamRows (calls.map Prod.snd))) →
        (∃ groups, Forall₂ (fun row group => group.Perm (join.output foreign build.schema
            probe.schema (streamRows buildSide) [row])) (streamRows (calls.map Prod.snd)) groups ∧
          streamRows outs = groups.flatten ∧ (SortedBy order ordering (streamRows outs) ↔
            ∀ group ∈ groups, SortedBy order ordering group)) ∧
        ((∀ c ∈ ordering, join.ProbeColumn build.schema probe.schema c.column) →
          SortedBy order ordering (streamRows outs))) ∧
    (∀ join left right left' right' exec leftKey rightKey,
      rewrite target (.binary (.sortMergeJoinExec join) left right) =
        .ok (.binary (.gpuHashJoinExec exec) left' right') →
      joinKeys join.toJoinOn = some (leftKey, rightKey) →
      ∀ (calls : Calls D) buildSide outs options key,
        JoiningInput contents left'.schema calls →
        exec.execute map right'.schema buildSide calls = .ok outs →
        (key = leftKey ∨ key = left.schema.width + rightKey) →
        (SortedBy order [⟨key, options⟩] (streamRows outs) ↔
          SortedBy order [⟨leftKey, options⟩] (matchedRows leftKey rightKey
            (streamRows (calls.map Prod.snd)) (streamRows buildSide)))) ∧
    (∀ agg input source exec, rewrite target (.unary (.aggregateExec agg) input) =
        .ok (.unary (.gpuAggregateExec exec) source) →
      ∀ (backend : GpuBackend D) batches out options, backend.Conforms fpu →
        exec.execute fpu source.schema backend batches = .ok out →
        (SortedBy order [⟨0, options⟩] out.rows ↔
          options.AgreesOn ((streamRows batches).map (key · exec.spec.groupBy)))) := by
  refine ⟨?_, ?_, ?_, ?_, ?_⟩
  · intro filter input projections exec h calls outs ordering hcalls houts
    rw [h.execute_rows foreign hcalls houts]
  · intro projection input exec h calls outs ordering hcalls houts
    exact distance_sorted_iff order foreign h hcalls houts
  · intro join build probe exec hwf h calls buildSide outs ordering hside hcalls houts
    exact hashJoin_sorted_iff order foreign hwf h hside hcalls houts
  · intro join left right left' right' exec leftKey rightKey h hkeys calls buildSide outs options
      key hcalls houts
    exact sortMergeJoin_sorted_iff order h hkeys hcalls houts options
  · intro agg input source exec h backend batches out options conforms hout
    exact aggregate_sorted_iff order h conforms hout options

/-! ## Two keys, in both orders -/

/-- `Int64` cells by value. -/
def int64Order : CellOrder where
  le
    | .int64 a, .int64 b => decide (a ≤ b)
    | _, _ => true
  refl := by
    intro a
    cases a <;> simp
  int64 := fun _ _ => rfl

/-- Ascending, `NULL` last. -/
def ascending : SortOptions := ⟨false, false⟩

/-- Descending, `NULL` first. -/
def descending : SortOptions := ⟨true, true⟩

/-- The scan, sorted for a merge. -/
def sortedScan : Plan := .unary (.sortExec ⟨[(.column "k" 0, ascending)], none, true⟩) scanOfKeys

/-- `t JOIN u ON t.k = u.k` as a merge of the sorted scans. -/
def mergeJoin : SortMergeJoinExec where
  on := [(.column "k" 0, .column "k" 0)]
  filter := none
  joinType := .inner
  nullEquality := .nullEqualsNothing
  sortOptions := [ascending]
  schema := joinedSchema scanOfKeys.schema scanOfKeys.schema
  partitions := fun left _ => left

/-- What the rule makes of it: the sorts are gone. -/
def placedJoin : GpuHashJoinExec :=
  ⟨0, 0, none, joinedSchema scanOfKeys.schema scanOfKeys.schema, .cuda⟩

/-- `GROUP BY k` in one phase. -/
def groupByKey : AggregateExec where
  mode := .single
  groupExpr := ⟨[(.column "k" 0, "k")], [], true⟩
  aggrExpr := []
  filterExpr := []
  schema := scanOfKeys.schema

/-- What the rule makes of it. -/
def placedAggregate : GpuAggregateExec := ⟨⟨0, []⟩, scanOfKeys.schema, .cuda⟩

theorem rewrite_mergeJoin :
    rewrite .cuda (.binary (.sortMergeJoinExec mergeJoin) sortedScan sortedScan) =
      .ok (.binary (.gpuHashJoinExec placedJoin) scanOfKeys scanOfKeys) := rfl

theorem rewrite_groupByKey :
    rewrite .cuda (.unary (.aggregateExec groupByKey) scanOfKeys) =
      .ok (.unary (.gpuAggregateExec placedAggregate) scanOfKeys) := rfl

/-- One probe batch of two keys, on a device that joins. -/
def probeCalls (a b : Int64) : Calls RecordBatch :=
  [(OperatorState.nestedLoopBackend, twoKeys a b)]

/-- Both columns of a hash join of `b` and `k`. -/
def joinOfBoth : HashJoinExec := joinOfKeys none (joinedSchema scanOfB.schema scanOfKeys.schema)

/-- What the rule makes of it, with the sides exchanged. -/
def placedHashJoin : GpuHashJoinExec := ⟨0, 0, some [1, 0], joinOfBoth.schema, .cuda⟩

/-- The theorem at a filter, at a hash join of repeated keys, and at keys that arrive in ascending
order. -/
theorem placement_keeps_order_ascending :
    (∃ outs, placedFilter.execute keyCalls = .ok outs ∧
        SortedBy int64Order [⟨0, ascending⟩] (streamRows outs)) ∧
      (∃ outs, placedHashJoin.execute .insertion scanOfB.schema [buildBatch] (probeCalls 4 4) =
        .ok outs ∧ SortedBy int64Order [⟨1, descending⟩] (streamRows outs)) ∧
      (∃ outs, placedJoin.execute .insertion scanOfKeys.schema [twoKeys 1 2] (probeCalls 1 2) =
        .ok outs ∧ SortedBy int64Order [⟨0, ascending⟩] (streamRows outs)) ∧
      ∃ out, placedAggregate.execute noFloats scanOfKeys.schema
        (referenceBackend noFloats .insertion) [twoKeys 1 2] = .ok out ∧
        SortedBy int64Order [⟨0, ascending⟩] out.rows := by
  obtain ⟨hfilter, -, hjoin, hmerge, haggregate⟩ := placement_keeps_order_iff int64Order noForeign
    noFloats .insertion (id : RecordBatch → RecordBatch) .cuda
  have hcalls (a b : Int64) : JoiningInput id scanOfKeys.schema (probeCalls a b) := by
    intro call hcall
    cases mem_singleton.mp hcall
    exact ⟨OperatorState.nestedLoopBackend_joins, rfl⟩
  refine ⟨⟨_, rfl, ?_⟩, ⟨_, rfl, ?_⟩, ⟨_, rfl, ?_⟩, ⟨_, rfl, ?_⟩⟩
  · exact (hfilter (limitedFilter 2) scanOfKeys [] placedFilter (.lowered rfl) keyCalls _ _
      keyCalls_conform rfl).mpr (by decide)
  · refine (hjoin joinOfBoth scanOfB scanOfKeys placedHashJoin
      (.binary (.foreign nofun) scanOfKeys_wellFormed (joinOfKeys_namesColumns rfl) rfl) rfl
      (probeCalls 4 4) [buildBatch] _ _ (forall_mem_singleton.mpr rfl) (hcalls 4 4) rfl ?_).2 ?_
    · decide
    · exact forall_mem_singleton.mpr ⟨0, by decide, rfl⟩
  · exact (hmerge mergeJoin sortedScan sortedScan _ _ placedJoin 0 0 rewrite_mergeJoin rfl
      (probeCalls 1 2) [twoKeys 1 2] _ ascending 0 (hcalls 1 2) rfl (.inl rfl)).mpr (by decide)
  · exact (haggregate groupByKey scanOfKeys scanOfKeys placedAggregate rewrite_groupByKey
      (referenceBackend noFloats .insertion) [twoKeys 1 2] _ ascending
      (referenceBackend_conforms noFloats .insertion) rfl).mpr ⟨nofun, nofun⟩

/-- Keys that arrive as 2, 1: the merge join's replacement, which has to be
ascending, emits 2 first; and the aggregate's replacement over an input in
descending order emits 1 first. -/
theorem placement_loses_order :
    rewrite .cuda (.binary (.sortMergeJoinExec mergeJoin) sortedScan sortedScan) =
        .ok (.binary (.gpuHashJoinExec placedJoin) scanOfKeys scanOfKeys) ∧
      mergeJoin.sortOptions = [ascending] ∧
      (placedJoin.execute .insertion scanOfKeys.schema [twoKeys 1 2] (probeCalls 2 1)).toOption.map
        (fun outs => ((streamRows outs).map (key · 0),
          decide (SortedBy int64Order [⟨0, ascending⟩] (streamRows outs)))) =
        some ([some 2, some 1], false) ∧
      rewrite .cuda (.unary (.aggregateExec groupByKey) scanOfKeys) =
        .ok (.unary (.gpuAggregateExec placedAggregate) scanOfKeys) ∧
      SortedBy int64Order [⟨0, descending⟩] (streamRows [twoKeys 2 1]) ∧
      (placedAggregate.execute noFloats scanOfKeys.schema (referenceBackend noFloats .insertion)
        [twoKeys 2 1]).toOption.map (fun out => (out.rows.map (key · 0),
          decide (SortedBy int64Order [⟨0, descending⟩] out.rows))) =
        some ([some 1, some 2], false) :=
  ⟨rfl, rfl, by decide, rfl, by decide, by decide⟩

end OxideLake
