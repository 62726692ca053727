import OxideLake.Planner.AggregateRows
import OxideLake.Planner.Lowerings

/-!
# Collapsing a two-phase aggregation

DataFusion plans a grouped aggregation in two halves.  The partial half groups every
partition of its input on its own and emits one row of states a group, an exchange moves
those rows between partitions, and the final half combines the states of equal keys.  The
placement rule looks through the exchange and puts one `GpuAggregateExec` over the input of
the partial half: its spec is read off the partial half, its schema off the final one.

The halves are third-party code.  `TwoPhaseRun` says what is assumed of them, and
`collapse_sound` that every such run has the rows of the collapsed node.
-/

namespace OxideLake

open List TwoPhase Partial Row

variable {D : Type}

/-! ## The two halves, as DataFusion runs them -/

section Halves

variable (foreign : ForeignExprs)

/-- The value of the grouping expression. -/
def PhysicalGroupBy.key (group : PhysicalGroupBy) (row : Row) : Option Int64 :=
  (group.expr.head?.bind fun entry => entry.1.value foreign row).bind Cell.int64?

/-- The value of the argument of a call. -/
def AggregateFunctionExpr.argument (call : AggregateFunctionExpr) (row : Row) : Option Int64 :=
  (call.expressions.head?.bind fun arg => arg.value foreign row).bind Cell.int64?

variable (agg : AggregateExec)

/-- The aggregates of a node without `DISTINCT` and `FILTER`. -/
def AggregateExec.aggregates : Option (List (Aggregate Row Int64)) :=
  agg.aggrExpr.mapM fun call =>
    (aggregateFunction call.funName).map fun func => func.aggregateOf (call.argument foreign)

/-- How the states of the calls of a node are combined. -/
def AggregateExec.merges : Option (List (Int64 → Int64 → Int64)) :=
  agg.aggrExpr.mapM fun call => (aggregateFunction call.funName).map AggregateFunction.op

/-- The state row of a group: its key and one state a call. -/
abbrev StateRow := Option Int64 × Int64Array

/-- The partial half on one partition: one row of states a group, in any order. -/
def AggregateExec.PartialOf (rows : List Row) (states : List StateRow) :
    Prop :=
  ∃ aggregates, agg.aggregates foreign = some aggregates ∧
    GroupsOf (agg.groupExpr.key foreign) (reduceAll aggregates) rows states

/-- The final half on one partition: one row a key, its states combined, in any order. -/
def AggregateExec.FinalOf (states groups : List StateRow) : Prop :=
  ∃ merges, agg.merges = some merges ∧
    GroupsOf Prod.fst (fun entries => mergeAll merges (entries.map Prod.snd)) states groups

/-- What the chain of exchanges on top of a plan makes of the partitions of the node below
it: a repartitioning moves rows anywhere, a coalescing leaves one partition. -/
def Exchanges {α : Type} : Plan → List (List α) → List (List α) → Prop
  | .unary (.repartitionExec _) input, below, above =>
    ∃ between, Exchanges input below between ∧ above.flatten.Perm between.flatten
  | .unary .coalescePartitionsExec input, below, above =>
    ∃ between, Exchanges input below between ∧
      ∃ rows, above = [rows] ∧ rows.Perm between.flatten
  | _, below, above => above = below

theorem Exchanges.perm {α : Type} {plan : Plan} {below above : List (List α)}
    (h : Exchanges plan below above) : above.flatten.Perm below.flatten := by
  induction plan using lookThrough.induct generalizing above with
  | case1 partitions input ih =>
    obtain ⟨between, hbetween, hperm⟩ := h
    exact hperm.trans (ih hbetween)
  | case2 input ih =>
    obtain ⟨between, hbetween, rows, rfl, hperm⟩ := h
    rw [flatten_singleton]
    exact hperm.trans (ih hbetween)
  | case3 plan hrepartition hcoalesce =>
    unfold Exchanges at h
    split at h
    · exact (hrepartition _ _ rfl).elim
    · exact (hcoalesce _ rfl).elim
    · rw [h]

/-- **A run of the two halves** over the partitions of their input.  The states are exchanged
so that the rows of a key meet in one partition, which is what the final half requires of
its input, and the final half emits batches of its schema. -/
structure TwoPhaseRun (final half : AggregateExec) (input : Plan)
    (partitions outs : List (List RecordBatch)) where
  states : List (List StateRow)
  exchanged : List (List StateRow)
  groups : List (List StateRow)
  partialPhase : List.Forall₂ (fun part state => half.PartialOf foreign (streamRows part) state)
    partitions states
  exchange : Exchanges input states exchanged
  colocated : exchanged.Pairwise fun part part' =>
    List.Disjoint (part.map Prod.fst) (part'.map Prod.fst)
  finalPhase : List.Forall₂ final.FinalOf exchanged groups
  emits : List.Forall₂ (fun group out => streamRows out = group.map groupRow) groups outs
  schema : ∀ out ∈ outs, ∀ batch ∈ out, batch.schema = final.schema

/-- Every argument that is a plain column is an `Int64` one. -/
def AggregateExec.OverInt64 (input : Schema) : Prop :=
  ∀ call ∈ agg.aggrExpr, ∀ arg ∈ call.expressions, ∀ index, columnIndex arg = some index →
    input.HasInt64 index

/-- Every group's `SUM`s fit `i64`. -/
def AggregateExec.SumsFit (rows : List Row) : Prop :=
  ∀ call ∈ agg.aggrExpr, aggregateFunction call.funName = some .sum → ∀ key,
    FitsInt64 (exactSum ((ofKey (agg.groupExpr.key foreign) rows key).map (call.argument foreign)))

end Halves

/-! ## The spec is the partial half -/

section Spec

variable (foreign : ForeignExprs)

theorem columnIndex_key {expr : PhysicalExpr} {index : Nat} (h : columnIndex expr = some index)
    (row : Row) : (expr.value foreign row).bind Cell.int64? = key row index := by
  rw [columnIndex_value foreign h]
  rfl

variable {half : AggregateExec} {source : Schema} {spec : AggregateSpec}

/-- **The spec of the partial half** groups and aggregates as the half does. -/
theorem lowerAggregateSpec_overRows (h : lowerAggregateSpec half source = .ok (some spec)) :
    half.groupExpr.key foreign = (key · spec.groupBy) ∧
      List.Forall₂ (fun call entry => aggregateFunction call.funName = some entry.1 ∧
        (∃ arg, call.expressions = [arg] ∧ columnIndex arg = some entry.2) ∧
        call.argument foreign = (key · entry.2)) half.aggrExpr spec.aggregates := by
  obtain ⟨hgroup, -, -, hcalls⟩ := lowerAggregateSpec_eq_some h
  refine ⟨?_, hcalls.imp fun call entry hcall => ?_⟩
  · unfold groupColumn at hgroup
    split at hgroup
    · split at hgroup
      · next key name hexpr =>
        funext row
        rw [PhysicalGroupBy.key, hexpr]
        exact columnIndex_key foreign hgroup row
      · cases hgroup
    · cases hgroup
  · obtain ⟨hfunc, -, arg, hexpressions, harg, -⟩ := hcall
    refine ⟨hfunc, ⟨arg, hexpressions, harg⟩, ?_⟩
    funext row
    rw [AggregateFunctionExpr.argument, hexpressions]
    exact columnIndex_key foreign harg row

end Spec

/-! ## The collapsed node -/

section Collapse

variable {foreign : ForeignExprs} {target : BackendKind} {final half : AggregateExec}
  {input source plan : Plan} {spec : AggregateSpec} {partitions outs : List (List RecordBatch)}

theorem lowerAggregate_twoPhase (hmode : final.mode = .final ∨ final.mode = .finalPartitioned)
    (hlook : lookThrough input = .unary (.aggregateExec half) source)
    (h : lowerAggregate target final input = .ok (some plan)) :
    ∃ exec, plan = .unary (.gpuAggregateExec exec) (coalesced source) ∧
      exec.schema = final.schema ∧ exec.Built source.schema ∧
      lowerAggregateSpec half source.schema = .ok (some exec.spec) := by
  obtain ⟨half', source', spec, fresh, exec, hsource, hspec, hfresh, hwith, rfl⟩ :=
    lowerAggregate_eq_some h
  have hbehind : lookThrough input = .unary (.aggregateExec half') source' := by
    rcases aggregateSource_eq_some hsource with ⟨-, -, hreads⟩ | ⟨hbehind, -⟩
    · rcases hmode with hmode | hmode
      · rw [hmode] at hreads
        cases hreads
      · rw [hmode] at hreads
        cases hreads
    · exact hbehind
  rw [hlook] at hbehind
  cases hbehind
  obtain ⟨-, fields, rfl, -⟩ := GpuAggregateExec.tryNew_eq_ok hfresh
  obtain rfl := GpuAggregateExec.withOutputSchema_ok hwith
  exact ⟨_, rfl, rfl, ⟨_, hfresh, hwith⟩, hspec⟩

theorem aggregates_eq_overRows (foreign : ForeignExprs)
    (hspec : lowerAggregateSpec half source.schema = .ok (some spec)) :
    half.aggregates foreign = some spec.overRows ∧
      half.merges = some (spec.overRows.map Aggregate.op) := by
  obtain ⟨-, hcalls⟩ := lowerAggregateSpec_overRows foreign hspec
  rw [AggregateExec.aggregates, AggregateExec.merges, mapM_eq_some_iff,
    mapM_eq_some_iff, AggregateSpec.overRows, map_map, forall₂_map_right_iff,
    forall₂_map_right_iff]
  refine ⟨hcalls.imp fun call entry hcall => ?_, hcalls.imp fun call entry hcall => ?_⟩
  · rw [hcall.1, hcall.2.2]
    rfl
  · rw [hcall.1]
    rfl

/-- The final half merges as the partial half does, when the two have the same functions. -/
theorem merges_congr (h : final.aggrExpr.map AggregateFunctionExpr.funName =
    half.aggrExpr.map AggregateFunctionExpr.funName) : final.merges = half.merges := by
  have hnames : ∀ agg : AggregateExec, agg.merges =
      (agg.aggrExpr.map AggregateFunctionExpr.funName).mapM fun name =>
        (aggregateFunction name).map AggregateFunction.op := by
    intro agg
    rw [mapM_map]
    rfl
  rw [hnames, hnames, h]

theorem TwoPhaseRun.groupsOf (run : TwoPhaseRun foreign final half input partitions outs)
    (hhalves : final.aggrExpr.map AggregateFunctionExpr.funName =
      half.aggrExpr.map AggregateFunctionExpr.funName)
    (hspec : lowerAggregateSpec half source.schema = .ok (some spec)) :
    GroupsOf (key · spec.groupBy) (reduceAll spec.overRows) (streamRows partitions.flatten)
      run.groups.flatten := by
  obtain ⟨hkey, -⟩ := lowerAggregateSpec_overRows foreign hspec
  obtain ⟨haggregates, hmerges⟩ := aggregates_eq_overRows foreign hspec
  have hpartial : List.Forall₂ (GroupsOf (key · spec.groupBy) (reduceAll spec.overRows))
      (partitions.map streamRows) run.states := by
    rw [forall₂_map_left_iff]
    refine run.partialPhase.imp fun part state hstate => ?_
    obtain ⟨aggregates, haggregates', hgroups⟩ := hstate
    rw [haggregates] at haggregates'
    cases haggregates'
    rwa [hkey] at hgroups
  have hfinal : List.Forall₂ (GroupsOf Prod.fst fun entries =>
      mergeAll (spec.overRows.map Aggregate.op) (entries.map Prod.snd)) run.exchanged
        run.groups := by
    refine run.finalPhase.imp fun state group hgroup => ?_
    obtain ⟨merges, hmerges', hgroups⟩ := hgroup
    rw [merges_congr hhalves, hmerges] at hmerges'
    cases hmerges'
    exact hgroups
  rw [streamRows_flatten]
  exact GroupsOf.two_phase (mergeAll_map_reduceAll spec.overRows) (fun _ _ => mergeAll_perm)
    hpartial run.exchange.perm (GroupsOf.flatten hfinal run.colocated)

theorem TwoPhaseRun.rows_eq (run : TwoPhaseRun foreign final half input partitions outs) :
    streamRows outs.flatten = run.groups.flatten.map groupRow := by
  have hemits : List.Forall₂ Eq (outs.map streamRows)
      (run.groups.map fun group => group.map groupRow) := by
    rw [forall₂_map_left_iff, forall₂_map_right_iff]
    exact run.emits.flip
  rw [forall₂_eq_eq_eq] at hemits
  rw [streamRows_flatten, map_flatten, hemits]

/-- **Collapsing a two-phase aggregation is sound.**  Whatever the distribution of the input
over partitions and the exchange between the halves, the node the rule puts in their place
emits the rows the final half emits, under its schema, on every backend that conforms and
for every order in which the batches of its input arrive. -/
theorem collapse_sound (fpu : FloatUnit)
    (hmode : final.mode = .final ∨ final.mode = .finalPartitioned)
    (hlook : lookThrough input = .unary (.aggregateExec half) source)
    (hhalves : final.aggrExpr.map AggregateFunctionExpr.funName =
      half.aggrExpr.map AggregateFunctionExpr.funName)
    (hint64 : half.OverInt64 source.schema)
    (hlower : lowerAggregate target final input = .ok (some plan))
    (run : TwoPhaseRun foreign final half input partitions outs)
    (hschema : ∀ part ∈ partitions, ∀ batch ∈ part, batch.schema.fields = source.schema.fields)
    (hrows : (streamRows partitions.flatten).length < 2 ^ 63)
    (hfits : half.SumsFit foreign (streamRows partitions.flatten))
    {backend : GpuBackend D} (conforms : backend.Conforms fpu) {arrivals : List RecordBatch}
    (harrivals : arrivals.Perm partitions.flatten) :
    ∃ exec out, plan = .unary (.gpuAggregateExec exec) (coalesced source) ∧
      exec.execute fpu (coalesced source).schema backend arrivals = .ok out ∧
      out.schema = final.schema ∧ out.rows.Perm (streamRows outs.flatten) := by
  obtain ⟨exec, rfl, hexecSchema, hbuilt, hspec⟩ := lowerAggregate_twoPhase hmode hlook hlower
  have hgroups := run.groupsOf hhalves hspec
  have hsameRows : (streamRows arrivals).Perm (streamRows partitions.flatten) :=
    harrivals.flatMap_right _
  have hvalues : ∀ entry ∈ exec.spec.aggregates, source.schema.HasInt64 entry.2 := by
    intro entry hentry
    obtain ⟨call, hcall, -, ⟨arg, harg, hindex⟩, -⟩ :=
      forall₂_exists_left (lowerAggregateSpec_overRows foreign hspec).2 hentry
    exact hint64 call hcall arg (harg ▸ mem_singleton_self arg) entry.2 hindex
  have hsums : exec.spec.SumsFit (streamRows arrivals) := by
    intro entry hentry hsum key
    obtain ⟨hkey, hcalls⟩ := lowerAggregateSpec_overRows foreign hspec
    obtain ⟨call, hcall, hfunc, -, hargument⟩ := forall₂_exists_left hcalls hentry
    have hfit := hfits call hcall (hsum ▸ hfunc) key
    rw [hkey, hargument] at hfit
    rwa [exactSum_perm ((ofKey_perm hsameRows key).map _)]
  have hnull : ∀ key ∈ (streamRows arrivals).map (Row.key · exec.spec.groupBy),
      ∀ (i : Nat) (field : Field), exec.schema.fields[i]? = some field → field.nullable = false →
        Row.at (groupRow (key, reduceAll exec.spec.overRows
          (ofKey (Row.key · exec.spec.groupBy) (streamRows arrivals) key))) i ≠ none := by
    intro key hkey i field hfield hplanned
    rw [reduceAll_perm _ (ofKey_perm hsameRows key)]
    -- the final half emits this row, so its schema allows it
    have hmem : groupRow (key, reduceAll exec.spec.overRows (ofKey (Row.key · exec.spec.groupBy)
        (streamRows partitions.flatten) key)) ∈ streamRows outs.flatten := by
      rw [run.rows_eq]
      exact mem_map_of_mem ((hgroups.mem_iff _).mpr
        ⟨(hsameRows.map _).mem_iff.mp hkey, rfl⟩)
    obtain ⟨batch, hbatch, hrow⟩ := mem_flatMap.mp hmem
    obtain ⟨part, hpart, hbatch⟩ := mem_flatten.mp hbatch
    rw [hexecSchema, ← run.schema part hpart batch hbatch] at hfield
    exact RecordBatch.at_ne_none hrow hfield hplanned
  obtain ⟨out, groups, hout, houtSchema, houtRows, hgroups'⟩ :=
    exec.execute_groups fpu hbuilt hvalues conforms (fun batch hbatch => by
      obtain ⟨part, hpart, hbatch⟩ := mem_flatten.mp (harrivals.mem_iff.mp hbatch)
      exact hschema part hpart batch hbatch) (hsameRows.length_eq ▸ hrows) hsums hnull
  refine ⟨exec, out, rfl, ?_, houtSchema.trans hexecSchema, ?_⟩
  · rw [coalesced_schema]
    exact hout
  · rw [houtRows, run.rows_eq]
    exact (hgroups'.perm (fun _ _ => reduceAll_perm exec.spec.overRows) hgroups hsameRows).map
      groupRow

end Collapse

/-! ## A count in two phases -/

/-- A table of one `Int64` column, in two partitions. -/
def twoPartKeys : Plan := .foreign ⟨"DataSourceExec", keySchema, fun _ => 2⟩ []

/-- A key and a count that is never `NULL`. -/
def countSchema : Schema := ⟨[⟨"k", .int64, true, []⟩, ⟨"count(t.k)", .int64, false, []⟩], []⟩

/-- One half of `SELECT k, COUNT(k) FROM t GROUP BY k`. -/
def keyCounts (mode : AggregateMode) : AggregateExec where
  mode := mode
  groupExpr := ⟨[(.column "k" 0, "k")], [], true⟩
  aggrExpr := [⟨"count", false, [.column "k" 0]⟩]
  filterExpr := [none]
  schema := countSchema

/-- The partial half behind two exchanges. -/
def exchangedCounts : Plan :=
  .unary .coalescePartitionsExec (.unary (.repartitionExec 4)
    (.unary (.aggregateExec (keyCounts .partialMode)) twoPartKeys))

/-- The collapsed node. -/
def collapsedCounts : Plan :=
  .unary (.gpuAggregateExec ⟨⟨0, [(.count, 0)]⟩, countSchema, .cuda⟩)
    (.unary .coalescePartitionsExec twoPartKeys)

/-- The only group: the key `0`, two rows. -/
def countBatch : RecordBatch :=
  .ofEntries [(⟨"k", .int64, true, []⟩, .ofInt64 [some 0]),
    (⟨"count(t.k)", .int64, false, []⟩, .ofInt64 [some 2])]
    1 (by decide)

/-- Two partitions of one row each; both states reach the one final partition. -/
def countRun : TwoPhaseRun noForeign (keyCounts .final) (keyCounts .partialMode) exchangedCounts
    [[equalKeys 1 oneRow_lt], [equalKeys 1 oneRow_lt]] [[countBatch]] where
  states := [[(some 0, [some 1])], [(some 0, [some 1])]]
  exchanged := [[(some 0, [some 1]), (some 0, [some 1])]]
  groups := [[(some 0, [some 2])]]
  partialPhase := by
    have hpart : (keyCounts .partialMode).PartialOf noForeign (streamRows [equalKeys 1 oneRow_lt])
        [(some 0, [some 1])] :=
      ⟨_, rfl, groupsOf_keys (nodup_singleton (some 0)) fun _ => .rfl⟩
    exact .cons hpart (.cons hpart .nil)
  exchange := ⟨_, ⟨_, rfl, .refl _⟩, _, rfl, .refl _⟩
  colocated := pairwise_singleton _ _
  finalPhase := by
    refine .cons ⟨_, rfl, ?_⟩ .nil
    exact groupsOf_keys (nodup_singleton (some 0)) (by simp)
  emits := .cons rfl .nil
  schema := by
    intro out hout batch hbatch
    cases mem_singleton.mp hout
    cases mem_singleton.mp hbatch
    rfl

/-- The theorem at that run. -/
theorem collapse_sound_counts :
    ∃ exec out, collapsedCounts = .unary (.gpuAggregateExec exec) (coalesced twoPartKeys) ∧
      exec.execute noFloats (coalesced twoPartKeys).schema (referenceBackend noFloats .insertion)
        [equalKeys 1 (by decide), equalKeys 1 (by decide)] = .ok out ∧
      out.schema = countSchema ∧ out.rows.Perm [[some (.int64 0), some (.int64 2)]] := by
  have hone : ∀ batch ∈ [equalKeys 1 (by decide)], batch.schema.fields =
      twoPartKeys.schema.fields := by
    intro batch hbatch
    cases mem_singleton.mp hbatch
    rfl
  have hlook : lookThrough exchangedCounts =
      .unary (.aggregateExec (keyCounts .partialMode)) twoPartKeys := rfl
  have hlower : lowerAggregate .cuda (keyCounts .final) exchangedCounts =
      .ok (some collapsedCounts) := rfl
  have hhalves : (keyCounts .final).aggrExpr.map AggregateFunctionExpr.funName =
      (keyCounts .partialMode).aggrExpr.map AggregateFunctionExpr.funName := rfl
  have hrows : (streamRows [[equalKeys 1 (by decide)], [equalKeys 1 (by decide)]].flatten).length <
      2 ^ 63 := by decide
  refine collapse_sound noFloats (.inl rfl) hlook hhalves ?_ hlower countRun ?_ hrows ?_
    (referenceBackend_conforms noFloats .insertion) (.refl _)
  · intro call hcall arg harg index hindex
    cases mem_singleton.mp hcall
    cases mem_singleton.mp harg
    cases hindex
    exact ⟨_, rfl, rfl⟩
  · intro part hpart
    rcases mem_pair.mp hpart with rfl | rfl
    · exact hone
    · exact hone
  · intro call hcall hsum
    cases mem_singleton.mp hcall
    cases hsum

end OxideLake
