import OxideLake.Planner.Totality

/-!
# Partition counts under placement

A `Partitioned` hash join and a sort-merge join of DataFusion run partition by
partition, so their two inputs need the same number of partitions.  Placement
changes partition counts below such joins: `GpuAggregateExec` has one output
partition whatever it replaces, and a placed sort-merge join takes the partitions of
its left input behind the dropped sort.

`placedCount` reads the partition count of a rewritten plan off the plan it was made
from, and `optimize_balanced_iff` says when the joins that stay keep equal counts.
-/

namespace OxideLake

open Partial

variable {plan' input left right : Plan} {op : UnaryExec} {target : BackendKind}
  {agg : AggregateExec}

/-! ## Balanced joins -/

/-- The nodes that run partition-wise over two inputs. -/
def BinaryExec.partitionWise : BinaryExec → Bool
  | .hashJoinExec join => join.mode = .partitioned
  | .sortMergeJoinExec _ => true
  | .gpuHashJoinExec _ => false

/-- Every node with two inputs satisfies `P`. -/
inductive Plan.EachJoin (P : BinaryExec → Plan → Plan → Prop) : Plan → Prop where
  | unary {op : UnaryExec} {input : Plan} (hinput : input.EachJoin P) :
      Plan.EachJoin P (.unary op input)
  | binary {op : BinaryExec} {left right : Plan} (hleft : left.EachJoin P)
      (hright : right.EachJoin P) (hop : P op left right) : Plan.EachJoin P (.binary op left right)
  | foreign {op : ForeignExec} {children : List Plan}
      (hchildren : ∀ child ∈ children, child.EachJoin P) : Plan.EachJoin P (.foreign op children)

/-- Every partition-wise join has as many partitions on the left as on the right. -/
def Plan.Balanced : Plan → Prop :=
  Plan.EachJoin fun op left right =>
    op.partitionWise = true → left.partitionCount = right.partitionCount

section EachJoin

variable {P : BinaryExec → Plan → Plan → Prop}

theorem Plan.eachJoin_unary :
    (Plan.unary op input).EachJoin P ↔ input.EachJoin P :=
  ⟨fun h => by cases h; assumption, .unary⟩

theorem Plan.eachJoin_binary {op : BinaryExec} :
    (Plan.binary op left right).EachJoin P ↔
      left.EachJoin P ∧ right.EachJoin P ∧ P op left right :=
  ⟨fun h => by cases h; exact ⟨‹_›, ‹_›, ‹_›⟩, fun ⟨hleft, hright, hop⟩ => .binary hleft hright hop⟩

theorem Plan.eachJoin_foreign {op : ForeignExec} {children : List Plan} :
    (Plan.foreign op children).EachJoin P ↔ ∀ child ∈ children, child.EachJoin P :=
  ⟨fun h => by cases h; assumption, .foreign⟩

theorem eachJoin_stripSort (plan : Plan) : (stripSort plan).EachJoin P ↔ plan.EachJoin P := by
  unfold stripSort
  split
  · split
    · exact Plan.eachJoin_unary.symm
    · exact Iff.rfl
  · exact Iff.rfl

theorem eachJoin_lookThrough (plan : Plan) : (lookThrough plan).EachJoin P ↔ plan.EachJoin P := by
  fun_induction lookThrough plan with
  | case1 _ _ ih | case2 _ ih => exact ih.trans Plan.eachJoin_unary.symm
  | case3 => exact Iff.rfl

theorem eachJoin_coalesced (source : Plan) :
    (coalesced source).EachJoin P ↔ source.EachJoin P := by
  unfold coalesced
  split
  · exact Plan.eachJoin_unary
  · exact Iff.rfl

theorem eachJoin_aggregateSource {half : AggregateExec} {source : Plan}
    (h : aggregateSource agg input = some (half, source)) :
    source.EachJoin P ↔ input.EachJoin P := by
  rcases aggregateSource_eq_some h with ⟨-, rfl, -⟩ | ⟨hlook, -⟩
  · exact Iff.rfl
  · rw [← eachJoin_lookThrough input, hlook]
    exact Plan.eachJoin_unary.symm

end EachJoin

/-! ## Counting ahead -/

/-- The lowering replaces its node. -/
def lowered {α : Type} : DFResult (Option α) → Bool
  | .ok (some _) => true
  | _ => false

/-- The rule replaces the join, over inputs of these schemas. -/
def BinaryExec.lowers (target : BackendKind) (left right : Schema) : BinaryExec → Bool
  | .hashJoinExec join => lowered (lowerJoin target join left right)
  | .sortMergeJoinExec join => lowered (lowerSortMergeJoin target join left right)
  | .gpuHashJoinExec _ => false

/-- The partition count of what a node with one input becomes, over an input that
becomes one of `count` partitions.  `stripped`: a sort without a limit is dropped. -/
def UnaryExec.placedPartitions (target : BackendKind) (stripped : Bool) (input : Plan)
    (count : Nat) : UnaryExec → Nat
  | .aggregateExec agg => if lowered (lowerAggregate target agg input) then 1 else count
  | .sortExec sort => if stripped && sort.fetch.isNone then count
      else (UnaryExec.sortExec sort).partitions count
  | op => op.partitions count

/-- The partition count of what a node with two inputs becomes: a placed hash join
has the partitions of its right (probe) input, a placed sort-merge join those of its
left input behind a sort. -/
def BinaryExec.placedPartitions (lowers : Bool) (left behindSort right : Nat) : BinaryExec → Nat
  | .hashJoinExec join => if lowers then right else join.partitions left right
  | .sortMergeJoinExec join => if lowers then behindSort else join.partitions left right
  | .gpuHashJoinExec _ => left

mutual

/-- The partition count of the rewritten plan, read off the original. -/
def placedCount (target : BackendKind) (stripped : Bool) : Plan → Nat
  | .unary op input =>
    op.placedPartitions target stripped input (placedCount target false input)
  | .binary op left right =>
    op.placedPartitions (op.lowers target left.schema right.schema)
      (placedCount target false left) (placedCount target true left)
      (placedCount target false right)
  | .foreign op children => op.partitions (placedCounts target children)

/-- The partition counts of rewritten inputs. -/
def placedCounts (target : BackendKind) : List Plan → List Nat
  | [] => []
  | child :: children => placedCount target false child :: placedCounts target children

end

/-- Every partition-wise join that stays will have as many partitions on the left as
on the right. -/
def Plan.StaysBalanced (target : BackendKind) : Plan → Prop :=
  Plan.EachJoin fun op left right =>
    op.partitionWise = true → op.lowers target left.schema right.schema = false →
      placedCount target false left = placedCount target false right

/-- The lowering of an aggregate depends on its input through the aggregate half it
finds and the schema below that half. -/
theorem lowered_lowerAggregate_congr (target : BackendKind) {input' : Plan}
    (h : (aggregateSource agg input').map (Prod.map id Plan.schema) =
      (aggregateSource agg input).map (Prod.map id Plan.schema)) :
    lowered (lowerAggregate target agg input') = lowered (lowerAggregate target agg input) := by
  have hplace : ∀ {source source' : Plan} (spec : AggregateSpec), source'.schema = source.schema →
      lowered (placeAggregate target agg.schema source' spec) =
        lowered (placeAggregate target agg.schema source spec) := by
    intro source source' spec hschema
    unfold placeAggregate
    rw [coalesced_schema, coalesced_schema, hschema]
    cases GpuAggregateExec.tryNew source.schema spec target with
    | error e => rfl
    | ok exec =>
      rw [ok_bind, ok_bind]
      cases exec.withOutputSchema agg.schema <;> rfl
  unfold lowerAggregate
  cases hsource' : aggregateSource agg input' with
  | none =>
    cases hsource : aggregateSource agg input with
    | none => rfl
    | some entry =>
      rw [hsource', hsource] at h
      cases h
  | some entry' =>
    cases hsource : aggregateSource agg input with
    | none =>
      rw [hsource', hsource] at h
      cases h
    | some entry =>
      rw [hsource', hsource] at h
      obtain ⟨half', source'⟩ := entry'
      obtain ⟨half, source⟩ := entry
      obtain ⟨rfl, hschema⟩ := Prod.mk.inj (Option.some.inj h)
      simp only [id] at hschema ⊢
      rw [hschema]
      cases lowerAggregateSpec half' source.schema with
      | error e => rfl
      | ok spec =>
        cases spec with
        | none => rfl
        | some spec => exact hplace spec hschema

/-! ## What the rewrite makes of a plan -/

/-- `plan'` is what the rewrite makes of `plan`, as far as partitions go: its count is
the count read ahead, behind a sort too, its joins are balanced exactly when those
that stay will be, and an aggregate above finds the same half in both. -/
structure PlacedAs (target : BackendKind) (plan plan' : Plan) : Prop where
  count : plan'.partitionCount = placedCount target false plan
  stripped : (stripSort plan').partitionCount = placedCount target true plan
  balanced : plan'.Balanced ↔ plan.StaysBalanced target
  half : ∀ agg, (partialHalf agg (lookThrough plan')).map (Prod.map id Plan.schema) =
    (partialHalf agg (lookThrough plan)).map (Prod.map id Plan.schema)

section Steps

variable {target : BackendKind} {input input' left left' right right' : Plan}

theorem PlacedAs.aggregateSource (h : PlacedAs target input input') (hkeeps : Keeps input input')
    (agg : AggregateExec) :
    (aggregateSource agg input').map (Prod.map id Plan.schema) =
      (OxideLake.aggregateSource agg input).map (Prod.map id Plan.schema) := by
  unfold OxideLake.aggregateSource
  split
  · exact congrArg (fun schema => some (agg, schema)) hkeeps.2
  · exact congrArg (fun schema => some (agg, schema)) hkeeps.2
  · exact h.half agg
  · exact h.half agg
  · rfl

section

variable (ih : PlacedAs target input input')
include ih

theorem PlacedAs.passThrough
    (hop : ∀ stripped count, op.placedPartitions target stripped input count = count)
    (hcount : plan'.partitionCount = input'.partitionCount) (hsort : stripSort plan' = plan')
    (hbalanced : plan'.Balanced ↔ input'.Balanced)
    (hhalf : ∀ agg, partialHalf agg (lookThrough plan') = none)
    (hhalf' : ∀ agg, partialHalf agg (lookThrough (.unary op input)) = none) :
    PlacedAs target (.unary op input) plan' where
  count := by
    rw [placedCount, hop, hcount, ih.count]
  stripped := by
    rw [placedCount, hop, hsort, hcount, ih.count]
  balanced := hbalanced.trans (ih.balanced.trans Plan.eachJoin_unary.symm)
  half := fun agg => by rw [hhalf, hhalf']

theorem PlacedAs.aggregateExec (hkeeps : Keeps input input')
    (h : rewrite target (.unary (.aggregateExec agg) input') = .ok plan') :
    PlacedAs target (.unary (.aggregateExec agg) input) plan' := by
  have hsame := lowered_lowerAggregate_congr target (ih.aggregateSource hkeeps agg)
  obtain ⟨gpu, hgpu, h⟩ := bind_eq_ok_iff.mp h
  cases h
  rw [hgpu] at hsame
  cases gpu with
  | none =>
    -- the node stays over the rewritten input
    have hcount : ∀ stripped, placedCount target stripped (.unary (.aggregateExec agg) input) =
        placedCount target false input := by
      intro stripped
      rw [placedCount, UnaryExec.placedPartitions, ← hsame]
      rfl
    refine ⟨(hcount false).symm ▸ ih.count, (hcount true).symm ▸ ih.count,
      Plan.eachJoin_unary.trans (ih.balanced.trans Plan.eachJoin_unary.symm), fun above => ?_⟩
    show (partialHalf above (.unary (.aggregateExec agg) input')).map _ =
      (partialHalf above (.unary (.aggregateExec agg) input)).map _
    rw [partialHalf, partialHalf]
    split
    · exact congrArg (fun schema => some (agg, schema)) hkeeps.2
    · rfl
  | some plan =>
    obtain ⟨half, source, spec, fresh, exec, hsource, -, -, -, rfl⟩ := lowerAggregate_eq_some hgpu
    have hcount : ∀ stripped, placedCount target stripped (.unary (.aggregateExec agg) input) =
        1 := by
      intro stripped
      rw [placedCount, UnaryExec.placedPartitions, ← hsame]
      rfl
    refine ⟨(hcount false).symm, (hcount true).symm, ?_, fun above => ?_⟩
    · refine (Plan.eachJoin_unary.trans (eachJoin_coalesced source)).trans ?_
      exact (eachJoin_aggregateSource hsource).trans (ih.balanced.trans Plan.eachJoin_unary.symm)
    · -- the replaced aggregate is no partial half, and neither was the original
      have hmode : agg.mode ≠ .partialMode := by
        intro hmode
        rw [OxideLake.aggregateSource, hmode] at hsource
        cases hsource
      show none = (partialHalf above (.unary (.aggregateExec agg) input)).map _
      rw [partialHalf, if_neg fun h => hmode h.1]
      rfl

theorem PlacedAs.filterExec {filter : FilterExec}
    (h : rewrite target (.unary (.filterExec filter) input') = .ok plan') :
    PlacedAs target (.unary (.filterExec filter) input) plan' := by
  cases rewrites_of_rewrite h with
  | kept | filter _ =>
    exact ih.passThrough (fun _ _ => rfl) rfl rfl Plan.eachJoin_unary (fun _ => rfl) fun _ => rfl

theorem PlacedAs.projectionExec {projection : ProjectionExec}
    (h : rewrite target (.unary (.projectionExec projection) input') = .ok plan') :
    PlacedAs target (.unary (.projectionExec projection) input) plan' := by
  cases rewrites_of_rewrite h with
  | kept =>
    exact ih.passThrough (fun _ _ => rfl) rfl rfl Plan.eachJoin_unary (fun _ => rfl) fun _ => rfl
  | fused _ =>
    exact ih.passThrough (fun _ _ => rfl) rfl rfl
      (Plan.eachJoin_unary.trans Plan.eachJoin_unary.symm) (fun _ => rfl) fun _ => rfl
  | distance _ =>
    exact ih.passThrough (fun _ _ => rfl) rfl rfl Plan.eachJoin_unary (fun _ => rfl) fun _ => rfl

/-- **The step at a node with one input.** -/
theorem PlacedAs.unary (hkeeps : Keeps input input')
    (h : rewrite target (.unary op input') = .ok plan') :
    PlacedAs target (.unary op input) plan' := by
  have hbalanced : ∀ {op : UnaryExec}, (Plan.unary op input').Balanced ↔
      (Plan.unary op input).StaysBalanced target :=
    Plan.eachJoin_unary.trans (ih.balanced.trans Plan.eachJoin_unary.symm)
  cases op with
  | filterExec filter => exact ih.filterExec h
  | projectionExec projection => exact ih.projectionExec h
  | aggregateExec agg => exact ih.aggregateExec hkeeps h
  | sortExec sort =>
    cases h
    refine ⟨?_, ?_, hbalanced, fun _ => rfl⟩
    · rw [placedCount, ← ih.count]
      rfl
    · rw [placedCount, UnaryExec.placedPartitions, ← ih.count, stripSort]
      cases sort.fetch.isNone <;> rfl
  | repartitionExec n | coalescePartitionsExec =>
    cases h
    exact ⟨rfl, rfl, hbalanced, ih.half⟩
  | gpuAggregateExec exec =>
    cases h
    exact ⟨rfl, rfl, hbalanced, fun _ => rfl⟩
  | gpuFilterExec exec | gpuVectorDistanceExec exec =>
    cases h
    exact ih.passThrough (fun _ _ => rfl) rfl rfl Plan.eachJoin_unary (fun _ => rfl) fun _ => rfl

end

theorem PlacedAs.binary_stays (ihLeft : PlacedAs target left left')
    (ihRight : PlacedAs target right right') {op : BinaryExec}
    (hstays : op.lowers target left.schema right.schema = false) :
    PlacedAs target (.binary op left right) (.binary op left' right') := by
  have hcount : ∀ stripped, (Plan.binary op left' right').partitionCount =
      placedCount target stripped (.binary op left right) := by
    intro stripped
    rw [placedCount, Plan.partitionCount, hstays, ihLeft.count, ihRight.count]
    cases op <;> rfl
  refine ⟨hcount false, hcount true, ?_, fun _ => rfl⟩
  refine Plan.eachJoin_binary.trans (Iff.trans ?_ Plan.eachJoin_binary.symm)
  refine and_congr ihLeft.balanced (and_congr ihRight.balanced ?_)
  rw [ihLeft.count, ihRight.count]
  exact ⟨fun h hwise _ => h hwise, fun h hwise => h hwise hstays⟩

/-- **The step at a node with two inputs.** -/
theorem PlacedAs.binary (ihLeft : PlacedAs target left left')
    (ihRight : PlacedAs target right right') (hleft : Keeps left left')
    (hright : Keeps right right') {op : BinaryExec}
    (h : rewrite target (.binary op left' right') = .ok plan') :
    PlacedAs target (.binary op left right) plan' := by
  -- a placed join asks nothing of its inputs' partitions
  have hplaced : ∀ {op : BinaryExec}, op.lowers target left.schema right.schema = true →
      ((Plan.binary op left right).StaysBalanced target ↔ left'.Balanced ∧ right'.Balanced) := by
    intro op hlowers
    refine Plan.eachJoin_binary.trans ?_
    rw [ihLeft.balanced, ihRight.balanced]
    refine and_congr_right fun _ => and_iff_left fun _ hstays => ?_
    rw [hlowers] at hstays
    cases hstays
  cases op with
  | hashJoinExec join =>
    obtain ⟨gpu, hgpu, h⟩ := bind_eq_ok_iff.mp h
    cases h
    rw [hleft.2, hright.2] at hgpu
    cases gpu with
    | none => exact ihLeft.binary_stays ihRight (by rw [BinaryExec.lowers, hgpu]; rfl)
    | some exec =>
      have hlowers : (BinaryExec.hashJoinExec join).lowers target left.schema right.schema =
          true := by rw [BinaryExec.lowers, hgpu]; rfl
      have hcount : ∀ stripped, right'.partitionCount =
          placedCount target stripped (.binary (.hashJoinExec join) left right) := by
        intro stripped
        rw [placedCount, hlowers, ihRight.count]
        rfl
      refine ⟨hcount false, hcount true, ?_, fun _ => rfl⟩
      refine Plan.eachJoin_binary.trans (Iff.trans ?_ (hplaced hlowers).symm)
      exact ⟨fun h => ⟨h.2.1, h.1⟩, fun h => ⟨h.2, h.1, nofun⟩⟩
  | sortMergeJoinExec join =>
    obtain ⟨gpu, hgpu, h⟩ := bind_eq_ok_iff.mp h
    cases h
    rw [stripSort_schema, stripSort_schema, hleft.2, hright.2] at hgpu
    cases gpu with
    | none => exact ihLeft.binary_stays ihRight (by rw [BinaryExec.lowers, hgpu]; rfl)
    | some exec =>
      have hlowers : (BinaryExec.sortMergeJoinExec join).lowers target left.schema
          right.schema = true := by rw [BinaryExec.lowers, hgpu]; rfl
      have hcount : ∀ stripped, (stripSort left').partitionCount =
          placedCount target stripped (.binary (.sortMergeJoinExec join) left right) := by
        intro stripped
        rw [placedCount, hlowers, ihLeft.stripped]
        rfl
      refine ⟨hcount false, hcount true, ?_, fun _ => rfl⟩
      refine Plan.eachJoin_binary.trans (Iff.trans ?_ (hplaced hlowers).symm)
      rw [eachJoin_stripSort, eachJoin_stripSort]
      exact ⟨fun h => ⟨h.1, h.2.1⟩, fun h => ⟨h.1, h.2, nofun⟩⟩
  | gpuHashJoinExec exec =>
    cases h
    exact ihLeft.binary_stays ihRight rfl

end Steps

/-- **The step at any other node**, which stays over its rewritten inputs. -/
theorem PlacedAs.foreign {op : ForeignExec} {children children' : List Plan}
    (ih : List.Forall₂ (PlacedAs target) children children') :
    PlacedAs target (.foreign op children) (.foreign op children') := by
  have hcounts : Plan.partitionCounts children' = placedCounts target children := by
    induction ih with
    | nil => rfl
    | cons hhead _ ih => rw [Plan.partitionCounts, placedCounts, hhead.count, ih]
  have hcount : ∀ stripped, (Plan.foreign op children').partitionCount =
      placedCount target stripped (.foreign op children) := by
    intro stripped
    rw [placedCount, Plan.partitionCount, hcounts]
  refine ⟨hcount false, hcount true, ?_, fun _ => rfl⟩
  refine Plan.eachJoin_foreign.trans (Iff.trans ⟨?_, ?_⟩ Plan.eachJoin_foreign.symm)
  · intro h child hchild
    obtain ⟨child', hchild', hplaced⟩ := forall₂_exists_right ih hchild
    exact hplaced.balanced.mp (h child' hchild')
  · intro h child' hchild'
    obtain ⟨child, hchild, hplaced⟩ := forall₂_exists_left ih hchild'
    exact hplaced.balanced.mpr (h child hchild)

theorem placedAs_of_wellFormed {nodes : ForeignNodes} {plan : Plan} (hwf : plan.WellFormed)
    (h : transformUp nodes (rewrite target) plan = .ok plan') : PlacedAs target plan plan' := by
  refine transformUp_induction ?_ ?_ .foreign hwf h
  · exact fun _ hkeeps ih hrewrite => ih.unary hkeeps hrewrite
  · exact fun _ hleft hright ihLeft ihRight hrewrite => ihLeft.binary ihRight hleft hright hrewrite

/-- **When placement keeps partition-wise joins executable.**  On every well-formed
plan whose partition-wise joins are balanced, the rewritten plan's are balanced
exactly when both inputs of each one that stays have the same partition count once a
placed aggregate counts as one partition and a placed join as its probe side. -/
theorem optimize_balanced_iff {nodes : ForeignNodes} {target : BackendKind} {plan plan' : Plan}
    (hwf : plan.WellFormed) (hbalanced : plan.Balanced)
    (h : optimize nodes target plan = .ok plan') :
    plan'.Balanced ↔ (target.isGpu = true → plan.StaysBalanced target) := by
  unfold optimize at h
  split at h
  · next hgpu =>
    rw [(placedAs_of_wellFormed hwf h).balanced]
    exact ⟨fun hstays _ => hstays, fun hstays => hstays hgpu⟩
  · next hcpu =>
    cases h
    exact iff_of_true hbalanced fun hgpu => absurd hgpu hcpu

/-! ## Aggregates under a partitioned join -/

/-- `GROUP BY k` in one mode. -/
def groupKeys (mode : AggregateMode) : UnaryExec :=
  .aggregateExec ⟨mode, ⟨[(.column "k" 0, "k")], [], true⟩, [], [], scanOfKeys.schema⟩

/-- The table, repartitioned by key. -/
def byKey : Plan := .unary (.repartitionExec 4) scanOfKeys

/-- The groups of the table, in two phases around the repartitioning by key. -/
def groupedByKey : Plan :=
  .unary (groupKeys .finalPartitioned)
    (.unary (.repartitionExec 4) (.unary (groupKeys .partialMode) scanOfKeys))

/-- A partitioned outer join on the key, which no device kernel implements. -/
def outerJoin : BinaryExec :=
  .hashJoinExec {
    on := [(.column "k" 0, .column "k" 0)]
    filter := none
    joinType := .left
    nullEquality := .nullEqualsNothing
    mode := .partitioned
    projection := none
    schema := joinedSchema scanOfKeys.schema scanOfKeys.schema
    partitions := fun left _ => left }

/-- The grouped table: one partition, whatever it had. -/
def placedGroups : Plan :=
  .unary (.gpuAggregateExec ⟨⟨0, []⟩, scanOfKeys.schema, .cuda⟩) scanOfKeys

theorem byKey_wellFormed : byKey.WellFormed := .unary (.foreign nofun) trivial rfl

theorem groupKeys_namesColumns (mode : AggregateMode) :
    (groupKeys mode).NamesColumns scanOfKeys.schema := by
  intro _
  refine ⟨fun expr hexpr index hindex => ?_, nofun⟩
  cases List.mem_singleton.mp hexpr
  cases hindex
  decide

theorem groupedByKey_wellFormed : groupedByKey.WellFormed :=
  .unary (.unary (.unary (.foreign nofun) (groupKeys_namesColumns _) rfl) trivial rfl)
    (groupKeys_namesColumns _) rfl

theorem outerJoin_wellFormed (hleft : left.WellFormed) (hright : right.WellFormed)
    (hl : left.schema = scanOfKeys.schema) (hr : right.schema = scanOfKeys.schema) :
    (Plan.binary outerJoin left right).WellFormed := by
  refine .binary hleft hright ⟨⟨?_, ?_⟩, nofun⟩ rfl
  · intro expr hexpr index hindex
    cases List.mem_singleton.mp hexpr
    cases hindex
    rw [hl]
    decide
  · intro expr hexpr index hindex
    cases List.mem_singleton.mp hexpr
    cases hindex
    rw [hr]
    decide

/-- The theorem at a join of two grouped tables: both sides shrink to one
partition. -/
theorem optimize_balanced_iff_groups :
    optimize openNodes .cuda (.binary outerJoin groupedByKey groupedByKey) =
        .ok (.binary outerJoin placedGroups placedGroups) ∧
      (Plan.binary outerJoin placedGroups placedGroups).Balanced := by
  have hjoins : ∀ {P : BinaryExec → Plan → Plan → Prop}, groupedByKey.EachJoin P :=
    .unary (.unary (.unary (.foreign nofun)))
  have hplaced : optimize openNodes .cuda (.binary outerJoin groupedByKey groupedByKey) =
      .ok (.binary outerJoin placedGroups placedGroups) := rfl
  refine ⟨hplaced, (optimize_balanced_iff
    (outerJoin_wellFormed groupedByKey_wellFormed groupedByKey_wellFormed rfl rfl)
    (.binary hjoins hjoins fun _ => rfl) hplaced).mpr fun _ => ?_⟩
  exact .binary hjoins hjoins fun _ _ => rfl

/-- One grouped side: four partitions on both sides become one and four. -/
theorem optimize_unbalances :
    (Plan.binary outerJoin groupedByKey byKey).WellFormed ∧
      (Plan.binary outerJoin groupedByKey byKey).Balanced ∧
      optimize openNodes .cuda (.binary outerJoin groupedByKey byKey) =
        .ok (.binary outerJoin placedGroups byKey) ∧
      ¬ (Plan.binary outerJoin placedGroups byKey).Balanced := by
  refine ⟨outerJoin_wellFormed groupedByKey_wellFormed byKey_wellFormed rfl rfl,
    .binary (.unary (.unary (.unary (.foreign nofun)))) (.unary (.foreign nofun)) fun _ => rfl,
    rfl, fun h => ?_⟩
  obtain ⟨-, -, hcounts⟩ := Plan.eachJoin_binary.mp h
  exact absurd (hcounts rfl) (by decide)

end OxideLake
