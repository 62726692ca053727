import OxideLake.Planner.Lowerings

/-!
# When placement succeeds

`optimize_ok_iff` says for which plans the bottom-up rewrite returns a plan.  On a
well-formed plan it fails exactly when the plan holds a filter of the grammar with
more than 64 comparisons or with a pushed projection of zero columns, an eligible
hash join with a pushed projection of zero columns, or a projection of zero
expressions over a filter the rule has lowered.  Everything else is either
replaced or left as it was.
-/

namespace OxideLake

open Partial

variable {target : BackendKind} {plan' input left right : Plan} {op : UnaryExec}

/-! ## One node -/

/-- The node is a `GpuFilterExec`. -/
def Plan.IsGpuFilter : Plan → Prop
  | .unary (.gpuFilterExec _) _ => True
  | _ => False

/-- The constructors behind the node's lowering accept it.  `overFilter` says that
its input is, or becomes, a `GpuFilterExec`. -/
def UnaryExec.Representable (overFilter : Prop) (input : Schema) : UnaryExec → Prop
  | .filterExec filter => filter.Representable input
  | .projectionExec projection => overFilter → projection.expr ≠ []
  | _ => True

/-- The constructors behind the node's lowering accept it. -/
def BinaryExec.Representable (left right : Schema) : BinaryExec → Prop
  | .hashJoinExec join => join.Representable left right
  | _ => True

/-- The node is, or is rewritten into, a `GpuFilterExec`. -/
def UnaryExec.BecomesFilter (overFilter : Prop) (input : Schema) : UnaryExec → Prop
  | .filterExec filter => ∃ predicate, lowerPredicate filter.predicate input = some predicate
  | .projectionExec projection => overFilter ∧ projection.FoldsOver input
  | .gpuFilterExec _ => True
  | _ => False

/-- What `fuse_projection` does on any input: it fails exactly on a projection of
zero expressions over a `GpuFilterExec`, and folds exactly a foldable one. -/
theorem fuseInto_spec (target : BackendKind) {projection : ProjectionExec}
    (hwf : (Plan.unary (.projectionExec projection) input).WellFormed) :
    ((∃ fused, fuseInto target projection input = .ok fused) ↔
        (input.IsGpuFilter → projection.expr ≠ [])) ∧
      ∀ fused, fuseInto target projection input = .ok fused →
        (fused.isSome = true ↔ input.IsGpuFilter ∧ projection.FoldsOver input.schema) := by
  unfold fuseInto
  split
  · next filter source =>
    obtain ⟨hinput, hnames, -⟩ := hwf.input
    obtain ⟨-, -, hbuilt⟩ := hinput.input
    obtain ⟨htotal, hfolds⟩ := fuseProjection_spec (GpuFilterExec.valid hbuilt) hnames
    constructor
    · rw [exists_bind_ok_iff, htotal]
      exact ⟨fun h _ => h, fun h => h trivial⟩
    · intro fused h
      obtain ⟨gpu, hgpu, h⟩ := bind_eq_ok_iff.mp h
      cases h
      rw [Option.isSome_map]
      exact (hfolds gpu hgpu).trans (and_iff_right trivial).symm
  · next hnot =>
    have hfilter : ¬ input.IsGpuFilter := by
      intro hfilter
      unfold Plan.IsGpuFilter at hfilter
      split at hfilter
      · exact hnot _ _ rfl
      · exact hfilter
    refine ⟨⟨fun _ h => absurd h hfilter, fun _ => ⟨none, rfl⟩⟩, ?_⟩
    rintro fused ⟨⟩
    simp [hfilter]

/-- **Rewriting a node with one input** fails exactly when a constructor refuses
it, and returns a `GpuFilterExec` exactly for a filter or a folded projection. -/
theorem rewrite_unary_spec (hwf : (Plan.unary op input).WellFormed) :
    ((∃ plan', rewrite target (.unary op input) = .ok plan') ↔
        op.Representable input.IsGpuFilter input.schema) ∧
      ∀ plan', rewrite target (.unary op input) = .ok plan' →
        (plan'.IsGpuFilter ↔ op.BecomesFilter input.IsGpuFilter input.schema) := by
  obtain ⟨-, hnames, -⟩ := hwf.input
  cases op with
  | filterExec filter =>
    constructor
    · exact exists_bind_ok_iff.trans (lowerFilter_ok_iff hnames)
    · intro plan' h
      obtain ⟨gpu, hgpu, h⟩ := bind_eq_ok_iff.mp h
      cases h
      rw [UnaryExec.BecomesFilter, ← lowerFilter_some_iff hnames hgpu]
      cases gpu with
      | none | some exec => simp [Plan.IsGpuFilter]
  | projectionExec projection =>
    obtain ⟨htotal, hfolds⟩ := fuseInto_spec target hwf
    constructor
    · exact exists_bind_ok_iff.trans htotal
    · intro plan' h
      obtain ⟨fused, hfused, h⟩ := bind_eq_ok_iff.mp h
      cases h
      rw [UnaryExec.BecomesFilter, ← hfolds fused hfused]
      cases fused with
      | some plan =>
        obtain ⟨filter, source, exec, -, -, rfl⟩ := fuseInto_eq_some hfused
        simp [Plan.IsGpuFilter]
      | none =>
        cases lowerVectorDistance target projection input.schema with
        | none | some exec => simp [Plan.IsGpuFilter]
  | aggregateExec agg =>
    constructor
    · exact exists_bind_ok_iff.trans
        (iff_of_true (lowerAggregate_total target hwf) trivial)
    · intro plan' h
      obtain ⟨gpu, hgpu, h⟩ := bind_eq_ok_iff.mp h
      cases h
      cases gpu with
      | none => exact Iff.rfl
      | some plan =>
        obtain ⟨-, -, -, -, exec, -, -, -, -, rfl⟩ := lowerAggregate_eq_some hgpu
        exact Iff.rfl
  | _ =>
    refine ⟨iff_of_true ⟨_, rfl⟩ trivial, ?_⟩
    rintro plan' ⟨⟩
    exact Iff.rfl

/-- **Rewriting a node with two inputs** fails exactly when a constructor refuses
it, and never returns a `GpuFilterExec`. -/
theorem rewrite_binary_spec {op : BinaryExec} (hwf : (Plan.binary op left right).WellFormed) :
    ((∃ plan', rewrite target (.binary op left right) = .ok plan') ↔
        op.Representable left.schema right.schema) ∧
      ∀ plan', rewrite target (.binary op left right) = .ok plan' → ¬ plan'.IsGpuFilter := by
  obtain ⟨-, -, hnames, -⟩ := hwf.inputs
  cases op with
  | hashJoinExec join =>
    constructor
    · exact exists_bind_ok_iff.trans (lowerJoin_ok_iff hnames)
    · intro plan' h
      obtain ⟨gpu, -, h⟩ := bind_eq_ok_iff.mp h
      cases h
      cases gpu with
      | none | some exec => exact id
  | sortMergeJoinExec join =>
    constructor
    · have hstripped : join.toJoinOn.NamesColumns (stripSort left).schema
          (stripSort right).schema := by
        rw [stripSort_schema, stripSort_schema]
        exact hnames
      exact exists_bind_ok_iff.trans
        (iff_of_true (lowerSortMergeJoin_total target hstripped) trivial)
    · intro plan' h
      obtain ⟨gpu, -, h⟩ := bind_eq_ok_iff.mp h
      cases h
      cases gpu with
      | none | some exec => exact id
  | gpuHashJoinExec exec =>
    refine ⟨iff_of_true ⟨_, rfl⟩ trivial, ?_⟩
    rintro plan' ⟨⟩
    exact id

/-! ## The coverage -/

/-- A distance projection: every input column under its own name, and then the distance of a vector
column from a literal of its length. -/
def ProjectionExec.Measures (projection : ProjectionExec) (input : Schema) : Prop :=
  ∃ columns last metric column query, projection.expr = columns ++ [last] ∧
    passesThrough input columns = true ∧ distanceCall last.expr = some (metric, column, query) ∧
    ∃ field, input.fields[column]? = some field ∧
      vectorDimension field.dataType = some query.length

/-- The node is in the coverage, and `plan'` is a `Gpu*Exec` over its input.  A projection is
taken into the filter below it, and an aggregate stands over the input of its partial half. -/
def UnaryExec.Replaced (input plan' : Plan) : UnaryExec → Prop
  | .filterExec filter =>
    (∃ predicate, lowerPredicate filter.predicate input.schema = some predicate) ∧
      ∃ exec, plan' = .unary (.gpuFilterExec exec) input
  | .projectionExec projection =>
    (projection.FoldsOver input.schema ∧ ∃ filter source exec,
      input = .unary (.gpuFilterExec filter) source ∧
        plan' = .unary (.gpuFilterExec exec) source) ∨
    projection.Measures input.schema ∧ ∃ exec, plan' = .unary (.gpuVectorDistanceExec exec) input
  | .aggregateExec agg =>
    ∃ half source, aggregateSource agg input = some (half, source) ∧
      (∃ spec, half.HasSpec source.schema spec) ∧
      ∃ exec, plan' = .unary (.gpuAggregateExec exec) (coalesced source)
  | _ => False

/-- The node is in the coverage, and `plan'` is a `GpuHashJoinExec` over its inputs, without
their sorts for a sort-merge join. -/
def BinaryExec.Replaced (left right plan' : Plan) : BinaryExec → Prop
  | .hashJoinExec join =>
    join.Eligible left.schema right.schema ∧
      ∃ exec, plan' = .binary (.gpuHashJoinExec exec) right left
  | .sortMergeJoinExec join =>
    join.Eligible left.schema right.schema ∧
      ∃ exec, plan' = .binary (.gpuHashJoinExec exec) (stripSort left) (stripSort right)
  | .gpuHashJoinExec _ => False

/-- **What becomes of a node with one input**: it is left as it was unless it is in the coverage. -/
theorem rewrite_unary_replaced (hwf : (Plan.unary op input).WellFormed)
    (h : rewrite target (.unary op input) = .ok plan') :
    plan' = .unary op input ∨ op.Replaced input plan' := by
  cases rewrites_of_rewrite h with
  | kept => exact .inl rfl
  | filter hlower =>
    obtain ⟨predicate, hpredicate, -⟩ := lowerFilter_eq_some hlower
    exact .inr ⟨⟨predicate, hpredicate⟩, _, rfl⟩
  | @fused projection filter exec source hlower =>
    have hfused : fuseInto target projection (.unary (.gpuFilterExec filter) source) =
        .ok (some (.unary (.gpuFilterExec exec) source)) := by
      rw [fuseInto, hlower]
      rfl
    obtain ⟨-, hfolds⟩ := ((fuseInto_spec target hwf).2 _ hfused).mp rfl
    exact .inr (.inl ⟨hfolds, filter, source, exec, rfl, rfl⟩)
  | distance hlower =>
    obtain ⟨columns, last, metric, column, query, hexprs, hpasses, hcall, hnew, -⟩ :=
      lowerVectorDistance_inv hlower
    exact .inr (.inr ⟨⟨columns, last, metric, column, query, hexprs, hpasses, hcall,
      (GpuVectorDistanceExec.tryNew_eq_ok hnew).1⟩, _, rfl⟩)
  | aggregate hsource hspec _ _ =>
    exact .inr ⟨_, _, hsource, ⟨_, lowerAggregateSpec_eq_some hspec⟩, _, rfl⟩

/-- **What becomes of a node with two inputs.** -/
theorem rewrite_binary_replaced {op : BinaryExec}
    (h : rewrite target (.binary op left right) = .ok plan') :
    plan' = .binary op left right ∨ op.Replaced left right plan' := by
  cases rewrites_of_rewrite h with
  | kept => exact .inl rfl
  | hashJoin hlower =>
    obtain ⟨buildKey, probeKey, -, hkeys, -, -, hprobe, hbuild, -⟩ := lowerJoin_eq_some hlower
    exact .inr ⟨⟨buildKey, probeKey, hkeys, hbuild, hprobe⟩, _, rfl⟩
  | sortMergeJoin hlower =>
    obtain ⟨leftKey, rightKey, hkeys, hleft, hright, -⟩ := lowerSortMergeJoin_eq_some hlower
    exact .inr ⟨⟨leftKey, rightKey, hkeys, hleft, hright⟩, _, rfl⟩

/-! ## Whole plans -/

/-- The plan is, or is rewritten into, a `GpuFilterExec`: a filter of the grammar,
or a foldable projection over one. -/
def Plan.BecomesFilter : Plan → Prop
  | .unary op input => op.BecomesFilter input.BecomesFilter input.schema
  | _ => False

section Placing

variable (nodes : ForeignNodes) (target : BackendKind)

/-- Every node is one the constructors accept, and every foreign node accepts what becomes
of its inputs. -/
inductive Plan.Placeable : Plan → Prop where
  | unary {op : UnaryExec} {input : Plan} (hinput : input.Placeable)
      (hop : op.Representable input.BecomesFilter input.schema) : Plan.Placeable (.unary op input)
  | binary {op : BinaryExec} {left right : Plan} (hleft : left.Placeable)
      (hright : right.Placeable) (hop : op.Representable left.schema right.schema) :
      Plan.Placeable (.binary op left right)
  | foreign {op : ForeignExec} {children : List Plan}
      (hchildren : ∀ child ∈ children, child.Placeable)
      (hnode : ∀ children', transformAll nodes (rewrite target) children = .ok children' →
        nodes.withNewChildren op children children' = .ok ()) :
      Plan.Placeable (.foreign op children)

/-- What the bottom-up rewrite does to a plan: it succeeds exactly on placeable
plans, keeps the schema and well-formedness, and makes a `GpuFilterExec` exactly
of what becomes one. -/
structure Places (plan : Plan) : Prop where
  total : plan.Placeable nodes target → ∃ plan', transformUp nodes (rewrite target) plan = .ok plan'
  placeable : ∀ {plan'}, transformUp nodes (rewrite target) plan = .ok plan' →
    plan.Placeable nodes target
  keeps : ∀ {plan'}, transformUp nodes (rewrite target) plan = .ok plan' → Keeps plan plan'
  filter : ∀ {plan'}, transformUp nodes (rewrite target) plan = .ok plan' →
    (plan'.IsGpuFilter ↔ plan.BecomesFilter)

end Placing

variable {nodes : ForeignNodes}

theorem WellFormed.over_input {input' : Plan} (hwf : (Plan.unary op input).WellFormed)
    (hkeeps : Keeps input input') :
    (Plan.unary op input').WellFormed ∧ op.withNewChildren input'.schema = .ok op := by
  obtain ⟨-, hnames, hbuilt⟩ := hwf.input
  obtain ⟨hinput, hschema⟩ := hkeeps
  rw [← hschema] at hnames hbuilt
  exact ⟨.unary hinput hnames hbuilt, hbuilt⟩

theorem WellFormed.over_inputs {op : BinaryExec} {left' right' : Plan}
    (hwf : (Plan.binary op left right).WellFormed) (hleft : Keeps left left')
    (hright : Keeps right right') :
    (Plan.binary op left' right').WellFormed ∧
      op.withNewChildren left'.schema right'.schema = .ok op := by
  obtain ⟨-, -, hnames, hbuilt⟩ := hwf.inputs
  rw [← hleft.2, ← hright.2] at hnames hbuilt
  exact ⟨.binary hleft.1 hright.1 hnames hbuilt, hbuilt⟩

theorem UnaryExec.schema_congr (op : UnaryExec) {input' : Plan} (h : input'.schema = input.schema) :
    (Plan.unary op input').schema = (Plan.unary op input).schema := by
  rw [Plan.schema, Plan.schema, h]

theorem Places.unary (hwf : (Plan.unary op input).WellFormed) (ih : Places nodes target input) :
    Places nodes target (.unary op input) := by
  -- everything the rewrite of the node decides, from a rewritten input
  have hstep : ∀ {input'}, transformUp nodes (rewrite target) input = .ok input' →
      transformUp nodes (rewrite target) (.unary op input) = rewrite target (.unary op input') ∧
        (Plan.unary op input').WellFormed ∧ input'.schema = input.schema ∧
        (input'.IsGpuFilter ↔ input.BecomesFilter) := by
    intro input' hinput
    obtain ⟨hwf', hbuilt⟩ := WellFormed.over_input hwf (ih.keeps hinput)
    refine ⟨?_, hwf', (ih.keeps hinput).2, ih.filter hinput⟩
    rw [transformUp, hinput, ok_bind, hbuilt, ok_bind]
  refine ⟨fun h => ?_, fun h => ?_, fun h => ?_, fun h => ?_⟩
  · cases h with
    | unary hplaceable hop =>
      obtain ⟨input', hinput⟩ := ih.total hplaceable
      obtain ⟨heq, hwf', hschema, hfilter⟩ := hstep hinput
      rw [heq]
      apply (rewrite_unary_spec hwf').1.mpr
      rw [hschema, hfilter]
      exact hop
  all_goals
    obtain ⟨input', hinput, -⟩ := bind_eq_ok_iff.mp h
    obtain ⟨heq, hwf', hschema, hfilter⟩ := hstep hinput
    rw [heq] at h
  · have hop := (rewrite_unary_spec hwf').1.mp ⟨_, h⟩
    rw [hschema, hfilter] at hop
    exact .unary (ih.placeable hinput) hop
  · obtain ⟨hwf'', hsame⟩ := rewrite_keeps hwf' h
    exact ⟨hwf'', hsame.trans (op.schema_congr hschema)⟩
  · rw [(rewrite_unary_spec hwf').2 _ h, hschema, hfilter]
    rfl

theorem Places.binary {op : BinaryExec} (hwf : (Plan.binary op left right).WellFormed)
    (ihLeft : Places nodes target left) (ihRight : Places nodes target right) :
    Places nodes target (.binary op left right) := by
  have hstep : ∀ {left' right'}, transformUp nodes (rewrite target) left = .ok left' →
      transformUp nodes (rewrite target) right = .ok right' →
      transformUp nodes (rewrite target) (.binary op left right) =
          rewrite target (.binary op left' right') ∧
        (Plan.binary op left' right').WellFormed ∧ left'.schema = left.schema ∧
        right'.schema = right.schema := by
    intro left' right' hleft hright
    obtain ⟨hwf', hbuilt⟩ := WellFormed.over_inputs hwf (ihLeft.keeps hleft) (ihRight.keeps hright)
    refine ⟨?_, hwf', (ihLeft.keeps hleft).2, (ihRight.keeps hright).2⟩
    rw [transformUp, hleft, ok_bind, hright, ok_bind, hbuilt, ok_bind]
  refine ⟨fun h => ?_, fun h => ?_, fun h => ?_, fun h => ?_⟩
  · cases h with
    | binary hpl hpr hop =>
      obtain ⟨left', hleft⟩ := ihLeft.total hpl
      obtain ⟨right', hright⟩ := ihRight.total hpr
      obtain ⟨heq, hwf', hl, hr⟩ := hstep hleft hright
      rw [heq]
      apply (rewrite_binary_spec hwf').1.mpr
      rw [hl, hr]
      exact hop
  all_goals
    obtain ⟨left', hleft, hrest⟩ := bind_eq_ok_iff.mp h
    obtain ⟨right', hright, -⟩ := bind_eq_ok_iff.mp hrest
    obtain ⟨heq, hwf', hl, hr⟩ := hstep hleft hright
    rw [heq] at h
  · have hop := (rewrite_binary_spec hwf').1.mp ⟨_, h⟩
    rw [hl, hr] at hop
    exact .binary (ihLeft.placeable hleft) (ihRight.placeable hright) hop
  · obtain ⟨hwf'', hsame⟩ := rewrite_keeps hwf' h
    exact ⟨hwf'', hsame⟩
  · exact iff_of_false ((rewrite_binary_spec hwf').2 _ h) id

theorem transformAll_eq_mapM (f : Plan → DFResult Plan) (children : List Plan) :
    transformAll nodes f children = children.mapM (transformUp nodes f) := by
  induction children with
  | nil => rfl
  | cons child children ih =>
    rw [transformAll, ih, List.mapM_cons]
    rfl

theorem transformUp_foreign_ok {op : ForeignExec} {children : List Plan} :
    transformUp nodes (rewrite target) (.foreign op children) = .ok plan' ↔
      ∃ children', children.mapM (transformUp nodes (rewrite target)) = .ok children' ∧
        nodes.withNewChildren op children children' = .ok () ∧ plan' = .foreign op children' := by
  rw [transformUp, transformAll_eq_mapM, bind_eq_ok_iff]
  refine exists_congr fun children' => and_congr_right fun _ => ?_
  rw [bind_eq_ok_iff]
  constructor
  · rintro ⟨done, hnode, hplan⟩
    cases hplan
    exact ⟨hnode, rfl⟩
  · rintro ⟨hnode, rfl⟩
    exact ⟨(), hnode, rfl⟩

theorem Places.foreign {op : ForeignExec} {children : List Plan}
    (ih : ∀ child ∈ children, Places nodes target child) :
    Places nodes target (.foreign op children) := by
  refine ⟨fun h => ?_, fun h => ?_, fun h => ?_, fun h => ?_⟩
  · cases h with
    | foreign hchildren hnode =>
      obtain ⟨children', hall⟩ :=
        mapM_ok_of_forall fun child hchild =>
          (ih child hchild).total (hchildren child hchild)
      exact ⟨_, transformUp_foreign_ok.mpr
        ⟨children', hall, hnode _ ((transformAll_eq_mapM ..).trans hall), rfl⟩⟩
  all_goals obtain ⟨children', hall, hnode, rfl⟩ := transformUp_foreign_ok.mp h
  · refine .foreign (fun child hchild => ?_) fun others hothers => ?_
    · obtain ⟨child', hchild'⟩ := mapM_ok_of_mem hall hchild
      exact (ih child hchild).placeable hchild'
    · rw [transformAll_eq_mapM, hall] at hothers
      cases hothers
      exact hnode
  · refine ⟨.foreign fun child' hchild' => ?_, rfl⟩
    obtain ⟨child, hchild, hok⟩ := mapM_ok_mem hall hchild'
    exact ((ih child hchild).keeps hok).1
  · exact Iff.rfl

theorem places_of_wellFormed (nodes : ForeignNodes) (target : BackendKind) {plan : Plan}
    (hwf : plan.WellFormed) : Places nodes target plan := by
  induction plan with
  | unary op input ih => exact .unary hwf (ih hwf.input.1)
  | binary op left right ihLeft ihRight =>
    exact .binary hwf (ihLeft hwf.inputs.1) (ihRight hwf.inputs.2.1)
  | foreign op children ih =>
    cases hwf with
    | foreign hchildren =>
      exact .foreign fun child hchild => ih child hchild (hchildren child hchild)

/-- **The rule of runs**: what the rewrite of a single node passes on holds between a plan and
what becomes of it. -/
theorem transformUp_induction {R : Plan → Plan → Prop}
    (unary : ∀ {op input input' plan'}, (Plan.unary op input').WellFormed → Keeps input input' →
      R input input' → rewrite target (.unary op input') = .ok plan' → R (.unary op input) plan')
    (binary : ∀ {op left left' right right' plan'}, (Plan.binary op left' right').WellFormed →
      Keeps left left' → Keeps right right' → R left left' → R right right' →
      rewrite target (.binary op left' right') = .ok plan' → R (.binary op left right) plan')
    (foreign : ∀ {op children children'}, List.Forall₂ R children children' →
      R (.foreign op children) (.foreign op children'))
    {plan : Plan} (hwf : plan.WellFormed)
    (h : transformUp nodes (rewrite target) plan = .ok plan') : R plan plan' := by
  induction plan generalizing plan' with
  | unary op input ih =>
    obtain ⟨input', hinput, h⟩ := bind_eq_ok_iff.mp h
    have hkeeps := (places_of_wellFormed nodes target hwf.input.1).keeps hinput
    obtain ⟨hwf', hbuilt⟩ := WellFormed.over_input hwf hkeeps
    rw [hbuilt, ok_bind] at h
    exact unary hwf' hkeeps (ih hwf.input.1 hinput) h
  | binary op left right ihLeft ihRight =>
    obtain ⟨left', hleft, h⟩ := bind_eq_ok_iff.mp h
    obtain ⟨right', hright, h⟩ := bind_eq_ok_iff.mp h
    have hkeepsLeft := (places_of_wellFormed nodes target hwf.inputs.1).keeps hleft
    have hkeepsRight := (places_of_wellFormed nodes target hwf.inputs.2.1).keeps hright
    obtain ⟨hwf', hbuilt⟩ := WellFormed.over_inputs hwf hkeepsLeft hkeepsRight
    rw [hbuilt, ok_bind] at h
    exact binary hwf' hkeepsLeft hkeepsRight (ihLeft hwf.inputs.1 hleft)
      (ihRight hwf.inputs.2.1 hright) h
  | foreign op children ih =>
    obtain ⟨children', hall, -, rfl⟩ := transformUp_foreign_ok.mp h
    cases hwf with
    | foreign hchildren =>
      refine foreign (List.Forall₂.imp (fun child child' hrun => ?_)
        ((List.forall₂_and_left _ _).mpr ⟨fun child hchild => hchild, mapM_eq_ok_iff.mp hall⟩))
      exact ih child hrun.1 (hchildren child hrun.1) hrun.2

/-- Every node is left as it was, over what became of its inputs, or it is in the coverage and
replaced. -/
inductive Plan.LeavesUncovered : Plan → Plan → Prop where
  | unary {op : UnaryExec} {input input' plan' : Plan} (hinput : input.LeavesUncovered input')
      (hop : plan' = .unary op input' ∨ op.Replaced input' plan') :
      Plan.LeavesUncovered (.unary op input) plan'
  | binary {op : BinaryExec} {left left' right right' plan' : Plan}
      (hleft : left.LeavesUncovered left') (hright : right.LeavesUncovered right')
      (hop : plan' = .binary op left' right' ∨ op.Replaced left' right' plan') :
      Plan.LeavesUncovered (.binary op left right) plan'
  | foreign {op : ForeignExec} {children children' : List Plan}
      (hchildren : List.Forall₂ Plan.LeavesUncovered children children') :
      Plan.LeavesUncovered (.foreign op children) (.foreign op children')

/-- **When placement succeeds**: on every well-formed plan and every GPU target the
bottom-up rewrite returns a plan exactly when every node is one the constructors
accept and the foreign nodes take their new inputs; in the plan returned every node outside
the coverage is left as it was. -/
theorem optimize_ok_iff (nodes : ForeignNodes) {target : BackendKind} (hgpu : target.isGpu = true)
    {plan : Plan} (hwf : plan.WellFormed) :
    ((∃ plan', optimize nodes target plan = .ok plan') ↔ plan.Placeable nodes target) ∧
      ∀ plan', optimize nodes target plan = .ok plan' → plan.LeavesUncovered plan' := by
  have hplaces := places_of_wellFormed nodes target hwf
  rw [optimize, if_pos hgpu]
  refine ⟨⟨fun ⟨_, h⟩ => hplaces.placeable h, hplaces.total⟩, fun plan' h => ?_⟩
  refine transformUp_induction ?_ ?_ .foreign hwf h
  · exact fun hwf' _ hinput hrewrite => .unary hinput (rewrite_unary_replaced hwf' hrewrite)
  · exact fun _ _ _ hleft hright hrewrite => .binary hleft hright (rewrite_binary_replaced hrewrite)

/-! ## A count over a filter -/

/-- A table of one `Int64` column. -/
def scanOfKeys : Plan := .foreign ⟨"DataSourceExec", ⟨[⟨"k", .int64, true, []⟩], []⟩, fun _ => 1⟩ []

/-- `k > 3`. -/
def keyAboveThree : PhysicalExpr := .binary (.column "k" 0) .gt (.literal (.int64 (some 3)))

/-- The filter below `SELECT k FROM t WHERE k > 3`. -/
def selectPlan : Plan := .unary (.filterExec ⟨keyAboveThree, none, none⟩) scanOfKeys

/-- The filter below `SELECT COUNT(*) FROM t WHERE k > 3`: no column is needed
above it, so the pushed projection is empty. -/
def countStarPlan : Plan := .unary (.filterExec ⟨keyAboveThree, some [], none⟩) scanOfKeys

/-- Foreign nodes that take any inputs. -/
def openNodes : ForeignNodes := ⟨fun _ _ _ => .ok (), fun _ _ => rfl⟩

theorem scanOfKeys_wellFormed : scanOfKeys.WellFormed :=
  .foreign fun _ h => absurd h List.not_mem_nil

theorem selectPlan_wellFormed : selectPlan.WellFormed :=
  .unary scanOfKeys_wellFormed (fun _ h => by cases h) rfl

/-- The theorem at a plan it accepts: a sort, which no kernel runs, over the filter. -/
theorem optimize_ok_iff_select :
    let plan : Plan := .unary (.sortExec ⟨[], none, true⟩) selectPlan
    ∃ plan', optimize openNodes .cuda plan = .ok plan' ∧ plan.LeavesUncovered plan' := by
  intro plan
  have hwf : plan.WellFormed := .unary selectPlan_wellFormed trivial rfl
  have hgpu : BackendKind.cuda.isGpu = true := rfl
  obtain ⟨htotal, hleaves⟩ := optimize_ok_iff openNodes hgpu hwf
  obtain ⟨plan', h⟩ := htotal.mpr <| by
    refine .unary (.unary (.foreign nofun fun _ _ => rfl) fun predicate hpredicate => ?_) trivial
    cases hpredicate
    exact ⟨by decide, by simp⟩
  exact ⟨plan', h, hleaves plan' h⟩

/-- A well-formed plan on which placement fails: the constructor refuses the empty
projection and the lowering passes the error on. -/
theorem optimize_countStar_fails :
    countStarPlan.WellFormed ∧ optimize openNodes .cuda countStarPlan =
      .error (.plan "GpuFilterExec: projection must select at least one column") := by
  refine ⟨.unary scanOfKeys_wellFormed (fun indices h => ?_) rfl, rfl⟩
  cases h
  exact fun i hi => absurd hi List.not_mem_nil

end OxideLake
