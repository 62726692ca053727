import OxideLake.Planner.Rule

/-!
# Well-formed plans

A plan is well formed when every node names columns its inputs have — as
DataFusion builds it — and every `Gpu*Exec` is what its constructor returns over
the node's inputs.  This module states what each constructor checks, once, and
proves that rewriting a node keeps the plan well formed and its schema
unchanged.
-/

namespace OxideLake

open Partial

variable {target : BackendKind} {schema left right : Schema} {exec : GpuFilterExec}
  {predicate : Predicate} {projection : ProjectionExec} {agg : AggregateExec} {indices : List Nat}
  {plan source : Plan} {spec : AggregateSpec}

/-! ## What the constructors check -/

theorem fieldType_eq_ok_iff {index : Nat} {what : String} {dt : DataType} :
    fieldType schema index what = .ok dt ↔
      ∃ field, schema.fields[index]? = some field ∧ field.dataType = dt := by
  unfold fieldType
  cases schema.fields[index]? with
  | none | some field => simp

/-- A check of the type of a field. -/
theorem fieldType_check_eq_ok_iff {index : Nat} {what : String} {expected : DataType}
    {e : DataType → DataFusionError} :
    (do let dt ← fieldType schema index what
        if dt = expected then .ok () else .error (e dt)) = .ok () ↔
      ∃ field, schema.fields[index]? = some field ∧ field.dataType = expected := by
  rw [bind_eq_ok_iff]
  constructor
  · rintro ⟨dt, hdt, h⟩
    obtain ⟨field, hfield, rfl⟩ := fieldType_eq_ok_iff.mp hdt
    split at h
    · next htype => exact ⟨field, hfield, htype⟩
    · cases h
  · rintro ⟨field, hfield, htype⟩
    exact ⟨field.dataType, fieldType_eq_ok_iff.mpr ⟨field, hfield, rfl⟩, if_pos htype⟩

theorem getOrPanic_eq_ok_iff {α : Type} {xs : List α} {index : Nat} {x : α} :
    getOrPanic xs index = .ok x ↔ xs[index]? = some x := by
  unfold getOrPanic
  cases xs[index]? with
  | none | some y => simp

theorem validatePredicateLeaves_eq_ok_iff :
    validatePredicateLeaves schema predicate = .ok () ↔ predicate.Typed schema := by
  induction predicate with
  | compare column op lit =>
    exact fieldType_check_eq_ok_iff
  | and left right ihLeft ihRight =>
    rw [validatePredicateLeaves, bind_eq_ok_iff, Predicate.Typed, ← ihLeft, ← ihRight]
    constructor
    · rintro ⟨_, hleft, hright⟩
      exact ⟨hleft, hright⟩
    · rintro ⟨hleft, hright⟩
      exact ⟨(), hleft, hright⟩

/-- The predicates `validate_predicate` accepts. -/
theorem validatePredicate_eq_ok_iff :
    validatePredicate schema predicate = .ok () ↔
      predicate.leafCount ≤ maxPredicateLeaves ∧ predicate.Typed schema := by
  unfold validatePredicate
  split
  · next hmany =>
    constructor
    · intro h
      cases h
    · rintro ⟨hfew, -⟩
      exact absurd hfew (Nat.not_le.mpr hmany)
  · next hfew =>
    rw [validatePredicateLeaves_eq_ok_iff]
    exact ⟨fun h => ⟨Nat.not_lt.mp hfew, h⟩, fun h => h.2⟩

theorem projectSchema_eq_ok_iff {projected : Schema} :
    projectSchema schema indices = .ok projected ↔ schema.project indices = some projected := by
  unfold projectSchema
  cases schema.project indices with
  | none | some projected' => simp

theorem Schema.project_isSome_iff :
    (∃ projected, schema.project indices = some projected) ↔ ∀ i ∈ indices, i < schema.width := by
  have hread : (∃ fields, indices.mapM (fun i => schema.fields[i]?) = some fields) ↔
      ∀ i ∈ indices, i < schema.width := mapM_getElem?_eq_some
  rw [← hread]
  unfold Schema.project
  constructor
  · rintro ⟨projected, h⟩
    obtain ⟨fields, hfields, -⟩ := Option.map_eq_some_iff.mp h
    exact ⟨fields, hfields⟩
  · rintro ⟨fields, hfields⟩
    exact ⟨_, by rw [hfields, Option.map_some]⟩

theorem Schema.project_range (schema : Schema) :
    schema.project (List.range schema.width) = some schema := by
  have hread : (List.range schema.width).mapM (fun i => schema.fields[i]?) =
      some schema.fields := by
    rw [mapM_eq_some_iff, List.forall₂_iff_get]
    refine ⟨by simp [width], fun i hi hi' => ?_⟩
    simp only [List.get_eq_getElem, List.getElem_range]
    exact List.getElem?_eq_getElem hi'
  rw [project, hread]
  rfl

/-- **The filters `try_new` accepts.** -/
theorem GpuFilterExec.tryNew_eq_ok_iff {input : Schema} {projection : List Nat} :
    tryNew input predicate projection target = .ok exec ↔
      predicate.leafCount ≤ maxPredicateLeaves ∧ predicate.Typed input ∧ projection ≠ [] ∧
        ∃ schema, input.project projection = some schema ∧
          exec = ⟨predicate, projection, schema, target⟩ := by
  rw [tryNew, bind_eq_ok_iff]
  constructor
  · rintro ⟨_, hvalid, h⟩
    obtain ⟨hfew, htyped⟩ := validatePredicate_eq_ok_iff.mp hvalid
    split at h
    · cases h
    · next hne =>
      obtain ⟨schema, hschema, h⟩ := bind_eq_ok_iff.mp h
      cases h
      exact ⟨hfew, htyped, fun hnil => hne (List.isEmpty_iff.mpr hnil), schema,
        projectSchema_eq_ok_iff.mp hschema, rfl⟩
  · rintro ⟨hfew, htyped, hne, schema, hschema, rfl⟩
    refine ⟨(), validatePredicate_eq_ok_iff.mpr ⟨hfew, htyped⟩, ?_⟩
    rw [if_neg (by simpa using hne), projectSchema_eq_ok_iff.mpr hschema]
    rfl

/-- A field of type `Int64` at `key`. -/
def Schema.HasInt64 (schema : Schema) (key : Nat) : Prop :=
  ∃ field, schema.fields[key]? = some field ∧ field.dataType = .int64

theorem checkKey_eq_ok_iff {key : Nat} {side : String} :
    checkKey schema key side = .ok () ↔ schema.HasInt64 key :=
  fieldType_check_eq_ok_iff

/-- **The joins `try_new` accepts.** -/
theorem GpuHashJoinExec.tryNew_eq_ok_iff {leftKey rightKey : Nat} {exec : GpuHashJoinExec} :
    tryNew left right leftKey rightKey target = .ok exec ↔
      left.HasInt64 leftKey ∧ right.HasInt64 rightKey ∧
        exec = ⟨leftKey, rightKey, none, joinedSchema left right, target⟩ := by
  rw [tryNew, bind_eq_ok_iff]
  constructor
  · rintro ⟨_, hleft, h⟩
    obtain ⟨_, hright, h⟩ := bind_eq_ok_iff.mp h
    cases h
    exact ⟨checkKey_eq_ok_iff.mp hleft, checkKey_eq_ok_iff.mp hright, rfl⟩
  · rintro ⟨hleft, hright, rfl⟩
    refine ⟨(), checkKey_eq_ok_iff.mpr hleft, ?_⟩
    rw [checkKey_eq_ok_iff.mpr hright]
    rfl

/-- **What `with_projection` checks**: a list of columns is not empty and in range. -/
theorem GpuHashJoinExec.withProjection_eq_ok_iff {exec exec' : GpuHashJoinExec} :
    exec.withProjection left right (some indices) = .ok exec' ↔
      indices ≠ [] ∧ ∃ schema, (joinedSchema left right).project indices = some schema ∧
        exec' = { exec with projection := some indices, schema := schema } := by
  rw [withProjection, bind_eq_ok_iff]
  constructor
  · rintro ⟨schema, hschema, h⟩
    rw [joinSchema] at hschema
    split at hschema
    · cases hschema
    · next hne =>
      cases h
      exact ⟨fun hnil => hne (List.isEmpty_iff.mpr hnil), schema,
        projectSchema_eq_ok_iff.mp hschema, rfl⟩
  · rintro ⟨hne, schema, hschema, rfl⟩
    refine ⟨schema, ?_, rfl⟩
    rw [joinSchema, if_neg (by simpa using hne), projectSchema_eq_ok_iff.mpr hschema]

/-- The columns an aggregation reads have the types the kernels take. -/
def AggregateSpec.Typed (schema : Schema) (spec : AggregateSpec) : Prop :=
  schema.HasInt64 spec.groupBy ∧ ∀ entry ∈ spec.aggregates,
    ∃ field, schema.fields[entry.2]? = some field ∧
      (field.dataType = .int64 ∨ field.dataType = .float64)

theorem GpuAggregateExec.tryNew_of_typed {input : Schema} (h : spec.Typed input)
    (target : BackendKind) :
    ∃ exec, tryNew input spec target = .ok exec := by
  obtain ⟨⟨key, hkey, hkeyType⟩, hinputs⟩ := h
  have hfields : ∃ fields, spec.aggregates.mapM (aggregateField input) = .ok fields := by
    apply mapM_ok_of_forall
    intro entry hentry
    obtain ⟨field, hfield, htype⟩ := hinputs entry hentry
    rw [aggregateField, fieldType_eq_ok_iff.mpr ⟨field, hfield, rfl⟩, ok_bind,
      if_pos htype]
    exact ⟨_, rfl⟩
  obtain ⟨fields, hfields⟩ := hfields
  refine ⟨⟨spec, ⟨⟨input.fieldName spec.groupBy, .int64, true, []⟩ :: fields, []⟩, target⟩, ?_⟩
  rw [tryNew, aggregateOutputSchema, fieldType_eq_ok_iff.mpr ⟨key, hkey, rfl⟩, ok_bind,
    if_pos hkeyType, hfields]
  rfl

theorem aggregateField_eq_ok {input : Schema} {entry : AggregateFunction × Nat} {field : Field}
    (h : aggregateField input entry = .ok field) :
    ∃ source, input.fields[entry.2]? = some source ∧
      (source.dataType = .int64 ∨ source.dataType = .float64) ∧
      field.dataType = entry.1.outputType source.dataType := by
  obtain ⟨dt, hdt, h⟩ := bind_eq_ok_iff.mp h
  obtain ⟨source, hsource, rfl⟩ := fieldType_eq_ok_iff.mp hdt
  split at h
  · next htype =>
    cases h
    exact ⟨source, hsource, htype, rfl⟩
  · cases h

/-- **What `GpuAggregateExec::try_new` checks**, and the schema it declares. -/
theorem GpuAggregateExec.tryNew_eq_ok {input : Schema} {exec : GpuAggregateExec}
    (h : tryNew input spec target = .ok exec) :
    spec.Typed input ∧ ∃ fields,
      exec = ⟨spec, ⟨⟨input.fieldName spec.groupBy, .int64, true, []⟩ :: fields, []⟩, target⟩ ∧
      List.Forall₂ (fun entry field => aggregateField input entry = .ok field)
        spec.aggregates fields := by
  obtain ⟨schema, hschema, h⟩ := bind_eq_ok_iff.mp h
  cases h
  obtain ⟨keyType, hkey, hrest⟩ := bind_eq_ok_iff.mp hschema
  obtain ⟨field, hfield, rfl⟩ := fieldType_eq_ok_iff.mp hkey
  split at hrest
  · next htype =>
    obtain ⟨fields, hfields, hrest⟩ := bind_eq_ok_iff.mp hrest
    cases hrest
    refine ⟨⟨⟨field, hfield, htype⟩, fun entry hentry => ?_⟩, fields, rfl,
      mapM_eq_ok_iff.mp hfields⟩
    obtain ⟨output, houtput⟩ := mapM_ok_of_mem hfields hentry
    obtain ⟨source, hsource, htypes, -⟩ := aggregateField_eq_ok houtput
    exact ⟨source, hsource, htypes⟩
  · cases hrest

theorem GpuAggregateExec.tryNew_hasInt64 {input : Schema} {exec : GpuAggregateExec}
    (h : tryNew input spec target = .ok exec) :
    input.HasInt64 exec.spec.groupBy := by
  obtain ⟨htyped, fields, rfl, -⟩ := tryNew_eq_ok h
  exact htyped.1

/-- **What `with_output_schema` checks**: the planned types are the spec's. -/
theorem GpuAggregateExec.withOutputSchema_eq_ok_iff {exec exec' : GpuAggregateExec} :
    exec.withOutputSchema schema = .ok exec' ↔
      schema.fields.map Field.dataType = exec.schema.fields.map Field.dataType ∧
        exec' = { exec with schema := schema } := by
  have htypes : ∀ {planned ours : List Field}, planned.length = ours.length →
      ((planned.zip ours).find? (fun pair => pair.1.dataType ≠ pair.2.dataType) = none ↔
        planned.map Field.dataType = ours.map Field.dataType) := by
    intro planned ours hlength
    rw [List.find?_eq_none]
    induction planned generalizing ours with
    | nil =>
      cases ours with
      | nil => simp
      | cons our ours => cases hlength
    | cons plan planned ih =>
      cases ours with
      | nil => cases hlength
      | cons our ours =>
        rw [List.zip_cons_cons, List.forall_mem_cons, ih (Nat.succ.inj hlength)]
        simp
  unfold withOutputSchema
  split
  · next hlength =>
    constructor
    · intro h
      cases h
    · rintro ⟨hmap, -⟩
      have hlength' := congrArg List.length hmap
      rw [List.length_map, List.length_map] at hlength'
      exact absurd hlength' hlength
  · next hlength =>
    have htypes := htypes (of_not_not hlength)
    split
    · next planned ours hfind =>
      constructor
      · intro h
        cases h
      · rintro ⟨hmap, -⟩
        rw [htypes.mpr hmap] at hfind
        cases hfind
    · next hfind =>
      constructor
      · intro h
        exact ⟨htypes.mp hfind, (Except.ok.inj h).symm⟩
      · rintro ⟨-, rfl⟩
        rfl

theorem GpuAggregateExec.withOutputSchema_ok {exec exec' : GpuAggregateExec}
    (h : exec.withOutputSchema schema = .ok exec') : exec' = { exec with schema := schema } :=
  (withOutputSchema_eq_ok_iff.mp h).2

/-! ## Well-formed nodes and plans -/

/-- Every plain column among `exprs` is a column of the schema. -/
def Schema.HasColumns (schema : Schema) (exprs : List PhysicalExpr) : Prop :=
  ∀ expr ∈ exprs, ∀ index, columnIndex expr = some index → index < schema.width

/-- The modes whose grouping and arguments index the node's own input. -/
def AggregateMode.readsInput : AggregateMode → Bool
  | .single => true
  | .singlePartitioned => true
  | .partialMode => true
  | _ => false

/-- Both sides of every key pair are columns of their input. -/
def JoinOn.NamesColumns (join : JoinOn) (left right : Schema) : Prop :=
  left.HasColumns (join.on.map Prod.fst) ∧ right.HasColumns (join.on.map Prod.snd)

/-- The fields of an inner hash join: build columns then probe columns, under the
pushed projection. -/
def HashJoinExec.outputFields (join : HashJoinExec) (build probe : Schema) :
    Option (List Field) :=
  match join.projection with
  | none => some (build.fields ++ probe.fields)
  | some indices => indices.mapM fun i => (build.fields ++ probe.fields)[i]?

/-- A node with one input names columns its input has. -/
def UnaryExec.NamesColumns (input : Schema) : UnaryExec → Prop
  | .filterExec filter => ∀ indices, filter.projection = some indices →
      ∀ i ∈ indices, i < input.width
  | .projectionExec projection => input.HasColumns (projection.expr.map ProjectionExpr.expr)
  | .aggregateExec agg => agg.mode.readsInput = true →
      input.HasColumns (agg.groupExpr.expr.map Prod.fst) ∧
        ∀ call ∈ agg.aggrExpr, input.HasColumns call.expressions
  | _ => True

/-- A node with two inputs names columns its inputs have. -/
def BinaryExec.NamesColumns (left right : Schema) : BinaryExec → Prop
  | .hashJoinExec join => join.toJoinOn.NamesColumns left right ∧
      (join.joinType = .inner → join.outputFields left right = some join.schema.fields)
  | .sortMergeJoinExec join => join.toJoinOn.NamesColumns left right
  | .gpuHashJoinExec _ => True

/-- A plan in which every node names columns of its inputs and every `Gpu*Exec`
is what its constructor returns. -/
inductive Plan.WellFormed : Plan → Prop where
  | unary {op : UnaryExec} {input : Plan} (hinput : input.WellFormed)
      (hnames : op.NamesColumns input.schema) (hbuilt : op.withNewChildren input.schema = .ok op) :
      Plan.WellFormed (.unary op input)
  | binary {op : BinaryExec} {left right : Plan} (hleft : left.WellFormed)
      (hright : right.WellFormed) (hnames : op.NamesColumns left.schema right.schema)
      (hbuilt : op.withNewChildren left.schema right.schema = .ok op) :
      Plan.WellFormed (.binary op left right)
  | foreign {op : ForeignExec} {children : List Plan}
      (hchildren : ∀ child ∈ children, child.WellFormed) : Plan.WellFormed (.foreign op children)

namespace Plan.WellFormed

theorem input {op : UnaryExec} {input : Plan} (h : (Plan.unary op input).WellFormed) :
    input.WellFormed ∧ op.NamesColumns input.schema ∧
      op.withNewChildren input.schema = .ok op := by
  cases h with
  | unary hinput hnames hbuilt => exact ⟨hinput, hnames, hbuilt⟩

theorem inputs {op : BinaryExec} {left right : Plan} (h : (Plan.binary op left right).WellFormed) :
    left.WellFormed ∧ right.WellFormed ∧ op.NamesColumns left.schema right.schema ∧
      op.withNewChildren left.schema right.schema = .ok op := by
  cases h with
  | binary hleft hright hnames hbuilt => exact ⟨hleft, hright, hnames, hbuilt⟩

end Plan.WellFormed

/-! ## The nodes a lowering looks through -/

theorem stripSort_schema (plan : Plan) : (stripSort plan).schema = plan.schema := by
  unfold stripSort
  split
  · split <;> rfl
  · rfl

theorem stripSort_wellFormed {plan : Plan} (h : plan.WellFormed) : (stripSort plan).WellFormed := by
  unfold stripSort
  split
  · split
    · exact h.input.1
    · exact h
  · exact h

theorem lookThrough_wellFormed {plan : Plan} (h : plan.WellFormed) :
    (lookThrough plan).WellFormed := by
  fun_induction lookThrough plan with
  | case1 _ _ ih | case2 _ ih => exact ih h.input.1
  | case3 => exact h

theorem coalesced_schema (source : Plan) : (coalesced source).schema = source.schema := by
  unfold coalesced
  split <;> rfl

theorem coalesced_wellFormed (h : source.WellFormed) :
    (coalesced source).WellFormed := by
  unfold coalesced
  split
  · exact .unary h trivial rfl
  · exact h

theorem partialHalf_eq_some {half : AggregateExec}
    (h : partialHalf agg plan = some (half, source)) :
    plan = .unary (.aggregateExec half) source ∧ half.mode = .partialMode := by
  unfold partialHalf at h
  split at h
  · split at h
    · next hhalf =>
      cases h
      exact ⟨rfl, hhalf.1⟩
    · cases h
  · cases h

/-- The aggregate half that is lowered: the node itself, or the partial half
behind the exchange. -/
theorem aggregateSource_eq_some {half : AggregateExec} {input : Plan}
    (h : aggregateSource agg input = some (half, source)) :
    (half = agg ∧ source = input ∧ agg.mode.readsInput = true) ∨
      (lookThrough input = .unary (.aggregateExec half) source ∧ half.mode = .partialMode) := by
  unfold aggregateSource at h
  split at h
  · next hmode =>
    cases h
    exact .inl ⟨rfl, rfl, by rw [hmode]; rfl⟩
  · next hmode =>
    cases h
    exact .inl ⟨rfl, rfl, by rw [hmode]; rfl⟩
  · exact .inr (partialHalf_eq_some h)
  · exact .inr (partialHalf_eq_some h)
  · cases h

theorem aggregateSource_wellFormed {agg half : AggregateExec} {input source : Plan}
    (hwf : (Plan.unary (.aggregateExec agg) input).WellFormed)
    (h : aggregateSource agg input = some (half, source)) :
    source.WellFormed ∧ source.schema.HasColumns (half.groupExpr.expr.map Prod.fst) ∧
      ∀ call ∈ half.aggrExpr, source.schema.HasColumns call.expressions := by
  obtain ⟨hinput, hnames, -⟩ := hwf.input
  rcases aggregateSource_eq_some h with ⟨rfl, rfl, hmode⟩ | ⟨hlook, hmode⟩
  · exact ⟨hinput, hnames hmode⟩
  · obtain ⟨hsource, hnames, -⟩ := (hlook ▸ lookThrough_wellFormed hinput).input
    exact ⟨hsource, hnames (by rw [hmode]; rfl)⟩

/-! ## What a lowering returns -/

theorem GpuFilterExec.tryNew_rebuild {input : Schema} {projection : List Nat}
    (h : tryNew input predicate projection target = .ok exec) :
    (UnaryExec.gpuFilterExec exec).withNewChildren input = .ok (.gpuFilterExec exec) := by
  obtain ⟨-, -, -, schema, -, rfl⟩ := tryNew_eq_ok_iff.mp h
  rw [UnaryExec.withNewChildren, h]
  rfl

/-- What a lowered filter is. -/
theorem lowerFilter_eq_some {filter : FilterExec} {input : Schema}
    (h : lowerFilter target filter input = .ok (some exec)) :
    ∃ predicate, lowerPredicate filter.predicate input = some predicate ∧
      GpuFilterExec.tryNew input predicate
        (filter.projection.getD (List.range input.width)) target = .ok exec ∧
      exec.schema = (UnaryExec.filterExec filter).schema input := by
  unfold lowerFilter at h
  split at h
  · cases h
  · next predicate hpredicate =>
    obtain ⟨exec', hexec, h⟩ := bind_eq_ok_iff.mp h
    obtain ⟨hschema, hsome⟩ := Option.ite_none_right_eq_some.mp (Except.ok.inj h)
    cases hsome
    exact ⟨predicate, hpredicate, hexec, hschema⟩

/-- What a fused filter is. -/
theorem fuseProjection_eq_some {filter : GpuFilterExec} {source : Schema}
    (h : fuseProjection target projection filter source = .ok (some exec)) :
    ∃ fused, fuseColumns filter projection.expr = .ok (some fused) ∧
      GpuFilterExec.tryNew source filter.predicate fused target = .ok exec ∧
      exec.schema = projection.schema := by
  obtain ⟨fused, hfused, h⟩ := bind_eq_ok_iff.mp h
  split at h
  · cases h
  · next fused =>
    obtain ⟨exec', hexec, h⟩ := bind_eq_ok_iff.mp h
    obtain ⟨hschema, hsome⟩ := Option.ite_none_right_eq_some.mp (Except.ok.inj h)
    cases hsome
    exact ⟨fused, hfused, hexec, hschema⟩

/-- What a lowered projection looks like: the columns of its input and one distance call. -/
theorem lowerVectorDistance_inv {input : Schema} {exec : GpuVectorDistanceExec}
    (h : lowerVectorDistance target projection input = some exec) :
    ∃ passthrough last metric column query, projection.expr = passthrough ++ [last] ∧
      passesThrough input passthrough = true ∧
      distanceCall last.expr = some (metric, column, query) ∧
      GpuVectorDistanceExec.tryNew input column query metric last.aliasName target = .ok exec ∧
      exec.schema = projection.schema := by
  obtain ⟨last, hlast, h⟩ := Option.bind_eq_some_iff.mp h
  split at h
  · next hpasses =>
    obtain ⟨⟨metric, column, query⟩, hcall, h⟩ := Option.bind_eq_some_iff.mp h
    dsimp only at h
    split at h
    · cases h
    · next exec' hexec =>
      obtain ⟨hschema, hsome⟩ := Option.ite_none_right_eq_some.mp h
      cases hsome
      exact ⟨projection.expr.dropLast, last, metric, column, query,
        (List.dropLast_append_getLast? last hlast).symm, hpasses, hcall, hexec, hschema⟩
  · cases h

theorem lowerVectorDistance_eq_some {input : Schema} {exec : GpuVectorDistanceExec}
    (h : lowerVectorDistance target projection input = some exec) :
    ∃ column query metric name,
      GpuVectorDistanceExec.tryNew input column query metric name target = .ok exec ∧
      exec.schema = projection.schema := by
  obtain ⟨-, last, metric, column, query, -, -, -, hexec, hschema⟩ := lowerVectorDistance_inv h
  exact ⟨column, query, metric, last.aliasName, hexec, hschema⟩

theorem GpuVectorDistanceExec.tryNew_eq_ok {input : Schema} {column : Nat} {query : List F32}
    {metric : DistanceMetric} {name : String} {exec : GpuVectorDistanceExec}
    (h : tryNew input column query metric name target = .ok exec) :
    (∃ field, input.fields[column]? = some field ∧
      vectorDimension field.dataType = some query.length) ∧
    exec = ⟨column, query, metric, name,
      ⟨input.fields ++ [⟨name, .float32, true, []⟩], []⟩, target⟩ := by
  obtain ⟨dt, hdt, hrest⟩ := bind_eq_ok_iff.mp h
  obtain ⟨field, hfield, rfl⟩ := fieldType_eq_ok_iff.mp hdt
  split at hrest
  · cases hrest
  · next dim hdim =>
    split at hrest
    · cases hrest
    · next hlen =>
      cases hrest
      exact ⟨⟨field, hfield, by rw [hdim, not_not.mp hlen]⟩, rfl⟩

theorem GpuVectorDistanceExec.tryNew_rebuild {input : Schema} {column : Nat} {query : List F32}
    {metric : DistanceMetric} {name : String} {exec : GpuVectorDistanceExec}
    (h : tryNew input column query metric name target = .ok exec) :
    (UnaryExec.gpuVectorDistanceExec exec).withNewChildren input =
      .ok (.gpuVectorDistanceExec exec) := by
  obtain ⟨-, rfl⟩ := tryNew_eq_ok h
  rw [UnaryExec.withNewChildren, h]
  rfl

/-- What a lowered join is. -/
theorem lowerJoin_eq_some {join : HashJoinExec} {build probe : Schema} {exec : GpuHashJoinExec}
    (h : lowerJoin target join build probe = .ok (some exec)) :
    ∃ buildKey probeKey indices, joinKeys join.toJoinOn = some (buildKey, probeKey) ∧
      dfProjection join build probe = some indices ∧ indices ≠ [] ∧
      probe.HasInt64 probeKey ∧ build.HasInt64 buildKey ∧
      (joinedSchema probe build).project
        (indices.map (swapSides build.width probe.width)) = some join.schema ∧
      exec = ⟨probeKey, buildKey, some (indices.map (swapSides build.width probe.width)),
        join.schema, target⟩ := by
  unfold lowerJoin at h
  split at h
  · cases h
  · next buildKey probeKey hkeys =>
    obtain ⟨int64, -, h⟩ := bind_eq_ok_iff.mp h
    split at h
    · split at h
      · cases h
      · next indices hindices =>
        obtain ⟨fresh, hfresh, h⟩ := bind_eq_ok_iff.mp h
        obtain ⟨exec', hexec, h⟩ := bind_eq_ok_iff.mp h
        obtain ⟨hschema, hsome⟩ := Option.ite_none_right_eq_some.mp (Except.ok.inj h)
        cases hsome
        obtain ⟨hprobe, hbuild, rfl⟩ := GpuHashJoinExec.tryNew_eq_ok_iff.mp hfresh
        obtain ⟨hne, schema, hproject, rfl⟩ :=
          GpuHashJoinExec.withProjection_eq_ok_iff.mp hexec
        refine ⟨buildKey, probeKey, indices, hkeys, hindices, ?_, hprobe, hbuild, ?_, ?_⟩
        · exact fun hnil => hne (by rw [hnil]; rfl)
        · rw [hproject]
          exact congrArg some hschema
        · rw [← hschema]
    · cases h

/-- What a lowered merge join is. -/
theorem lowerSortMergeJoin_eq_some {join : SortMergeJoinExec} {exec : GpuHashJoinExec}
    (h : lowerSortMergeJoin target join left right = .ok (some exec)) :
    ∃ leftKey rightKey, joinKeys join.toJoinOn = some (leftKey, rightKey) ∧
      left.HasInt64 leftKey ∧ right.HasInt64 rightKey ∧ joinedSchema left right = join.schema ∧
      exec = ⟨leftKey, rightKey, none, join.schema, target⟩ := by
  unfold lowerSortMergeJoin at h
  split at h
  · cases h
  · next leftKey rightKey hkeys =>
    split at h
    · cases h
    · obtain ⟨int64, -, h⟩ := bind_eq_ok_iff.mp h
      split at h
      · obtain ⟨exec', hexec, h⟩ := bind_eq_ok_iff.mp h
        obtain ⟨hschema, hsome⟩ := Option.ite_none_right_eq_some.mp (Except.ok.inj h)
        cases hsome
        obtain ⟨hleft, hright, rfl⟩ := GpuHashJoinExec.tryNew_eq_ok_iff.mp hexec
        exact ⟨leftKey, rightKey, hkeys, hleft, hright, hschema, by rw [← hschema]⟩
      · cases h

/-- What a lowered aggregate is. -/
theorem lowerAggregate_eq_some {input : Plan}
    (h : lowerAggregate target agg input = .ok (some plan)) :
    ∃ half source spec fresh exec, aggregateSource agg input = some (half, source) ∧
      lowerAggregateSpec half source.schema = .ok (some spec) ∧
      GpuAggregateExec.tryNew source.schema spec target = .ok fresh ∧
      fresh.withOutputSchema agg.schema = .ok exec ∧
      plan = .unary (.gpuAggregateExec exec) (coalesced source) := by
  unfold lowerAggregate at h
  split at h
  · cases h
  · next half source hsource =>
    obtain ⟨spec, hspec, h⟩ := bind_eq_ok_iff.mp h
    split at h
    · cases h
    · next spec =>
      obtain ⟨fresh, hfresh, h⟩ := bind_eq_ok_iff.mp h
      rw [coalesced_schema] at hfresh
      split at h
      · next exec hexec =>
        cases h
        exact ⟨half, source, spec, fresh, exec, hsource, hspec, hfresh, hexec, rfl⟩
      · cases h

/-! ## Rewriting a node keeps its schema -/

/-- A node the rule returns instead of `plan`: well formed, with the same schema. -/
def Keeps (plan plan' : Plan) : Prop := plan'.WellFormed ∧ plan'.schema = plan.schema

theorem fuseInto_eq_some {input : Plan} (h : fuseInto target projection input = .ok (some plan)) :
    ∃ filter source exec, input = .unary (.gpuFilterExec filter) source ∧
      fuseProjection target projection filter source.schema = .ok (some exec) ∧
      plan = .unary (.gpuFilterExec exec) source := by
  unfold fuseInto at h
  split at h
  · next filter source =>
    obtain ⟨gpu, hgpu, h⟩ := bind_eq_ok_iff.mp h
    obtain ⟨exec, rfl, rfl⟩ := Option.map_eq_some_iff.mp (Except.ok.inj h)
    exact ⟨filter, source, exec, rfl, hgpu, rfl⟩
  · cases h

variable (target) in
/-- **What `rewrite` can return**: the node as it was, or what a lowering makes of it. -/
inductive Rewrites : Plan → Plan → Prop
  | kept (plan : Plan) : Rewrites plan plan
  | filter {filter : FilterExec} {input : Plan} {exec : GpuFilterExec}
      (h : lowerFilter target filter input.schema = .ok (some exec)) :
      Rewrites (.unary (.filterExec filter) input) (.unary (.gpuFilterExec exec) input)
  | fused {projection : ProjectionExec} {filter exec : GpuFilterExec} {source : Plan}
      (h : fuseProjection target projection filter source.schema = .ok (some exec)) :
      Rewrites (.unary (.projectionExec projection) (.unary (.gpuFilterExec filter) source))
        (.unary (.gpuFilterExec exec) source)
  | distance {projection : ProjectionExec} {input : Plan} {exec : GpuVectorDistanceExec}
      (h : lowerVectorDistance target projection input.schema = some exec) :
      Rewrites (.unary (.projectionExec projection) input)
        (.unary (.gpuVectorDistanceExec exec) input)
  | hashJoin {join : HashJoinExec} {build probe : Plan} {exec : GpuHashJoinExec}
      (h : lowerJoin target join build.schema probe.schema = .ok (some exec)) :
      Rewrites (.binary (.hashJoinExec join) build probe)
        (.binary (.gpuHashJoinExec exec) probe build)
  | sortMergeJoin {join : SortMergeJoinExec} {left right : Plan} {exec : GpuHashJoinExec}
      (h : lowerSortMergeJoin target join left.schema right.schema = .ok (some exec)) :
      Rewrites (.binary (.sortMergeJoinExec join) left right)
        (.binary (.gpuHashJoinExec exec) (stripSort left) (stripSort right))
  | aggregate {agg half : AggregateExec} {input source : Plan} {spec : AggregateSpec}
      {fresh exec : GpuAggregateExec} (hsource : aggregateSource agg input = some (half, source))
      (hspec : lowerAggregateSpec half source.schema = .ok (some spec))
      (hnew : GpuAggregateExec.tryNew source.schema spec target = .ok fresh)
      (hwith : fresh.withOutputSchema agg.schema = .ok exec) :
      Rewrites (.unary (.aggregateExec agg) input)
        (.unary (.gpuAggregateExec exec) (coalesced source))

/-- One node of the pass, lowering by lowering. -/
theorem rewrites_of_rewrite {plan' : Plan} (h : rewrite target plan = .ok plan') :
    Rewrites target plan plan' := by
  unfold rewrite at h
  split at h
  · obtain ⟨_ | exec, hgpu, h⟩ := bind_eq_ok_iff.mp h <;> cases h
    · exact .kept _
    · exact .filter hgpu
  · next projection input =>
    obtain ⟨_ | fused, hfused, h⟩ := bind_eq_ok_iff.mp h
    · cases hexec : lowerVectorDistance target projection input.schema <;>
        rw [hexec] at h <;> cases h
      · exact .kept _
      · exact .distance hexec
    · obtain ⟨filter, source, exec, rfl, hexec, rfl⟩ := fuseInto_eq_some hfused
      cases h
      exact .fused hexec
  · obtain ⟨_ | exec, hgpu, h⟩ := bind_eq_ok_iff.mp h <;> cases h
    · exact .kept _
    · exact .hashJoin hgpu
  · obtain ⟨_ | exec, hgpu, h⟩ := bind_eq_ok_iff.mp h <;> cases h
    · exact .kept _
    · rw [stripSort_schema, stripSort_schema] at hgpu
      exact .sortMergeJoin hgpu
  · obtain ⟨_ | plan, hgpu, h⟩ := bind_eq_ok_iff.mp h <;> cases h
    · exact .kept _
    · obtain ⟨half, source, spec, fresh, exec, hsource, hspec, hnew, hwith, rfl⟩ :=
        lowerAggregate_eq_some hgpu
      exact .aggregate hsource hspec hnew hwith
  · cases h
    exact .kept _

/-- **Rewriting keeps plans well formed and schemas unchanged.** -/
theorem rewrite_keeps {target : BackendKind} {plan plan' : Plan} (hwf : plan.WellFormed)
    (h : rewrite target plan = .ok plan') : Keeps plan plan' := by
  cases rewrites_of_rewrite h with
  | kept => exact ⟨hwf, rfl⟩
  | filter hlower =>
    obtain ⟨predicate, -, hnew, hschema⟩ := lowerFilter_eq_some hlower
    exact ⟨.unary hwf.input.1 trivial (GpuFilterExec.tryNew_rebuild hnew), hschema⟩
  | fused hlower =>
    obtain ⟨hsource, -, -⟩ := hwf.input.1.input
    obtain ⟨columns, -, hnew, hschema⟩ := fuseProjection_eq_some hlower
    exact ⟨.unary hsource trivial (GpuFilterExec.tryNew_rebuild hnew), hschema⟩
  | distance hlower =>
    obtain ⟨column, query, metric, name, hnew, hschema⟩ := lowerVectorDistance_eq_some hlower
    exact ⟨.unary hwf.input.1 trivial (GpuVectorDistanceExec.tryNew_rebuild hnew), hschema⟩
  | @hashJoin join _ _ _ hlower =>
    obtain ⟨buildKey, probeKey, indices, -, -, hne, hprobe, hbuild, hproject, rfl⟩ :=
      lowerJoin_eq_some hlower
    refine ⟨.binary hwf.inputs.2.1 hwf.inputs.1 trivial ?_, rfl⟩
    rw [BinaryExec.withNewChildren,
      GpuHashJoinExec.tryNew_eq_ok_iff.mpr ⟨hprobe, hbuild, rfl⟩, ok_bind,
      GpuHashJoinExec.withProjection_eq_ok_iff.mpr
        ⟨by simpa using hne, join.schema, hproject, rfl⟩]
    rfl
  | sortMergeJoin hlower =>
    obtain ⟨leftKey, rightKey, -, hleft, hright, hschema, rfl⟩ := lowerSortMergeJoin_eq_some hlower
    refine ⟨.binary (stripSort_wellFormed hwf.inputs.1)
      (stripSort_wellFormed hwf.inputs.2.1) trivial ?_, rfl⟩
    rw [← stripSort_schema] at hleft hright
    rw [BinaryExec.withNewChildren,
      GpuHashJoinExec.tryNew_eq_ok_iff.mpr ⟨hleft, hright, rfl⟩, stripSort_schema,
      stripSort_schema, ← hschema]
    rfl
  | aggregate hsource _ hnew hwith =>
    have hexec := GpuAggregateExec.withOutputSchema_ok hwith
    obtain ⟨schema, -, hfresh⟩ := bind_eq_ok_iff.mp hnew
    cases hfresh
    refine ⟨.unary (coalesced_wellFormed (aggregateSource_wellFormed hwf hsource).1)
      trivial ?_, by rw [hexec]; rfl⟩
    subst hexec
    rw [UnaryExec.withNewChildren, coalesced_schema, hnew, ok_bind, hwith]
    rfl

end OxideLake
