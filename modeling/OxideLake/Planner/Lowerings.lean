import OxideLake.Planner.WellFormed

/-!
# When a lowering fails

A lowering declines what the device cannot run, but it passes on the errors of the
constructors it calls, and the constructors check more than the lowering did:
`GpuFilterExec::try_new` refuses more than 64 comparisons and an empty projection,
`with_projection` refuses an empty projection.  For each lowering this module says
on which well-formed nodes it fails, and that indexing a schema never panics.
-/

namespace OxideLake

open List Partial

variable {input build left probe right : Schema} {target : BackendKind} {filter : FilterExec}
  {join : HashJoinExec} {leftKey rightKey : Nat}

/-! ## Filters -/

/-- The constructor accepts the filter if its predicate is in the grammar. -/
def FilterExec.Representable (filter : FilterExec) (input : Schema) : Prop :=
  ∀ predicate, lowerPredicate filter.predicate input = some predicate →
    predicate.leafCount ≤ maxPredicateLeaves ∧ filter.projection ≠ some []

theorem Predicate.Typed.width_pos {schema : Schema} {predicate : Predicate}
    (h : predicate.Typed schema) : 0 < schema.width := by
  induction predicate with
  | compare column op lit =>
    obtain ⟨field, hfield, -⟩ := h
    exact Nat.lt_of_le_of_lt (Nat.zero_le _) (List.getElem?_eq_some_iff.mp hfield).1
  | and left right ihLeft _ => exact ihLeft h.1

section

variable (hnames : (UnaryExec.filterExec filter).NamesColumns input)
include hnames

theorem FilterExec.project_columns :
    input.project (filter.projection.getD (range input.width)) =
      some ((UnaryExec.filterExec filter).schema input) := by
  cases hprojection : filter.projection with
  | none => simpa [UnaryExec.schema, hprojection] using input.project_range
  | some indices =>
    obtain ⟨projected, h⟩ := Schema.project_isSome_iff.mpr (hnames indices hprojection)
    simp [UnaryExec.schema, hprojection, h]

/-- **`lower_filter` fails exactly on a filter its constructor refuses**; where it
succeeds, it lowers every predicate of the grammar. -/
theorem lowerFilter_ok_iff :
    (∃ gpu, lowerFilter target filter input = .ok gpu) ↔ filter.Representable input := by
  unfold lowerFilter FilterExec.Representable
  cases hpredicate : lowerPredicate filter.predicate input with
  | none => simp
  | some predicate =>
    constructor
    · rintro ⟨gpu, h⟩ predicate' hsome
      cases hsome
      obtain ⟨exec, hexec, -⟩ := bind_eq_ok_iff.mp h
      obtain ⟨hfew, -, hne, -⟩ := GpuFilterExec.tryNew_eq_ok_iff.mp hexec
      exact ⟨hfew, fun hempty => hne (by rw [hempty]; rfl)⟩
    · intro h
      obtain ⟨hfew, hempty⟩ := h predicate rfl
      have htyped := lowerPredicate_typed hpredicate
      have hne : filter.projection.getD (range input.width) ≠ [] := by
        cases hprojection : filter.projection with
        | none => simpa using Nat.pos_iff_ne_zero.mp htyped.width_pos
        | some indices => exact fun hnil => hempty (by rw [hprojection]; exact congrArg some hnil)
      have hnew : ∃ exec, GpuFilterExec.tryNew input predicate
          (filter.projection.getD (range input.width)) target = .ok exec :=
        ⟨_, GpuFilterExec.tryNew_eq_ok_iff.mpr
          ⟨hfew, htyped, hne, _, FilterExec.project_columns hnames, rfl⟩⟩
      obtain ⟨exec, hexec⟩ := hnew
      exact ⟨_, bind_eq_ok_iff.mpr ⟨exec, hexec, rfl⟩⟩

/-- A filter that lowers at all lowers exactly when its predicate is in the
grammar: the schema check never declines. -/
theorem lowerFilter_some_iff {gpu : Option GpuFilterExec}
    (h : lowerFilter target filter input = .ok gpu) :
    gpu.isSome = true ↔ ∃ predicate, lowerPredicate filter.predicate input = some predicate := by
  unfold lowerFilter at h
  split at h
  · next hnone =>
    cases h
    simp [hnone]
  · next predicate hsome =>
    obtain ⟨exec, hexec, h⟩ := bind_eq_ok_iff.mp h
    obtain ⟨-, -, -, schema, hschema, rfl⟩ := GpuFilterExec.tryNew_eq_ok_iff.mp hexec
    rw [FilterExec.project_columns hnames] at hschema
    cases hschema
    cases h
    simp [hsome]

end

/-! ## Projections over a lowered filter -/

/-- A projection expression that is plainly column `column` of `schema`, under its
own name. -/
def ProjectionExpr.IsColumn (schema : Schema) (expr : ProjectionExpr) (column : Nat) : Prop :=
  columnIndex expr.expr = some column ∧
    (schema.fields[column]?).map Field.name = some expr.aliasName

theorem ProjectionExpr.isColumn_unique (schema : Schema) :
    Relator.RightUnique (ProjectionExpr.IsColumn schema) :=
  fun _ _ _ h h' => Option.some.inj (h.1.symm.trans h'.1)

/-- A projection of plain, non-renaming columns of `schema`, at least one, whose
schema is the selected fields. -/
def ProjectionExec.FoldsOver (projection : ProjectionExec) (schema : Schema) : Prop :=
  ∃ columns, List.Forall₂ (ProjectionExpr.IsColumn schema) projection.expr columns ∧
    columns ≠ [] ∧ schema.project columns = some projection.schema

theorem Schema.project_project {schema middle : Schema} {outer inner selected : List Nat}
    (hinner : schema.project inner = some middle)
    (hselected : outer.mapM (fun i => inner[i]?) = some selected) :
    schema.project selected = middle.project outer := by
  obtain ⟨fields, hfields, rfl⟩ := Option.map_eq_some_iff.mp hinner
  have hread : selected.mapM (fun i => schema.fields[i]?) = outer.mapM (fun i => fields[i]?) := by
    have hstep : ∀ i, fields[i]? = (inner[i]?).bind fun j => schema.fields[j]? :=
      fun i => mapM_some_getElem? hfields i
    rw [mapM_eq_some_iff] at hselected
    induction hselected with
    | nil => rfl
    | @cons i j outer selected hij _ ih =>
      rw [mapM_cons, mapM_cons, ih, hstep i, hij]
      rfl
  rw [project, project, hread]

/-- The loop of `fuse_projection` over a valid filter, on columns the filter has:
it never panics, and it succeeds on plain, non-renaming columns. -/
theorem fuseColumns_spec {filter : GpuFilterExec} {exprs : List ProjectionExpr}
    (hwidth : filter.projection.length = filter.schema.width)
    (hnames : filter.schema.HasColumns (exprs.map ProjectionExpr.expr)) :
    ∃ fused, fuseColumns filter exprs = .ok fused ∧
      ∀ selected, fused = some selected ↔
        ∃ columns, List.Forall₂ (ProjectionExpr.IsColumn filter.schema) exprs columns ∧
          columns.mapM (fun i => filter.projection[i]?) = some selected := by
  induction exprs with
  | nil => exact ⟨some [], rfl, fun selected => by simp [eq_comm]⟩
  | cons expr exprs ih =>
    obtain ⟨fused, hfused, hspec⟩ := ih fun e he => hnames e (mem_cons_of_mem _ he)
    rw [fuseColumns]
    cases hcolumn : columnIndex expr.expr with
    | none =>
      refine ⟨none, rfl, fun selected => ?_⟩
      simp [forall₂_cons_left_iff, ProjectionExpr.IsColumn, hcolumn]
    | some index =>
      have hlt : index < filter.schema.fields.length :=
        hnames _ mem_cons_self index hcolumn
      have hfield := getElem?_eq_getElem hlt
      have hproj := getElem?_eq_getElem (hwidth ▸ hlt : index < filter.projection.length)
      have hcons : ∀ column columns, List.Forall₂ (ProjectionExpr.IsColumn filter.schema)
          (expr :: exprs) (column :: columns) ↔ column = index ∧
            filter.schema.fields[index].name = expr.aliasName ∧
            List.Forall₂ (ProjectionExpr.IsColumn filter.schema) exprs columns := by
        intro column columns
        rw [forall₂_cons, ProjectionExpr.IsColumn, hcolumn, and_assoc, Option.some.injEq]
        constructor
        · rintro ⟨rfl, hname, hrest⟩
          rw [hfield] at hname
          exact ⟨rfl, Option.some.inj hname, hrest⟩
        · rintro ⟨rfl, hname, hrest⟩
          exact ⟨rfl, by rw [hfield, Option.map_some, hname], hrest⟩
      simp only [getOrPanic_eq_ok_iff.mpr hfield, ok_bind]
      by_cases hname : filter.schema.fields[index].name = expr.aliasName
      · rw [if_neg (not_not.mpr hname), getOrPanic_eq_ok_iff.mpr hproj, ok_bind,
          hfused, ok_bind]
        refine ⟨_, rfl, fun selected => ?_⟩
        rw [Option.map_eq_some_iff]
        constructor
        · rintro ⟨rest, hrest, rfl⟩
          obtain ⟨columns, hall, hread⟩ := (hspec rest).mp hrest
          refine ⟨index :: columns, (hcons index columns).mpr ⟨rfl, hname, hall⟩, ?_⟩
          exact mapM_cons_eq_some_iff.mpr ⟨_, rest, hproj, hread, rfl⟩
        · rintro ⟨columns, hall, hread⟩
          cases columns with
          | nil => cases hall
          | cons column columns =>
            obtain ⟨rfl, -, hrest⟩ := (hcons _ _).mp hall
            obtain ⟨j, rest, hj, htail, rfl⟩ := mapM_cons_eq_some_iff.mp hread
            rw [hproj] at hj
            cases hj
            exact ⟨rest, (hspec rest).mpr ⟨columns, hrest, htail⟩, rfl⟩
      · rw [if_pos hname]
        refine ⟨none, rfl, fun selected => ?_⟩
        simp only [reduceCtorEq, false_iff]
        rintro ⟨columns, hall, -⟩
        cases columns with
        | nil => cases hall
        | cons column columns => exact hname ((hcons _ _).mp hall).2.1

theorem GpuFilterExec.valid {exec : GpuFilterExec} {source : Schema}
    (h : (UnaryExec.gpuFilterExec exec).withNewChildren source = .ok (.gpuFilterExec exec)) :
    tryNew source exec.predicate exec.projection exec.target = .ok exec := by
  obtain ⟨exec', hexec, h⟩ := bind_eq_ok_iff.mp h
  cases h
  exact hexec

/-- **Fusing fails exactly on a projection of zero expressions**, and succeeds
exactly on one that folds over the filter's schema. -/
theorem fuseProjection_spec {projection : ProjectionExec} {filter : GpuFilterExec} {source : Schema}
    (hvalid : GpuFilterExec.tryNew source filter.predicate filter.projection filter.target =
      .ok filter) (hnames : filter.schema.HasColumns (projection.expr.map ProjectionExpr.expr)) :
    ((∃ gpu, fuseProjection target projection filter source = .ok gpu) ↔ projection.expr ≠ []) ∧
      ∀ gpu, fuseProjection target projection filter source = .ok gpu →
        (gpu.isSome = true ↔ projection.FoldsOver filter.schema) := by
  obtain ⟨hfew, htyped, -, schema, hproject, hfilter⟩ :=
    GpuFilterExec.tryNew_eq_ok_iff.mp hvalid
  have hschema : filter.schema = schema := congrArg GpuFilterExec.schema hfilter
  rw [← hschema] at hproject
  have hwidth : filter.projection.length = filter.schema.width := by
    obtain ⟨fields, hfields, hfilter⟩ := Option.map_eq_some_iff.mp hproject
    rw [← hfilter]
    exact (mapM_some_length hfields).symm
  obtain ⟨fused, hfused, hspec⟩ := fuseColumns_spec hwidth hnames
  unfold fuseProjection
  rw [hfused, ok_bind]
  cases fused with
  | none =>
    -- some expression is not a plain column: declined, and nothing folds
    have hnone : ¬ projection.FoldsOver filter.schema := by
      rintro ⟨columns, hall, -, hproj⟩
      obtain ⟨selected, hselected⟩ := mapM_getElem?_eq_some.mpr
        (fun i hi => hwidth ▸ Schema.project_isSome_iff.mp ⟨_, hproj⟩ i hi)
      exact absurd ((hspec selected).mpr ⟨columns, hall, hselected⟩) (by simp)
    have hexprs : projection.expr ≠ [] := by
      intro hnil
      have hsome := (hspec []).mpr ⟨[], by rw [hnil]; exact .nil, rfl⟩
      cases hsome
    refine ⟨⟨fun _ => hexprs, fun _ => ⟨none, rfl⟩⟩, ?_⟩
    rintro gpu ⟨⟩
    simpa using hnone
  | some selected =>
    obtain ⟨columns, hall, hselected⟩ := (hspec selected).mp rfl
    have hcolumns : columns = [] ↔ projection.expr = [] := by
      rw [← length_eq_zero_iff, ← hall.length_eq, length_eq_zero_iff]
    have hempty : selected = [] ↔ projection.expr = [] := by
      rw [← hcolumns, ← length_eq_zero_iff, mapM_some_length hselected,
        length_eq_zero_iff]
    have hselects := Schema.project_project hproject hselected
    have hrange : ∃ out, filter.schema.project columns = some out := by
      rw [Schema.project_isSome_iff]
      intro i hi
      obtain ⟨j, hj⟩ := mapM_some_of_mem hselected hi
      exact hwidth ▸ (List.getElem?_eq_some_iff.mp hj).1
    obtain ⟨out, hout⟩ := hrange
    have hnew : ∀ exec, GpuFilterExec.tryNew source filter.predicate selected target =
        .ok exec ↔ projection.expr ≠ [] ∧ exec = ⟨filter.predicate, selected, out, target⟩ := by
      intro exec
      rw [GpuFilterExec.tryNew_eq_ok_iff, hselects, hout, ne_eq, hempty]
      constructor
      · rintro ⟨-, -, hne, schema', hschema', rfl⟩
        cases hschema'
        exact ⟨hne, rfl⟩
      · rintro ⟨hne, rfl⟩
        exact ⟨hfew, htyped, hne, out, rfl, rfl⟩
    refine ⟨⟨?_, fun hne => ?_⟩, ?_⟩
    · rintro ⟨gpu, h⟩
      obtain ⟨exec, hexec, -⟩ := bind_eq_ok_iff.mp h
      exact ((hnew exec).mp hexec).1
    · exact ⟨_, bind_eq_ok_iff.mpr ⟨_, (hnew _).mpr ⟨hne, rfl⟩, rfl⟩⟩
    · intro gpu h
      obtain ⟨exec, hexec, h⟩ := bind_eq_ok_iff.mp h
      obtain ⟨hne, rfl⟩ := (hnew exec).mp hexec
      cases h
      rw [Option.isSome_ite]
      constructor
      · intro hsame
        exact ⟨columns, hall, fun hnil => hne (hcolumns.mp hnil), hout.trans (congrArg some hsame)⟩
      · rintro ⟨columns', hall', -, hproj⟩
        rw [right_unique_forall₂' (ProjectionExpr.isColumn_unique _) hall' hall, hout]
          at hproj
        exact Option.some.inj hproj

/-! ## Joins -/

/-- The keys a join lowering asks for: one pair of plain `Int64` columns of an
inner join. -/
def JoinOn.Eligible (join : JoinOn) (left right : Schema) : Prop :=
  ∃ leftKey rightKey, joinKeys join = some (leftKey, rightKey) ∧ left.HasInt64 leftKey ∧
    right.HasInt64 rightKey

/-- The constructor accepts the join if its keys are eligible. -/
def HashJoinExec.Representable (join : HashJoinExec) (build probe : Schema) : Prop :=
  join.Eligible build probe → join.projection ≠ some []

theorem joinKeys_eq_some {join : JoinOn} (h : joinKeys join = some (leftKey, rightKey)) :
    join.joinType = .inner ∧ ∃ left right, join.on = [(left, right)] ∧
      columnIndex left = some leftKey ∧ columnIndex right = some rightKey := by
  unfold joinKeys at h
  split at h
  · next hguard =>
    split at h
    · next left right hon =>
      simp only [Option.bind_eq_bind, Option.bind_eq_some_iff] at h
      obtain ⟨l, hl, r, hr, h⟩ := h
      cases h
      exact ⟨hguard.1, left, right, hon, hl, hr⟩
    · cases h
  · cases h

theorem bothInt64_total (hleft : leftKey < left.width) (hright : rightKey < right.width) :
    ∃ int64, bothInt64 left leftKey right rightKey = .ok int64 ∧
      (int64 = true ↔ left.HasInt64 leftKey ∧ right.HasInt64 rightKey) := by
  have hl : left.fields[leftKey]? = some left.fields[leftKey] := getElem?_eq_getElem hleft
  have hr : right.fields[rightKey]? = some right.fields[rightKey] :=
    getElem?_eq_getElem hright
  have hint : ∀ {schema : Schema} {key : Nat} {field : Field}, schema.fields[key]? = some field →
      (schema.HasInt64 key ↔ field.dataType = .int64) := by
    intro schema key field hfield
    simp [Schema.HasInt64, hfield]
  rw [hint hl, hint hr, bothInt64, getOrPanic_eq_ok_iff.mpr hl, ok_bind]
  by_cases htype : left.fields[leftKey].dataType = .int64
  · rw [if_neg (not_not.mpr htype), getOrPanic_eq_ok_iff.mpr hr, ok_bind]
    exact ⟨_, rfl, by simp [htype]⟩
  · rw [if_pos htype]
    exact ⟨_, rfl, by simp [htype]⟩

theorem joinKeys_lt {join : JoinOn} (hnames : join.NamesColumns left right)
    (hkeys : joinKeys join = some (leftKey, rightKey)) :
    leftKey < left.width ∧ rightKey < right.width := by
  obtain ⟨-, l, r, hon, hl, hr⟩ := joinKeys_eq_some hkeys
  exact ⟨hnames.1 l (by rw [hon]; exact mem_cons_self) leftKey hl,
    hnames.2 r (by rw [hon]; exact mem_cons_self) rightKey hr⟩

theorem onlyMatch_lt {full : List Field} {field : Field} {index : Nat}
    (h : onlyMatch full field = some index) : index < full.length := by
  unfold onlyMatch at h
  split at h
  · next sole hsole =>
    cases h
    have hmem : index ∈ (full.zipIdx.filter fun entry => entry.1 = field).map Prod.snd := by
      rw [hsole]
      exact mem_cons_self
    obtain ⟨⟨f, i⟩, hentry, rfl⟩ := mem_map.mp hmem
    simpa using snd_lt_of_mem_zipIdx (mem_filter.mp hentry).1
  · cases h

theorem dfProjection_lt {indices : List Nat} (h : dfProjection join build probe = some indices) :
    ∀ i ∈ indices, i < build.width + probe.width := by
  intro i hi
  unfold dfProjection at h
  split at h
  · obtain ⟨field, -, hfield⟩ := mapM_some_mem h hi
    simpa [Schema.width] using onlyMatch_lt hfield
  · cases h
    exact mem_range.mp hi

theorem swapSides_lt {buildWidth probeWidth index : Nat} (h : index < buildWidth + probeWidth) :
    swapSides buildWidth probeWidth index < probeWidth + buildWidth := by
  unfold swapSides
  split <;> omega

theorem dfProjection_eq_nil (hfields : join.outputFields build probe = some join.schema.fields)
    (hwidth : 0 < build.width) {indices : List Nat}
    (h : dfProjection join build probe = some indices) :
    indices = [] ↔ join.projection = some [] := by
  unfold dfProjection at h
  unfold HashJoinExec.outputFields at hfields
  cases hprojection : join.projection with
  | none =>
    rw [hprojection] at h
    cases h
    simp only [range_eq_nil, reduceCtorEq, iff_false]
    omega
  | some pushed =>
    rw [hprojection] at h hfields
    have hlen := mapM_some_length h
    have hlen' := mapM_some_length hfields
    rw [← length_eq_zero_iff, hlen, hlen', length_eq_zero_iff, Option.some.injEq]

/-- **`lower_join` fails exactly on an eligible join with an empty pushed
projection.** -/
theorem lowerJoin_ok_iff (hnames : (BinaryExec.hashJoinExec join).NamesColumns build probe) :
    (∃ gpu, lowerJoin target join build probe = .ok gpu) ↔ join.Representable build probe := by
  unfold lowerJoin HashJoinExec.Representable JoinOn.Eligible
  cases hkeys : joinKeys join.toJoinOn with
  | none => simp
  | some keys =>
    obtain ⟨buildKey, probeKey⟩ := keys
    obtain ⟨hbuild, hprobe⟩ := joinKeys_lt hnames.1 hkeys
    obtain ⟨int64, hint, hiff⟩ := bothInt64_total hbuild hprobe
    have hfields := hnames.2 (joinKeys_eq_some hkeys).1
    have hwidth : 0 < build.width := Nat.lt_of_le_of_lt (Nat.zero_le _) hbuild
    dsimp only
    rw [hint, ok_bind]
    cases hint64 : int64 with
    | false =>
      simp only [Bool.false_eq_true, if_false]
      refine ⟨fun _ => ?_, fun _ => ⟨none, rfl⟩⟩
      rintro ⟨l, r, hkeys', hl, hr⟩
      cases hkeys'
      exact absurd (hiff.mpr ⟨hl, hr⟩) (by rw [hint64]; simp)
    | true =>
      obtain ⟨hl, hr⟩ := hiff.mp hint64
      simp only [if_true]
      cases hindices : dfProjection join build probe with
      | none =>
        refine ⟨fun _ _ hempty => ?_, fun _ => ⟨none, rfl⟩⟩
        -- a pushed projection of zero columns is never ambiguous
        have hschema : join.schema.fields = [] := by
          simpa [HashJoinExec.outputFields, hempty, eq_comm] using hfields
        simp [dfProjection, hempty, hschema] at hindices
      | some indices =>
        have hnil := dfProjection_eq_nil hfields hwidth hindices
        have hproject : ∃ schema, (joinedSchema probe build).project
            (indices.map (swapSides build.width probe.width)) = some schema := by
          rw [Schema.project_isSome_iff]
          intro i hi
          obtain ⟨j, hj, rfl⟩ := mem_map.mp hi
          have hlt := swapSides_lt (dfProjection_lt hindices j hj)
          simpa [joinedSchema, Schema.width] using hlt
        obtain ⟨schema, hschema⟩ := hproject
        have hnew : GpuHashJoinExec.tryNew probe build probeKey buildKey target = .ok _ :=
          GpuHashJoinExec.tryNew_eq_ok_iff.mpr ⟨hr, hl, rfl⟩
        simp only [placeJoin, hnew, ok_bind]
        constructor
        · rintro ⟨gpu, h⟩ - hempty
          obtain ⟨exec, hexec, -⟩ := bind_eq_ok_iff.mp h
          obtain ⟨hne, -⟩ := GpuHashJoinExec.withProjection_eq_ok_iff.mp hexec
          exact hne (by rw [hnil.mpr hempty]; rfl)
        · intro h
          have hne := h ⟨buildKey, probeKey, rfl, hl, hr⟩
          refine ⟨_, bind_eq_ok_iff.mpr
            ⟨_, GpuHashJoinExec.withProjection_eq_ok_iff.mpr
              ⟨?_, schema, hschema, rfl⟩, rfl⟩⟩
          exact fun hmap => hne (hnil.mp (map_eq_nil_iff.mp hmap))

theorem lowerSortMergeJoin_total (target : BackendKind) {join : SortMergeJoinExec}
    (hnames : join.toJoinOn.NamesColumns left right) :
    ∃ gpu, lowerSortMergeJoin target join left right = .ok gpu := by
  unfold lowerSortMergeJoin
  cases hkeys : joinKeys join.toJoinOn with
  | none => exact ⟨none, rfl⟩
  | some keys =>
    obtain ⟨leftKey, rightKey⟩ := keys
    obtain ⟨hleft, hright⟩ := joinKeys_lt hnames hkeys
    obtain ⟨int64, hint, hiff⟩ := bothInt64_total hleft hright
    dsimp only
    split
    · exact ⟨none, rfl⟩
    · rw [hint, ok_bind]
      split
      · next hint64 =>
        obtain ⟨hl, hr⟩ := hiff.mp hint64
        exact ⟨_, bind_eq_ok_iff.mpr
          ⟨_, GpuHashJoinExec.tryNew_eq_ok_iff.mpr ⟨hl, hr, rfl⟩, rfl⟩⟩
      · exact ⟨none, rfl⟩

/-! ## Aggregates -/

/-- A call the device has a kernel for: `SUM`, `COUNT`, `MIN` or `MAX` of one plain `Int64` or
`Float64` column, without `DISTINCT`. -/
def AggregateFunctionExpr.IsEntry (input : Schema) (call : AggregateFunctionExpr)
    (entry : AggregateFunction × Nat) : Prop :=
  aggregateFunction call.funName = some entry.1 ∧ call.isDistinct = false ∧
    ∃ arg, call.expressions = [arg] ∧ columnIndex arg = some entry.2 ∧
      ∃ field, input.fields[entry.2]? = some field ∧
        (field.dataType = .int64 ∨ field.dataType = .float64)

/-- The node groups by one plain `Int64` column, has no `FILTER`, and its calls are those of the
spec. -/
structure AggregateExec.HasSpec (agg : AggregateExec) (input : Schema) (spec : AggregateSpec) :
    Prop where
  groupBy : groupColumn agg.groupExpr = some spec.groupBy
  int64 : input.HasInt64 spec.groupBy
  unfiltered : agg.filterExpr.any Option.isSome = false
  aggregates : Forall₂ (AggregateFunctionExpr.IsEntry input) agg.aggrExpr spec.aggregates

variable {agg : AggregateExec} {spec : AggregateSpec}

theorem AggregateExec.HasSpec.typed (h : agg.HasSpec input spec) : spec.Typed input := by
  refine ⟨h.int64, fun entry hentry => ?_⟩
  obtain ⟨call, -, -, -, arg, -, -, hfield⟩ := forall₂_exists_left h.aggregates hentry
  exact hfield

theorem lowerAggregateCall_eq_some {call : AggregateFunctionExpr} {entry : AggregateFunction × Nat}
    (h : lowerAggregateCall input call = .ok (some entry)) : call.IsEntry input entry := by
  unfold lowerAggregateCall at h
  split at h
  · next func column hfunc hdistinct hargs =>
    obtain ⟨field, hfield, h⟩ := bind_eq_ok_iff.mp h
    obtain ⟨arg, hexpressions, harg⟩ := map_eq_singleton_iff.mp hargs
    obtain ⟨htype, hsome⟩ := Option.ite_none_right_eq_some.mp (Except.ok.inj h)
    cases hsome
    exact ⟨hfunc, hdistinct, arg, hexpressions, harg, field, getOrPanic_eq_ok_iff.mp hfield, htype⟩
  · cases h

variable {calls : List AggregateFunctionExpr}

theorem lowerAggregateCalls_eq_some {entries : List (AggregateFunction × Nat)}
    (h : lowerAggregateCalls input calls = .ok (some entries)) :
    Forall₂ (AggregateFunctionExpr.IsEntry input) calls entries := by
  induction calls generalizing entries with
  | nil =>
    cases h
    exact .nil
  | cons call calls ih =>
    obtain ⟨head, hhead, h⟩ := bind_eq_ok_iff.mp h
    split at h
    · cases h
    · obtain ⟨tail, htail, h⟩ := bind_eq_ok_iff.mp h
      obtain ⟨rest, rfl, rfl⟩ := Option.map_eq_some_iff.mp (Except.ok.inj h)
      exact .cons (lowerAggregateCall_eq_some hhead) (ih htail)

/-- **The spec that is lowered** is that of the node. -/
theorem lowerAggregateSpec_eq_some (h : lowerAggregateSpec agg input = .ok (some spec)) :
    agg.HasSpec input spec := by
  unfold lowerAggregateSpec at h
  split at h
  · cases h
  · next groupBy hgroup =>
    obtain ⟨field, hfield, h⟩ := bind_eq_ok_iff.mp h
    split at h
    · cases h
    · next hguard =>
      obtain ⟨htype, hfilter⟩ := not_or.mp hguard
      obtain ⟨aggregates, haggregates, h⟩ := bind_eq_ok_iff.mp h
      obtain ⟨entries, rfl, rfl⟩ := Option.map_eq_some_iff.mp (Except.ok.inj h)
      exact ⟨hgroup, ⟨field, getOrPanic_eq_ok_iff.mp hfield, of_not_not htype⟩,
        Bool.eq_false_iff.mpr hfilter, lowerAggregateCalls_eq_some haggregates⟩

theorem lowerAggregateCalls_total (hnames : ∀ call ∈ calls, input.HasColumns call.expressions) :
    ∃ entries, lowerAggregateCalls input calls = .ok entries := by
  induction calls with
  | nil => exact ⟨_, rfl⟩
  | cons call calls ih =>
    have hcall : ∃ head, lowerAggregateCall input call = .ok head := by
      unfold lowerAggregateCall
      split
      · next func column _ _ hargs =>
        obtain ⟨arg, hexprs, harg⟩ := map_eq_singleton_iff.mp hargs
        have hlt : column < input.fields.length :=
          hnames call mem_cons_self arg (by rw [hexprs]; exact mem_cons_self) column harg
        rw [getOrPanic_eq_ok_iff.mpr (getElem?_eq_getElem hlt), ok_bind]
        exact ⟨_, rfl⟩
      · exact ⟨none, rfl⟩
    obtain ⟨head, hhead⟩ := hcall
    obtain ⟨tail, htail⟩ := ih fun c hc => hnames c (mem_cons_of_mem _ hc)
    rw [lowerAggregateCalls, hhead, ok_bind]
    cases head with
    | none => exact ⟨none, rfl⟩
    | some head =>
      simp only [htail, ok_bind]
      exact ⟨_, rfl⟩

theorem lowerAggregateSpec_total (hgroup : input.HasColumns (agg.groupExpr.expr.map Prod.fst))
    (hcalls : ∀ call ∈ agg.aggrExpr, input.HasColumns call.expressions) :
    ∃ spec, lowerAggregateSpec agg input = .ok spec := by
  unfold lowerAggregateSpec
  cases hcolumn : groupColumn agg.groupExpr with
  | none => exact ⟨none, rfl⟩
  | some groupBy =>
    have hlt : groupBy < input.fields.length := by
      unfold groupColumn at hcolumn
      split at hcolumn
      · split at hcolumn
        · next key name hexpr =>
          exact hgroup key (by rw [hexpr]; exact mem_cons_self) groupBy hcolumn
        · cases hcolumn
      · cases hcolumn
    dsimp only
    rw [getOrPanic_eq_ok_iff.mpr (getElem?_eq_getElem hlt), ok_bind]
    split
    · exact ⟨none, rfl⟩
    · obtain ⟨entries, hentries⟩ := lowerAggregateCalls_total hcalls
      rw [hentries, ok_bind]
      exact ⟨_, rfl⟩

theorem lowerAggregate_total (target : BackendKind) {input : Plan}
    (hwf : (Plan.unary (.aggregateExec agg) input).WellFormed) :
    ∃ gpu, lowerAggregate target agg input = .ok gpu := by
  unfold lowerAggregate
  cases hsource : aggregateSource agg input with
  | none => exact ⟨none, rfl⟩
  | some pair =>
    obtain ⟨half, source⟩ := pair
    obtain ⟨-, hgroup, hcalls⟩ := aggregateSource_wellFormed hwf hsource
    obtain ⟨spec, hspec⟩ := lowerAggregateSpec_total hgroup hcalls
    dsimp only
    rw [hspec, ok_bind]
    cases spec with
    | none => exact ⟨none, rfl⟩
    | some spec =>
      have htyped := (lowerAggregateSpec_eq_some hspec).typed
      obtain ⟨exec, hexec⟩ := GpuAggregateExec.tryNew_of_typed htyped target
      simp only [placeAggregate, coalesced_schema, hexec, ok_bind]
      split
      · exact ⟨_, rfl⟩
      · exact ⟨none, rfl⟩

end OxideLake
