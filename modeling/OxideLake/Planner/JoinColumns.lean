import OxideLake.Planner.CpuPath
import OxideLake.Planner.Ordering

/-!
# The columns of a lowered join

`lower_join` exchanges the sides of a hash join, so it has to say the join's output columns, which
count through `build ++ probe`, in terms of `probe ++ build`.  A projection pushed into the join is
not read: it is found again by looking each field of the join's schema up among the fields of both
sides, and the join is left alone when a field is there more than once.

`HashJoinExec.output` is the original join on the rows of its inputs.  `HashJoinExec.Reproduced`
says that the rule leaves a join alone or puts one in its place that returns the same rows. -/

namespace OxideLake

open List Partial Row

variable {D : Type}

variable {build probe : Schema} {exec : GpuHashJoinExec} {join : HashJoinExec}
  {target : BackendKind}

/-! ## The original join -/

/-- The key of a build row, for a join on one `Int64` pair. -/
def HashJoinExec.buildKey (join : HashJoinExec) (foreign : ForeignExprs) (row : Row) :
    Option Int64 :=
  match join.on with
  | [(build, _)] => (build.value foreign row).bind Cell.int64?
  | _ => none

/-- The key of a probe row. -/
def HashJoinExec.probeKey (join : HashJoinExec) (foreign : ForeignExprs) (row : Row) :
    Option Int64 :=
  match join.on with
  | [(_, probe)] => (probe.value foreign row).bind Cell.int64?
  | _ => none

/-- An inner `HashJoinExec` on one `Int64` pair: the projected `build ++ probe` columns of all
pairs of rows with equal keys that are not `NULL`, in the order of the probe side. -/
def HashJoinExec.output (join : HashJoinExec) (foreign : ForeignExprs) (build probe : Schema)
    (buildRows probeRows : List Row) : List Row :=
  EquiJoin.joinRows (join.probeKey foreign) (join.buildKey foreign)
    (fun probeRow buildRow => select (buildRow ++ probeRow) (join.outputColumns build probe))
    probeRows buildRows

/-- Backends a join can be served by: those without a device, and those whose device declines or
joins. -/
def GpuBackend.ServesJoins (contents : D → RecordBatch) (backend : GpuBackend D) : Prop :=
  backend.kind.isGpu = false ∨ backend.Joins contents

/-- The rule leaves the join alone, or replaces it by one that returns the columns of the original
under the original's fields: on every backend, and whatever the order of the hash map. -/
def HashJoinExec.Reproduced (join : HashJoinExec) (foreign : ForeignExprs) (target : BackendKind)
    (build probe : Plan) (buildSide probeSide : List RecordBatch) : Prop :=
  rewrite target (.binary (.hashJoinExec join) build probe) =
      .ok (.binary (.hashJoinExec join) build probe) ∨
    ∃ exec, rewrite target (.binary (.hashJoinExec join) build probe) =
        .ok (.binary (.gpuHashJoinExec exec) probe build) ∧
      ∀ (D : Type) (contents : D → RecordBatch) (calls : Calls D),
        calls.map Prod.snd = probeSide → (∀ call ∈ calls, call.1.ServesJoins contents) →
        ∀ order, ∃ outs, exec.execute order build.schema buildSide calls = .ok outs ∧
          (∀ out ∈ outs, out.schema.fields = join.schema.fields) ∧
          (streamRows outs).Perm (join.output foreign build.schema probe.schema
            (streamRows buildSide) (streamRows probeSide))

/-! ## Exchanging the sides -/

theorem getElem?_swapSides {α : Type} (build probe : List α) {index : Nat}
    (h : index < build.length + probe.length) :
    (probe ++ build)[swapSides build.length probe.length index]? = (build ++ probe)[index]? := by
  unfold swapSides
  split
  next hbuild =>
    rw [getElem?_append_right (Nat.le_add_right _ _), Nat.add_sub_cancel_left,
      getElem?_append_left hbuild]
  next hprobe =>
    rw [getElem?_append_left (by omega), getElem?_append_right (by omega)]

theorem Row.select_swapSides {build probe : Row} {columns : List Nat}
    (h : ∀ c ∈ columns, c < build.length + probe.length) :
    Row.select (probe ++ build) (columns.map (swapSides build.length probe.length)) =
      Row.select (build ++ probe) columns := by
  rw [Row.select, Row.select, map_map]
  refine map_congr_left fun c hc => ?_
  show Row.at _ _ = Row.at _ _
  rw [Row.at, getElem?_swapSides build probe (h c hc), Row.at]

theorem project_swapSides {columns : List Nat} {fields : List Field}
    (h : columns.mapM (fun i => (build.fields ++ probe.fields)[i]?) = some fields) :
    (joinedSchema probe build).project (columns.map (swapSides build.width probe.width)) =
      some ⟨fields, []⟩ := by
  have hfields : (columns.map (swapSides build.width probe.width)).mapM
      (fun i => (probe.fields ++ build.fields)[i]?) = some fields := by
    rw [mapM_eq_some_iff, List.forall₂_map_left_iff]
    refine (mapM_eq_some_iff.mp h).imp fun c field hc => ?_
    have hlt := (List.getElem?_eq_some_iff.mp hc).1
    rw [List.length_append] at hlt
    exact (getElem?_swapSides _ _ hlt).trans hc
  rw [Schema.project, joinedSchema, hfields]
  rfl

/-! ## Which joins are replaced -/

/-- The joins the rule has a replacement for: the keys are eligible, every field of a pushed
projection stands in one place only, and the schema carries no metadata of its own. -/
structure HashJoinExec.Placeable (join : HashJoinExec) (build probe : Schema) : Prop where
  eligible : join.Eligible build probe
  unambiguous : join.projection.isSome → ∀ field ∈ join.schema.fields,
    (build.fields ++ probe.fields).count field = 1
  metadata : join.schema.metadata = []

/-- A field is found by its only occurrence. -/
theorem onlyMatch_isSome_iff (full : List Field) (field : Field) :
    (∃ index, onlyMatch full field = some index) ↔ full.count field = 1 := by
  have hlength : ((full.zipIdx.filter fun entry => entry.1 = field).map Prod.snd).length =
      full.count field := by
    have hcount : (full.zipIdx.map Prod.fst).countP (· == field) =
        full.zipIdx.countP fun entry => entry.1 = field := countP_map
    rw [length_map, ← countP_eq_length_filter, ← hcount, zipIdx_map_fst, count]
  rw [← hlength, length_eq_one_iff]
  unfold onlyMatch
  constructor
  · rintro ⟨index, h⟩
    split at h
    next only honly => exact ⟨only, honly⟩
    · cases h
  · rintro ⟨only, honly⟩
    exact ⟨only, by rw [honly]⟩

theorem dfProjection_isSome_iff (join : HashJoinExec) (build probe : Schema) :
    (∃ indices, dfProjection join build probe = some indices) ↔
      (join.projection.isSome → ∀ field ∈ join.schema.fields,
        (build.fields ++ probe.fields).count field = 1) := by
  unfold dfProjection
  by_cases hprojection : join.projection.isSome
  · rw [if_pos hprojection]
    constructor
    · rintro ⟨indices, h⟩ - field hfield
      exact (onlyMatch_isSome_iff _ _).mp (mapM_some_of_mem h hfield)
    · intro h
      refine ⟨join.schema.fields.map fun field =>
        (onlyMatch (build.fields ++ probe.fields) field).getD 0,
        mapM_eq_some_map fun field hfield => ?_⟩
      obtain ⟨index, hindex⟩ := (onlyMatch_isSome_iff _ _).mpr (h hprojection field hfield)
      rw [hindex, Option.getD_some]
  · rw [if_neg hprojection]
    exact ⟨fun _ h => absurd h hprojection, fun _ => ⟨_, rfl⟩⟩

theorem HashJoinExec.outputFields_eq (join : HashJoinExec) (build probe : Schema) :
    join.outputFields build probe =
      (join.outputColumns build probe).mapM fun i => (build.fields ++ probe.fields)[i]? := by
  unfold HashJoinExec.outputFields HashJoinExec.outputColumns
  cases join.projection with
  | some indices => rfl
  | none =>
    obtain ⟨fields, hfields, hschema⟩ :=
      Option.map_eq_some_iff.mp (joinedSchema build probe).project_range
    obtain rfl : fields = build.fields ++ probe.fields := congrArg Schema.fields hschema
    rw [Option.getD_none, ← hfields, Schema.width, joinedSchema, length_append]
    rfl

theorem lowerJoin_built (h : lowerJoin target join build probe = .ok (some exec)) :
    exec.Built probe build ∧ exec.schema = join.schema ∧ join.Placeable build probe := by
  obtain ⟨buildKey, probeKey, indices, hkeys, hindices, hne, hprobe, hbuild, hproject, rfl⟩ :=
    lowerJoin_eq_some h
  refine ⟨⟨_, GpuHashJoinExec.tryNew_eq_ok_iff.mpr ⟨hprobe, hbuild, rfl⟩,
    GpuHashJoinExec.withProjection_eq_ok_iff.mpr ⟨?_, _, hproject, rfl⟩⟩, rfl,
    ⟨buildKey, probeKey, hkeys, hbuild, hprobe⟩,
    (dfProjection_isSome_iff join build probe).mp ⟨indices, hindices⟩, ?_⟩
  · exact fun hnil => hne (map_eq_nil_iff.mp hnil)
  · obtain ⟨fields, -, hschema⟩ := Option.map_eq_some_iff.mp hproject
    rw [← hschema]
    rfl

/-- When a join is lowered. -/
theorem lowerJoin_some_iff (target : BackendKind)
    (hnames : (BinaryExec.hashJoinExec join).NamesColumns build probe)
    (hrepresentable : join.Representable build probe) :
    (∃ exec, lowerJoin target join build probe = .ok (some exec)) ↔
      join.Placeable build probe := by
  constructor
  · rintro ⟨exec, h⟩
    exact (lowerJoin_built h).2.2
  · rintro ⟨⟨buildKey, probeKey, hkeys, hbuild, hprobe⟩, hunambiguous, hmetadata⟩
    have hfields := hnames.2 (joinKeys_eq_some hkeys).1
    obtain ⟨hbuildLt, hprobeLt⟩ := joinKeys_lt hnames.1 hkeys
    obtain ⟨int64, hint, hiff⟩ := bothInt64_total hbuildLt hprobeLt
    obtain ⟨indices, hindices⟩ := (dfProjection_isSome_iff join build probe).mpr hunambiguous
    have hne : indices ≠ [] := fun hnil => hrepresentable
      ⟨buildKey, probeKey, hkeys, hbuild, hprobe⟩
      ((dfProjection_eq_nil hfields (Nat.zero_lt_of_lt hbuildLt) hindices).mp hnil)
    -- the schema of the replacement is that of the join
    have hproject : (joinedSchema probe build).project
        (indices.map (swapSides build.width probe.width)) = some join.schema := by
      have hcolumns := hfields
      rw [HashJoinExec.outputFields_eq, ← dfProjection_eq hfields hindices] at hcolumns
      rw [project_swapSides hcolumns, ← hmetadata]
    have hplace : placeJoin target join build probe buildKey probeKey indices =
        .ok (some ⟨probeKey, buildKey, some (indices.map (swapSides build.width probe.width)),
          join.schema, target⟩) := by
      rw [placeJoin, GpuHashJoinExec.tryNew_eq_ok_iff.mpr ⟨hprobe, hbuild, rfl⟩, ok_bind,
        GpuHashJoinExec.withProjection_eq_ok_iff.mpr
          ⟨fun hnil => hne (map_eq_nil_iff.mp hnil), _, hproject, rfl⟩,
        ok_bind, if_pos rfl]
    have hlower : lowerJoin target join build probe =
        placeJoin target join build probe buildKey probeKey indices := by
      rw [lowerJoin, hkeys]
      dsimp only
      rw [hint, ok_bind, if_pos (hiff.mpr ⟨hbuild, hprobe⟩), hindices]
    exact ⟨_, hlower.trans hplace⟩

/-! ## The replacement's rows -/

section Output

variable {join : HashJoinExec} {build probe : Schema} {buildKey probeKey : Nat}

theorem HashJoinExec.key_eq (foreign : ForeignExprs)
    (hkeys : joinKeys join.toJoinOn = some (buildKey, probeKey)) :
    join.buildKey foreign = (key · buildKey) ∧
      join.probeKey foreign = (key · probeKey) := by
  obtain ⟨-, left, right, hon, hleft, hright⟩ := joinKeys_eq_some hkeys
  constructor
  · funext row
    rw [HashJoinExec.buildKey, hon]
    show (left.value foreign row).bind Cell.int64? = _
    rw [columnIndex_value foreign hleft]
    rfl
  · funext row
    rw [HashJoinExec.probeKey, hon]
    show (right.value foreign row).bind Cell.int64? = _
    rw [columnIndex_value foreign hright]
    rfl

theorem lowerJoin_joined (foreign : ForeignExprs)
    (hnames : (BinaryExec.hashJoinExec join).NamesColumns build probe)
    (h : lowerJoin target join build probe = .ok (some exec)) {buildRows probeRows : List Row}
    (hbuild : ∀ row ∈ buildRows, row.length = build.width)
    (hprobe : ∀ row ∈ probeRows, row.length = probe.width) :
    exec.joined probe build probeRows buildRows =
        join.output foreign build probe buildRows probeRows ∧
      join.buildKey foreign = (key · exec.rightKey) ∧
      join.probeKey foreign = (key · exec.leftKey) := by
  obtain ⟨-, hselected⟩ := lowerJoin_fits hnames h
  obtain ⟨buildKey, probeKey, indices, hkeys, hindices, -, -, -, -, rfl⟩ := lowerJoin_eq_some h
  obtain ⟨hbuildKey, hprobeKey⟩ := HashJoinExec.key_eq foreign hkeys
  refine ⟨?_, hbuildKey, hprobeKey⟩
  rw [GpuHashJoinExec.joined, innerJoin, hselected, HashJoinExec.output, hbuildKey, hprobeKey]
  refine EquiJoin.joinRows_congr _ _ (fun _ _ => rfl) (fun _ _ => rfl) fun probeRow hp buildRow
    hb => ?_
  have hlt := dfProjection_lt hindices
  rw [dfProjection_eq (hnames.2 (joinKeys_eq_some hkeys).1) hindices, ← hbuild buildRow hb,
    ← hprobe probeRow hp] at hlt
  rw [← hbuild buildRow hb, ← hprobe probeRow hp, select_swapSides hlt]

end Output

/-! ## On any backend -/

section Backends

variable {contents : D → RecordBatch} {backend : GpuBackend D} {order : MapOrder}

/-- **Step lemma.**  A call on a backend that serves joins returns the rows of the reference and
keeps the invariant of the cached build side. -/
theorem OperatorState.hashJoin_serves {build : JoinBuild order}
    (hserves : backend.ServesJoins contents) {state : OperatorState D} {left ref : RecordBatch}
    {leftKey : Nat} {projection : Option (List Nat)}
    (hcached : RunCached contents build left.schema.fields leftKey projection state)
    (href : Kernels.hashJoinProbe left leftKey build.batch build.table projection = .ok ref) :
    RunCached contents build left.schema.fields leftKey projection
        (state.hashJoin backend left build leftKey projection).2 ∧
      ∃ out, (state.hashJoin backend left build leftKey projection).1 = .ok out ∧
        out.schema.fields = ref.schema.fields ∧ out.rows.Perm ref.rows := by
  rcases hserves with hcpu | hjoins
  · refine ⟨?_, ref, (state.hashJoin_cpu hcpu left build leftKey projection).trans href, rfl,
      .refl _⟩
    obtain ⟨why, hwhy⟩ := backend.noDevicePath_of_cpu hcpu backend.supportsHashJoin "hash joins"
    intro left' plans hfields hplans held hheld
    rw [hashJoin, finish_deviceBuild, joinOutcome, hwhy] at hheld
    exact hcached left' plans hfields hplans held hheld
  · refine ⟨hashJoin_runCached hjoins hcached, ?_⟩
    obtain ⟨out, hout, hfields, hrefRows, pairs, hsame, hrows⟩ :=
      hashJoin_sameJoin hjoins hcached href
    refine ⟨out, hout, hfields, ?_⟩
    rw [hrows, hrefRows]
    exact hsame.perm.map _

/-- **Which backends serve the batches does not matter**: where the reference joins them all, so do
the others, up to the order of the rows. -/
theorem GpuHashJoinExec.execute_serves {D' : Type} {left right : Schema}
    {buildSide refs : List RecordBatch} {calls : Calls D}
    {cpuCalls : List (GpuBackend D' × RecordBatch)} (hcpu : CpuCalls cpuCalls)
    (hsame : calls.map Prod.snd = cpuCalls.map Prod.snd)
    (hserves : ∀ call ∈ calls, call.1.ServesJoins contents)
    (hcalls : ∀ call ∈ calls, call.2.schema.fields = left.fields)
    (hrefs : exec.execute order right buildSide cpuCalls = .ok refs) :
    ∃ outs, exec.execute order right buildSide calls = .ok outs ∧
      List.Forall₂ (fun out ref => out.schema.fields = ref.schema.fields ∧ out.rows.Perm ref.rows)
        outs refs := by
  rw [exec.execute_cpu order right buildSide hcpu, ← hsame] at hrefs
  obtain ⟨all, hall, hjoin⟩ := bind_eq_ok_iff.mp hrefs
  obtain ⟨build, hbuild, hprobes⟩ := bind_eq_ok_iff.mp hjoin
  rw [execute, hall, ok_bind, hbuild, ok_bind]
  refine streamRun_simulates
    (OperatorState.RunCached contents build left.fields exec.leftKey exec.projection)
    (fun call hcall state ref hcached href => ?_) (fun _ _ _ _ _ hheld => by cases hheld) hprobes
  rw [← hcalls call hcall] at hcached ⊢
  exact OperatorState.hashJoin_serves (hserves call hcall) hcached href

end Backends

/-- Batches with the same rows up to order make streams with the same rows up to order. -/
theorem streamRows_perm {outs refs : List RecordBatch}
    (h : List.Forall₂ (fun out ref => out.rows.Perm ref.rows) outs refs) :
    (streamRows outs).Perm (streamRows refs) := by
  induction h with
  | nil => exact .refl _
  | cons hrows _ ih => exact hrows.append ih

/-- A lowered join that names its columns. -/
theorem lowerJoin_reproduces (foreign : ForeignExprs)
    (hnames : (BinaryExec.hashJoinExec join).NamesColumns build probe)
    (h : lowerJoin target join build probe = .ok (some exec)) {buildSide : List RecordBatch}
    (hside : ∀ batch ∈ buildSide, batch.schema = build) {probeSide : List RecordBatch}
    (hprobe : ∀ batch ∈ probeSide, batch.schema = probe) :
    (∀ (D : Type) (contents : D → RecordBatch) (calls : Calls D),
        calls.map Prod.snd = probeSide → (∀ call ∈ calls, call.1.ServesJoins contents) →
        ∀ order, ∃ outs, exec.execute order build buildSide calls = .ok outs ∧
          (∀ out ∈ outs, out.schema.fields = join.schema.fields) ∧
          (streamRows outs).Perm (join.output foreign build probe (streamRows buildSide)
            (streamRows probeSide))) ↔
      JoinLimits (join.probeKey foreign) (join.buildKey foreign) (streamRows buildSide)
        probeSide := by
  obtain ⟨hbuilt, hschema, -⟩ := lowerJoin_built h
  obtain ⟨hjoined, hbuildKey, hprobeKey⟩ := lowerJoin_joined foreign hnames h
    (fun row hrow => length_of_mem_streamRows
      (fun batch hbatch => congrArg Schema.fields (hside batch hbatch)) hrow)
    (fun row hrow => length_of_mem_streamRows
      (fun batch hbatch => congrArg Schema.fields (hprobe batch hbatch)) hrow)
  rw [hbuildKey, hprobeKey, ← hjoined, ← hschema]
  -- the reference serves every batch
  let cpuCalls := probeSide.map fun batch => (cpuBackend, batch)
  have hcpu : CpuCalls cpuCalls := cpuCalls_map rfl probeSide
  have hbatches : cpuCalls.map Prod.snd = probeSide := map_snd_calls cpuBackend probeSide
  have hexecute := exec.execute_cpu_iff hbuilt hside hcpu (forall_mem_map.mpr hprobe)
  rw [hbatches] at hexecute
  constructor
  · intro hruns
    obtain ⟨outs, houts, -, -⟩ := hruns _ id cpuCalls hbatches
      (fun call hcall => .inl (hcpu call hcall)) .insertion
    have hlimits := GpuHashJoinExec.joinLimits_of_execute hbuilt hcpu
      (forall_mem_map.mpr hprobe) houts
    rwa [hbatches] at hlimits
  · intro hlimits D contents calls hcalls hserves order
    obtain ⟨refs, hrefs, hfields, hrows⟩ := (hexecute order).mpr hlimits
    obtain ⟨outs, houts, hsame⟩ := GpuHashJoinExec.execute_serves hcpu (hcalls.trans hbatches.symm)
      hserves (fun call hcall => congrArg Schema.fields (hprobe call.2 (hcalls ▸
        mem_map_of_mem hcall))) hrefs
    refine ⟨outs, houts, fun out hout => ?_, ?_⟩
    · obtain ⟨ref, href, hout⟩ := forall₂_exists_right hsame hout
      exact hout.1.trans (congrArg Schema.fields (hfields ref href))
    · rw [← hrows]
      exact streamRows_perm (hsame.imp fun _ _ => And.right)

/-- **Join lowering reproduces every output column**, exactly unless it fails on an empty pushed
projection or the inputs are beyond the limits of the hash table. -/
theorem reproduced_iff {target : BackendKind} {join : HashJoinExec} {build probe : Plan}
    (hnames : (BinaryExec.hashJoinExec join).NamesColumns build.schema probe.schema)
    (foreign : ForeignExprs) {buildSide probeSide : List RecordBatch}
    (hside : ∀ batch ∈ buildSide, batch.schema = build.schema)
    (hprobe : ∀ batch ∈ probeSide, batch.schema = probe.schema) :
    join.Reproduced foreign target build probe buildSide probeSide ↔
      join.Representable build.schema probe.schema ∧
        (join.Placeable build.schema probe.schema →
          JoinLimits (join.probeKey foreign) (join.buildKey foreign) (streamRows buildSide)
            probeSide) := by
  have hok : (∃ gpu, lowerJoin target join build.schema probe.schema = .ok gpu) ↔ _ :=
    lowerJoin_ok_iff hnames
  unfold HashJoinExec.Reproduced
  by_cases hrepresentable : join.Representable build.schema probe.schema
  · obtain ⟨gpu, hgpu⟩ := hok.mpr hrepresentable
    have hplaceable := lowerJoin_some_iff target hnames hrepresentable
    have hrewrite : rewrite target (.binary (.hashJoinExec join) build probe) =
        .ok ((gpu.map fun exec => Plan.binary (.gpuHashJoinExec exec) probe build).getD
          (.binary (.hashJoinExec join) build probe)) := by
      rw [rewrite, hgpu, ok_bind]
    rw [hrewrite, ← hplaceable, hgpu]
    cases gpu with
    | none =>
      refine ⟨fun _ => ⟨hrepresentable, ?_⟩, fun _ => .inl rfl⟩
      rintro ⟨exec, hexec⟩
      cases hexec
    | some exec =>
      have hreproduces := lowerJoin_reproduces foreign hnames hgpu hside hprobe
      constructor
      · rintro (halone | ⟨exec', hexec', hruns⟩)
        · cases halone
        · cases hexec'
          exact ⟨hrepresentable, fun _ => hreproduces.mp hruns⟩
      · rintro ⟨-, hlimits⟩
        exact .inr ⟨exec, rfl, hreproduces.mpr (hlimits ⟨exec, rfl⟩)⟩
  · refine ⟨fun h => absurd ?_ hrepresentable, fun h => absurd h.1 hrepresentable⟩
    rw [← hok]
    rcases h with h | ⟨exec, h, -⟩
    · obtain ⟨gpu, hgpu, -⟩ := bind_eq_ok_iff.mp h
      exact ⟨gpu, hgpu⟩
    · obtain ⟨gpu, hgpu, -⟩ := bind_eq_ok_iff.mp h
      exact ⟨gpu, hgpu⟩

/-! ## Two key columns -/

/-- Inputs whose rows `u32` counts, and whose pairs Arrow can collect, are within the limits. -/
theorem joinLimits_of_lt {probeKey buildKey : Row → Option Int64} {build : List Row}
    {probe : List RecordBatch} (hbuild : build.length < 2 ^ 32)
    (hprobe : ∀ batch ∈ probe, batch.numRows ≤ 2 ^ 32 ∧
      (EquiJoin.joinRows probeKey buildKey Prod.mk batch.rows build).length < 2 ^ 63) :
    JoinLimits probeKey buildKey build probe where
  collected := by omega
  keys := by
    have := length_filterMap_le id (build.map buildKey)
    rw [List.length_map] at this
    omega
  buildIndex := by
    intro n key hkey
    have := (List.getElem?_eq_some_iff.mp hkey).1
    rw [List.length_map] at this
    omega
  probeIndex := by
    intro batch hbatch n key hkey _
    have hlt := (List.getElem?_eq_some_iff.mp hkey).1
    rw [List.length_map, batch.length_rows] at hlt
    exact Nat.lt_of_lt_of_le hlt (hprobe batch hbatch).1
  pairs := fun batch hbatch => (hprobe batch hbatch).2

/-- `b` and `k`, joined on equality. -/
def joinOfKeys (projection : Option (List Nat)) (schema : Schema) : HashJoinExec where
  on := [(.column "b" 0, .column "k" 0)]
  filter := none
  joinType := .inner
  nullEquality := .nullEqualsNothing
  mode := .collectLeft
  projection := projection
  schema := schema
  partitions := fun _ probe => probe

/-- The `Int64` column `b`. -/
def fieldOfB : Field := ⟨"b", .int64, true, []⟩

/-- The table of the build side. -/
def scanOfB : Plan := .foreign ⟨"DataSourceExec", ⟨[fieldOfB], []⟩, fun _ => 1⟩ []

/-- Two build rows. -/
def buildBatch : RecordBatch :=
  .ofEntries [(fieldOfB, Column.ofInt64 [some 4, none])] 2 (by decide)

theorem joinOfKeys_namesColumns {projection : Option (List Nat)} {schema : Schema}
    (h : (joinOfKeys projection schema).outputFields scanOfB.schema scanOfKeys.schema =
      some schema.fields) :
    (BinaryExec.hashJoinExec (joinOfKeys projection schema)).NamesColumns scanOfB.schema
      scanOfKeys.schema := by
  refine ⟨⟨?_, ?_⟩, fun _ => h⟩
  · intro expr hexpr index hindex
    cases mem_singleton.mp hexpr
    cases hindex
    decide
  · intro expr hexpr index hindex
    cases mem_singleton.mp hexpr
    cases hindex
    decide

/-- A join none of whose columns is asked for: the original returns an empty row for the pair of
fours, the rule fails. -/
theorem emptyJoin_fails :
    (BinaryExec.hashJoinExec (joinOfKeys (some []) ⟨[], []⟩)).NamesColumns scanOfB.schema
        scanOfKeys.schema ∧
      (joinOfKeys (some []) ⟨[], []⟩).output noForeign scanOfB.schema scanOfKeys.schema
        buildBatch.rows keyBatch.rows = [[]] ∧
      rewrite .cuda (.binary (.hashJoinExec (joinOfKeys (some []) ⟨[], []⟩)) scanOfB scanOfKeys) =
        .error (.plan "GpuHashJoinExec: projection must select at least one column") ∧
      ¬ (joinOfKeys (some []) ⟨[], []⟩).Reproduced noForeign .cuda scanOfB scanOfKeys [buildBatch]
        [keyBatch] := by
  have hfails : rewrite .cuda
      (.binary (.hashJoinExec (joinOfKeys (some []) ⟨[], []⟩)) scanOfB scanOfKeys) =
        .error (.plan "GpuHashJoinExec: projection must select at least one column") := rfl
  refine ⟨joinOfKeys_namesColumns rfl, by decide, hfails, ?_⟩
  rintro (h | ⟨exec, h, -⟩)
  · rw [hfails] at h
    cases h
  · rw [hfails] at h
    cases h

/-- The columns `k`, `b`, `k` of the join are reproduced. -/
theorem reproduced_iff_repeated :
    (joinOfKeys (some [1, 0, 1]) ⟨[⟨"k", .int64, true, []⟩, fieldOfB, ⟨"k", .int64, true, []⟩], []⟩
      ).Reproduced noForeign .cuda scanOfB scanOfKeys [buildBatch] [keyBatch] := by
  refine (reproduced_iff (joinOfKeys_namesColumns rfl) noForeign ?_ ?_).mpr
    ⟨fun _ => nofun, fun _ => joinLimits_of_lt (by decide) ?_⟩
  · intro batch hbatch
    cases mem_singleton.mp hbatch
    rfl
  · intro batch hbatch
    cases mem_singleton.mp hbatch
    rfl
  · intro batch hbatch
    cases mem_singleton.mp hbatch
    decide

end OxideLake
