import OxideLake.Compute.ReferenceJoin
import OxideLake.Planner.Execute

/-!
# The CPU path

What `execute` of each node returns on backends without a device.  Every call is declined
before anything is uploaded, so a node is the reference kernel, batch by batch: nothing
depends on the operator's state.

For batches of the input's schema each node's result is stated exactly: the batches have
the node's declared schema, a filter and a join emit their rows in input order, a
join emits the matches of a probe row in build order, and the only ways to fail are an
`Int64` overflow of `SUM` and inputs beyond `u32` rows.
-/

namespace OxideLake

open List Partial RecordBatch JoinTable Row

variable {D : Type}

variable {batch : RecordBatch} {calls : Calls D} {backend : GpuBackend D}
  {batches : List RecordBatch} {kernel : RecordBatch → Result RecordBatch}

/-! ## Declined calls -/

theorem GpuBackend.noDevicePath_of_cpu (h : backend.kind.isGpu = false) (supported : Bool)
    (what : String) :
    ∃ why, backend.noDevicePath supported what = some why := by
  rw [noDevicePath, h]
  exact ⟨_, rfl⟩

namespace OperatorState

variable (state : OperatorState D) {backend : GpuBackend D}

theorem finish_declined (rowsIn : Nat) (why : EngineError) (reference : Unit → Result RecordBatch) :
    (state.finish rowsIn (.ok (.declined why)) reference).1 = reference () := by
  unfold finish
  cases reference () <;> rfl

theorem filterProject_cpu (h : backend.kind.isGpu = false) (batch : RecordBatch)
    (predicate : Predicate) (projection : List Nat) :
    (state.filterProject backend batch predicate projection).1 =
      Kernels.filterProject batch predicate projection := by
  obtain ⟨why, hwhy⟩ := backend.noDevicePath_of_cpu h (backend.supportsPredicate predicate)
    "this predicate"
  rw [filterProject, hwhy, finish_declined]

theorem aggregate_cpu (fpu : FloatUnit) (h : backend.kind.isGpu = false) (batch : RecordBatch)
    (spec : AggregateSpec) :
    (state.aggregate fpu backend batch spec).1 = Kernels.aggregate fpu batch spec := by
  obtain ⟨why, hwhy⟩ := backend.noDevicePath_of_cpu h backend.supportsAggregate "aggregation"
  rw [aggregate, hwhy, finish_declined]

theorem vectorDistance_cpu (fpu : FloatUnit) (h : backend.kind.isGpu = false)
    (batch : RecordBatch) (column : Nat) (query : List F32) (metric : DistanceMetric)
    (outputName : String) :
    (state.vectorDistance fpu backend batch column query metric outputName).1 =
      Kernels.vectorDistance fpu batch column query metric outputName := by
  obtain ⟨why, hwhy⟩ := backend.noDevicePath_of_cpu h true "vector distance"
  rw [vectorDistance, hwhy, finish_declined]

theorem hashJoin_cpu (h : backend.kind.isGpu = false) (left : RecordBatch) {order : MapOrder}
    (build : JoinBuild order) (leftKey : Nat) (projection : Option (List Nat)) :
    (state.hashJoin backend left build leftKey projection).1 =
      Kernels.hashJoinProbe left leftKey build.batch build.table projection := by
  obtain ⟨why, hwhy⟩ := backend.noDevicePath_of_cpu h backend.supportsHashJoin "hash joins"
  rw [hashJoin, joinOutcome, hwhy, finish_declined]

end OperatorState

theorem streamRun_eq_mapM {step : OperatorStep D}
    (h : ∀ call ∈ calls, ∀ state, (step state call.1 call.2).1 = kernel call.2)
    (state : OperatorState D) :
    streamRun step state calls = (calls.map Prod.snd).mapM kernel := by
  induction calls generalizing state with
  | nil => rfl
  | cons call calls ih =>
    obtain ⟨backend, batch⟩ := call
    have hcall := h _ mem_cons_self state
    have ih' := ih fun c hc => h c (mem_cons_of_mem _ hc)
    rw [streamRun, map_cons, mapM_cons, ← hcall]
    rcases step state backend batch with ⟨_ | out, state'⟩
    · rfl
    · show (do let outs ← streamRun step state' calls; Except.ok (out :: outs)) = _
      rw [ih' state']
      rfl

/-- **Run lemma.**  A stream whose calls simulate a kernel simulates the `mapM` of the kernel. -/
theorem streamRun_simulates {step : OperatorStep D} (Keeps : OperatorState D → Prop)
    {Same : RecordBatch → RecordBatch → Prop}
    (hstep : ∀ call ∈ calls, ∀ state ref, Keeps state → kernel call.2 = .ok ref →
      Keeps (step state call.1 call.2).2 ∧
        ∃ out, (step state call.1 call.2).1 = .ok out ∧ Same out ref) {state : OperatorState D}
    (hstate : Keeps state) {refs : List RecordBatch}
    (h : (calls.map Prod.snd).mapM kernel = .ok refs) :
    ∃ outs, streamRun step state calls = .ok outs ∧ List.Forall₂ Same outs refs := by
  rw [mapM_eq_ok_iff, forall₂_map_left_iff] at h
  induction h generalizing state with
  | nil => exact ⟨[], rfl, .nil⟩
  | @cons call ref calls refs href _ ih =>
    obtain ⟨hkeeps, out, hout, hsame⟩ := hstep call mem_cons_self state ref hstate href
    obtain ⟨outs, houts, hrest⟩ := ih (fun c hc => hstep c (mem_cons_of_mem _ hc)) hkeeps
    refine ⟨out :: outs, ?_, .cons hsame hrest⟩
    rw [streamRun, show step state call.1 call.2 = (.ok out, (step state call.1 call.2).2) from
      Prod.ext hout rfl]
    exact bind_eq_ok_iff.mpr ⟨outs, houts, rfl⟩

/-- Calls on backends without a device. -/
def CpuCalls (calls : Calls D) : Prop :=
  ∀ call ∈ calls, call.1.kind.isGpu = false

theorem cpuCalls_map (h : backend.kind.isGpu = false) (batches : List RecordBatch) :
    CpuCalls (batches.map fun batch => (backend, batch)) :=
  forall_mem_map.mpr fun _ _ => h

theorem map_snd_calls (backend : GpuBackend D) (batches : List RecordBatch) :
    (batches.map fun batch => (backend, batch)).map Prod.snd = batches := by
  rw [map_map]
  exact map_id batches

theorem GpuFilterExec.execute_cpu (exec : GpuFilterExec) (h : CpuCalls calls) :
    exec.execute calls =
      (calls.map Prod.snd).mapM (Kernels.filterProject · exec.predicate exec.projection) :=
  streamRun_eq_mapM (fun call hcall state => state.filterProject_cpu (h call hcall) _ _ _) {}

theorem GpuVectorDistanceExec.execute_cpu (fpu : FloatUnit) (exec : GpuVectorDistanceExec)
    (h : CpuCalls calls) :
    exec.execute fpu calls =
      (calls.map Prod.snd).mapM
        (Kernels.vectorDistance fpu · exec.column exec.query exec.metric exec.outputName) :=
  streamRun_eq_mapM (fun call hcall state => state.vectorDistance_cpu fpu (h call hcall) _ _ _ _ _)
    {}

theorem GpuHashJoinExec.execute_cpu (order : MapOrder) (exec : GpuHashJoinExec) (right : Schema)
    (buildSide : List RecordBatch) (h : CpuCalls calls) :
    exec.execute order right buildSide calls = (do
      let all ← concatBatches right buildSide
      let build ← JoinBuild.new order all exec.rightKey
      (calls.map Prod.snd).mapM
        (Kernels.hashJoinProbe · exec.leftKey build.batch build.table exec.projection)) := by
  refine congrArg _ (funext fun all => congrArg _ (funext fun build => ?_))
  exact streamRun_eq_mapM (fun call hcall state => state.hashJoin_cpu (h call hcall) _ build _ _) {}

theorem GpuAggregateExec.execute_cpu (fpu : FloatUnit) (exec : GpuAggregateExec) (input : Schema)
    (h : backend.kind.isGpu = false) (batches : List RecordBatch) :
    exec.execute fpu input backend batches = (do
      let all ← concatBatches input batches
      let out ← Kernels.aggregate fpu all exec.spec
      RecordBatch.tryNew exec.schema out.columns) := by
  refine congrArg _ (funext fun all => ?_)
  rw [OperatorState.aggregate_cpu _ fpu h]

theorem streamRows_of_spec {P : RecordBatch → Prop} (f : List Row → List Row) (hnil : f [] = [])
    (happend : ∀ a b, f (a ++ b) = f a ++ f b) {outs : List RecordBatch}
    (h : List.Forall₂ (fun batch out => P out ∧ out.rows = f batch.rows) batches outs) :
    (∀ out ∈ outs, P out) ∧ streamRows outs = f (streamRows batches) := by
  refine ⟨fun out hout => ?_, streamRows_of_forall₂ hnil happend (h.imp fun _ _ => And.right)⟩
  obtain ⟨batch, -, hbatch⟩ := forall₂_exists_left h hout
  exact hbatch.1

theorem mapM_rows {P : RecordBatch → Prop} (f : List Row → List Row) (hnil : f [] = [])
    (happend : ∀ a b, f (a ++ b) = f a ++ f b)
    (h : ∀ batch ∈ batches, ∃ out, kernel batch = .ok out ∧ P out ∧ out.rows = f batch.rows) :
    ∃ outs, batches.mapM kernel = .ok outs ∧ (∀ out ∈ outs, P out) ∧
      streamRows outs = f (streamRows batches) := by
  obtain ⟨outs, houts, hspec⟩ := mapM_ok_forall₂ h
  exact ⟨outs, houts, streamRows_of_spec f hnil happend hspec⟩

/-! ## Filters and distances -/

theorem Kernels.filterProject_spec {predicate : Predicate} {projection : List Nat} {schema : Schema}
    (htyped : predicate.Typed batch.schema)
    (hproject : batch.schema.project projection = some schema) :
    ∃ out, Kernels.filterProject batch predicate projection = .ok out ∧ out.schema = schema ∧
      out.rows = (batch.rows.filter fun row => predicate.truth row = some true).map
        (select · projection) := by
  have hcolumns := Schema.project_isSome_iff.mp ⟨schema, hproject⟩
  obtain ⟨out, hout, hrows⟩ := filterProject_rows htyped fun i hi => by
    rw [numColumns_eq_width rfl]
    exact hcolumns i hi
  refine ⟨out, hout, ?_, hrows⟩
  obtain ⟨mask, -, hout⟩ := bind_eq_ok_iff.mp hout
  obtain ⟨projected, hprojected, hout⟩ := bind_eq_ok_iff.mp hout
  cases hout
  have hschema := project_schema hprojected
  rw [hproject] at hschema
  rw [filter_schema]
  exact (Option.some.inj hschema).symm

/-- **A filter on the CPU.** -/
theorem GpuFilterExec.execute_cpu_spec {exec : GpuFilterExec} {input : Schema}
    (hbuilt : tryNew input exec.predicate exec.projection exec.target = .ok exec)
    (hcpu : CpuCalls calls) (hcalls : ∀ call ∈ calls, call.2.schema = input) :
    ∃ outs, exec.execute calls = .ok outs ∧ (∀ out ∈ outs, out.schema = exec.schema) ∧
      streamRows outs = ((streamRows (calls.map Prod.snd)).filter fun row =>
        exec.predicate.truth row = some true).map (select · exec.projection) := by
  obtain ⟨-, htyped, -, schema, hschema, hexec⟩ := tryNew_eq_ok_iff.mp hbuilt
  have hdeclared : exec.schema = schema := by rw [hexec]
  have hbatches : ∀ batch ∈ calls.map Prod.snd, ∃ out,
      Kernels.filterProject batch exec.predicate exec.projection = .ok out ∧
        out.schema = exec.schema ∧ out.rows = (batch.rows.filter fun row =>
          exec.predicate.truth row = some true).map (select · exec.projection) := by
    intro batch hbatch
    obtain ⟨call, hcall, rfl⟩ := mem_map.mp hbatch
    rw [← hcalls call hcall] at htyped hschema
    rw [hdeclared]
    exact Kernels.filterProject_spec htyped hschema
  rw [exec.execute_cpu hcpu]
  exact mapM_rows (fun rows => (rows.filter fun row =>
    exec.predicate.truth row = some true).map (select · exec.projection)) rfl
    (fun a b => by rw [filter_append, map_append]) hbatches

/-- **A distance on the CPU.** -/
theorem GpuVectorDistanceExec.execute_cpu_spec (fpu : FloatUnit) {exec : GpuVectorDistanceExec}
    {input : Schema} (hbuilt : tryNew input exec.column exec.query exec.metric exec.outputName
      exec.target = .ok exec) (hcpu : CpuCalls calls)
    (hcalls : ∀ call ∈ calls, call.2.schema = input) :
    ∃ outs, exec.execute fpu calls = .ok outs ∧ (∀ out ∈ outs, out.schema = exec.schema) ∧
      streamRows outs = (streamRows (calls.map Prod.snd)).map
        (withDistance fpu exec.metric exec.query exec.column) := by
  obtain ⟨⟨field, hfield, hdim⟩, hexec⟩ := tryNew_eq_ok hbuilt
  rw [exec.execute_cpu fpu hcpu]
  refine mapM_rows (fun rows => rows.map _) rfl (fun a b => map_append) fun batch hbatch => ?_
  obtain ⟨call, hcall, rfl⟩ := mem_map.mp hbatch
  rw [← hcalls call hcall] at hfield hexec
  obtain ⟨column, hcolumn, htype, -⟩ := entry_of_field hfield
  have hfits := vectorFits_of_dimension (htype ▸ hdim)
  obtain ⟨out, hout, hrows⟩ := Kernels.vectorDistance_rows fpu exec.metric exec.outputName hcolumn
    hfits
  refine ⟨out, hout, ?_, hrows⟩
  rw [GpuBackend.vectorDistance_of_fits hcolumn hfits] at hout
  rw [(tryNew_ok hout).1, hexec]

/-! ## Joins -/

/-- The inner join of two lists of rows on one key column each, projected: the matches of
every probe row, in build order. -/
def innerJoin (leftKey rightKey : Nat) (selected : List Nat) (probe build : List Row) :
    List Row :=
  EquiJoin.joinRows (key · leftKey) (key · rightKey)
    (fun left right => select (left ++ right) selected) probe build

theorem map_joinedRow_nestedLoop {left right : RecordBatch} {leftKey rightKey : Nat}
    (selected : List Nat) (hleft : leftKey < left.numColumns)
    (hright : rightKey < right.numColumns) :
    (EquiJoin.nestedLoop (OperatorState.keyValues left leftKey)
        (OperatorState.keyValues right rightKey)).map (joinedRow left right selected) =
      innerJoin leftKey rightKey selected left.rows right.rows := by
  have hrow : ∀ (batch : RecordBatch) (n : Nat) (row : Row), batch.rows[n]? = some row →
      row = batch.row n := by
    intro batch n row hrow
    obtain ⟨hn, rfl⟩ := List.getElem?_eq_some_iff.mp hrow
    simp only [RecordBatch.rows, List.getElem_map, List.getElem_range]
  rw [keyValues_eq_map_rows hleft, keyValues_eq_map_rows hright]
  refine EquiJoin.map_nestedLoopFrom _ _ fun m n l r hl hr => ?_
  rw [Nat.zero_add, joinedRow_eq_select, hrow left m l hl, hrow right n r hr]

variable {order : MapOrder}

theorem JoinBuild.new_of_table {key : Nat} {table : JoinTable}
    (h : build order batch key = .ok table) :
    ∃ build, JoinBuild.new order batch key = .ok build := by
  unfold JoinBuild.new
  split
  · exact ⟨_, rfl⟩
  · next herror =>
    rw [h] at herror
    cases herror

theorem JoinBuild.new_of_error {key : Nat} {e : EngineError}
    (h : build order batch key = .error e) :
    JoinBuild.new order batch key = .error e := by
  unfold JoinBuild.new
  split
  · next htable =>
    rw [h] at htable
    cases htable
  · next herror =>
    rw [h] at herror
    cases herror
    rfl

/-- Two inputs a hash join has room for: Arrow can collect the build side and the pairs of a
probe batch, and `u32` counts the build rows with a key and numbers them and the probe rows with
a match. -/
structure JoinLimits (probeKey buildKey : Row → Option Int64) (build : List Row)
    (probe : List RecordBatch) : Prop where
  collected : build.length < 2 ^ 63
  keys : ((build.map buildKey).filterMap id).length < 2 ^ 32
  buildIndex : ∀ n key, (build.map buildKey)[n]? = some (some key) → n < 2 ^ 32
  probeIndex : ∀ batch ∈ probe, ∀ n key, (batch.rows.map probeKey)[n]? = some (some key) →
    some key ∈ build.map buildKey → n < 2 ^ 32
  pairs : ∀ batch ∈ probe,
    (EquiJoin.joinRows probeKey buildKey Prod.mk batch.rows build).length < 2 ^ 63

namespace GpuHashJoinExec

/-- The node is what its constructor and `with_projection` return. -/
def Built (exec : GpuHashJoinExec) (left right : Schema) : Prop :=
  ∃ fresh, tryNew left right exec.leftKey exec.rightKey exec.target = .ok fresh ∧
    fresh.withProjection left right exec.projection = .ok exec

variable {exec : GpuHashJoinExec} {left right : Schema}

theorem Built.fits (h : exec.Built left right) : exec.Fits left right ∧
    (joinedSchema left right).project (exec.selected left right) = some exec.schema := by
  obtain ⟨fresh, hfresh, hwith⟩ := h
  obtain ⟨hleft, hright, rfl⟩ := tryNew_eq_ok_iff.mp hfresh
  have hwidth : (joinedSchema left right).width = left.width + right.width := length_append
  have hproject : (joinedSchema left right).project (exec.selected left right) =
      some exec.schema ∧ exec.selected left right ≠ [] := by
    cases hprojection : exec.projection with
    | none =>
      rw [hprojection] at hwith
      have hdeclared : joinedSchema left right = exec.schema :=
        congrArg GpuHashJoinExec.schema (Except.ok.inj hwith)
      refine ⟨?_, ?_⟩
      · rw [selected, hprojection, Option.getD_none, ← hwidth, Schema.project_range, hdeclared]
      · obtain ⟨field, hfield, -⟩ := hleft
        have hlt : 0 < left.width :=
          Nat.lt_of_le_of_lt (Nat.zero_le _) (List.getElem?_eq_some_iff.mp hfield).1
        rw [selected, hprojection, Option.getD_none, Ne, List.range_eq_nil]
        omega
    | some indices =>
      rw [hprojection] at hwith
      obtain ⟨hne, schema, hschema, hexec⟩ := withProjection_eq_ok_iff.mp hwith
      rw [selected, hprojection]
      exact ⟨by rw [hexec]; exact hschema, hne⟩
  refine ⟨⟨hleft, hright, hproject.2, fun c hc => ?_⟩, hproject.1⟩
  rw [← hwidth]
  exact Schema.project_isSome_iff.mp ⟨_, hproject.1⟩ c hc

/-- The rows of the join of a probe input with a build side. -/
def joined (exec : GpuHashJoinExec) (left right : Schema) (probe build : List Row) : List Row :=
  innerJoin exec.leftKey exec.rightKey (exec.selected left right) probe build

/-- The keys of a build side. -/
def buildKeys (exec : GpuHashJoinExec) (build : List Row) : Int64Array :=
  build.map (key · exec.rightKey)

/-- A probe row with a match whose index does not fit `u32`. -/
def Exceeds (exec : GpuHashJoinExec) (probe build : List Row) : Prop :=
  ∃ n key, (probe.map (Row.key · exec.leftKey))[n]? = some (some key) ∧
    some key ∈ exec.buildKeys build ∧ 2 ^ 32 ≤ n

theorem Exceeds.lt_numRows {build : List Row} (h : exec.Exceeds batch.rows build) :
    2 ^ 32 < batch.numRows := by
  obtain ⟨n, key, hkey, -, hn⟩ := h
  have hlt := (List.getElem?_eq_some_iff.mp hkey).1
  rw [List.length_map, length_rows] at hlt
  omega

/-- A probe joins or overflows. -/
theorem Built.probe (h : exec.Built left right) {build : JoinBuild order}
    (hkey : build.key = exec.rightKey) (hbuild : build.batch.schema.fields = right.fields)
    (hleft : batch.schema.fields = left.fields)
    (hfew : (exec.joined left right batch.rows build.batch.rows).length < 2 ^ 63) :
    (∃ out, Kernels.hashJoinProbe batch exec.leftKey build.batch build.table exec.projection =
        .ok out ∧ out.schema = exec.schema ∧
      out.rows = exec.joined left right batch.rows build.batch.rows) ∨
      exec.Exceeds batch.rows build.batch.rows ∧
        Kernels.hashJoinProbe batch exec.leftKey build.batch build.table exec.projection =
          .error Kernels.rowsExceed := by
  obtain ⟨hfits, hschema⟩ := h.fits
  have hselected : Kernels.selectedColumns batch build.batch exec.projection =
      exec.selected left right := by
    rw [selected, ← numColumns_eq_width hleft, ← numColumns_eq_width hbuild]
    cases exec.projection <;> rfl
  have hleftKey := int64Column_of_hasInt64 hleft hfits.leftKey "left join key"
  have hrightKey := int64Column_of_hasInt64 hbuild (hkey ▸ hfits.rightKey) "build join key"
  have hjoined := map_joinedRow_nestedLoop (exec.selected left right)
    (OperatorState.int64Column_ok hleftKey).2.2 (OperatorState.int64Column_ok hrightKey).2.2
  have hpairs := congrArg length hjoined
  rw [length_map, hkey] at hpairs
  refine (Kernels.hashJoinProbe_cases hleftKey hrightKey (hselected ▸ hfits.selects) (by
      rw [hselected, numColumns_eq_width hleft, numColumns_eq_width hbuild]
      exact hfits.inside) (by rw [hkey, hpairs]; exact hfew)).imp ?_ ?_
  rotate_left
  · rw [keyValues_eq_map_rows (OperatorState.int64Column_ok hleftKey).2.2,
      keyValues_eq_map_rows (OperatorState.int64Column_ok hrightKey).2.2, hkey]
    exact id
  rintro ⟨out, hout, hmetadata⟩
  obtain ⟨leftKeys, rightKeys, call, hjoins⟩ := hashJoinProbe_joinsAlong hout
  cases hleftKey.symm.trans call.probeKeys
  cases hrightKey.symm.trans call.buildKeys
  rw [hselected] at hjoins
  refine ⟨out, hout, ?_, ?_⟩
  · have hfields := hjoins.fields
    rw [hleft, hbuild] at hfields
    rw [joinedSchema, Schema.project, hfields, Option.map_some] at hschema
    rw [← Option.some.inj hschema, ← hmetadata]
  · rw [joined, hjoins.rows, hjoined, hkey]

/-- **The probe side on the CPU path**, against a build side that could be hashed. -/
theorem Built.probes (h : exec.Built left right) {build : JoinBuild order}
    (hkey : build.key = exec.rightKey) (hbuild : build.batch.schema.fields = right.fields)
    (hbatches : ∀ batch ∈ batches, batch.schema = left) (hfew : ∀ batch ∈ batches,
      (exec.joined left right batch.rows build.batch.rows).length < 2 ^ 63) :
    (∃ outs, batches.mapM
        (Kernels.hashJoinProbe · exec.leftKey build.batch build.table exec.projection) = .ok outs ∧
      (∀ out ∈ outs, out.schema = exec.schema) ∧
      streamRows outs = exec.joined left right (streamRows batches) build.batch.rows) ∨
      (∃ batch ∈ batches, exec.Exceeds batch.rows build.batch.rows) ∧ batches.mapM
        (Kernels.hashJoinProbe · exec.leftKey build.batch build.table exec.projection) =
          .error Kernels.rowsExceed := by
  have hprobe := fun batch hbatch =>
    h.probe hkey hbuild (congrArg Schema.fields (hbatches batch hbatch)) (hfew batch hbatch)
  have hstream : ∀ outs, List.Forall₂ (fun batch out => out.schema = exec.schema ∧
      out.rows = exec.joined left right batch.rows build.batch.rows) batches outs →
      (∀ out ∈ outs, out.schema = exec.schema) ∧
        streamRows outs = exec.joined left right (streamRows batches) build.batch.rows :=
    fun _ => streamRows_of_spec (fun rows => exec.joined left right rows build.batch.rows) rfl
      fun a b => EquiJoin.joinRows_append _ _ _ a b _
  by_cases hlong : ∃ batch ∈ batches, exec.Exceeds batch.rows build.batch.rows
  · refine (mapM_forall₂_or_error fun batch hbatch =>
      (hprobe batch hbatch).imp_right And.right).imp ?_ fun herror => ⟨hlong, herror⟩
    exact fun ⟨outs, houts, hspec⟩ => ⟨outs, houts, hstream outs hspec⟩
  · obtain ⟨outs, houts, hspec⟩ := mapM_ok_forall₂ fun batch hbatch =>
      (hprobe batch hbatch).resolve_right fun herror => hlong ⟨batch, hbatch, herror.1⟩
    exact .inl ⟨outs, houts, hstream outs hspec⟩

/-- The build side of a join, concatenated: what is left to decide is the join table. -/
theorem Built.collected (h : exec.Built left right) {buildSide : List RecordBatch}
    (hside : ∀ batch ∈ buildSide, batch.schema.fields = right.fields)
    (hrows : (streamRows buildSide).length < 2 ^ 63) :
    ∃ all, concatBatches right buildSide = .ok all ∧ all.schema = right ∧
      all.rows = streamRows buildSide ∧ ∀ order, build order all exec.rightKey =
        ofKeys order (exec.buildKeys (streamRows buildSide)) := by
  obtain ⟨all, hall⟩ := concatBatches_eq_ok (concatenable_of_rows hside hrows)
  obtain ⟨-, hschema, hallRows⟩ := concatBatches_ok hall
  have hkeys := int64Column_of_hasInt64 (congrArg Schema.fields hschema) h.fits.1.rightKey
    "build join key"
  refine ⟨all, hall, hschema, hallRows, fun order => ?_⟩
  rw [build, hkeys, ok_bind,
    keyValues_eq_map_rows (OperatorState.int64Column_ok hkeys).2.2, hallRows]
  rfl

section Execute

variable {buildSide : List RecordBatch} {calls : Calls D}

theorem execute_cpu_of_table (h : exec.Built left right)
    (hside : ∀ batch ∈ buildSide, batch.schema = right)
    (hbuildRows : (streamRows buildSide).length < 2 ^ 63) {table : JoinTable}
    (htable : ofKeys order (exec.buildKeys (streamRows buildSide)) = .ok table)
    (hcpu : CpuCalls calls) (hcalls : ∀ call ∈ calls, call.2.schema = left)
    (hfew : ∀ call ∈ calls,
      (exec.joined left right call.2.rows (streamRows buildSide)).length < 2 ^ 63) :
    (∃ outs, exec.execute order right buildSide calls = .ok outs ∧
      (∀ out ∈ outs, out.schema = exec.schema) ∧
      streamRows outs =
        exec.joined left right (streamRows (calls.map Prod.snd)) (streamRows buildSide)) ∨
      (∃ call ∈ calls, exec.Exceeds call.2.rows (streamRows buildSide)) ∧
        exec.execute order right buildSide calls = .error Kernels.rowsExceed := by
  obtain ⟨all, hall, hschema, hrows, hkeys⟩ := h.collected
    (fun batch hbatch => congrArg Schema.fields (hside batch hbatch)) hbuildRows
  obtain ⟨build, hbuild⟩ := JoinBuild.new_of_table ((hkeys order).trans htable)
  obtain ⟨rfl, hkey⟩ := JoinBuild.new_eq_ok hbuild
  have hprobes := h.probes hkey (congrArg Schema.fields hschema) (forall_mem_map.mpr hcalls)
    (forall_mem_map.mpr fun call hcall => by rw [hrows]; exact hfew call hcall)
  rw [hrows] at hprobes
  rw [exec.execute_cpu order right buildSide hcpu, hall, ok_bind, hbuild, ok_bind]
  refine hprobes.imp_right fun ⟨⟨batch, hbatch, hlong⟩, herror⟩ => ⟨?_, herror⟩
  obtain ⟨call, hcall, rfl⟩ := mem_map.mp hbatch
  exact ⟨call, hcall, hlong⟩

theorem execute_cpu_of_error (h : exec.Built left right)
    (hside : ∀ batch ∈ buildSide, batch.schema = right)
    (hbuildRows : (streamRows buildSide).length < 2 ^ 63) {e : EngineError}
    (herror : ofKeys order (exec.buildKeys (streamRows buildSide)) = .error e)
    (hcpu : CpuCalls calls) : exec.execute order right buildSide calls = .error e := by
  obtain ⟨all, hall, -, -, hkeys⟩ := h.collected
    (fun batch hbatch => congrArg Schema.fields (hside batch hbatch)) hbuildRows
  rw [exec.execute_cpu order right buildSide hcpu, hall, ok_bind,
    JoinBuild.new_of_error ((hkeys order).trans herror)]
  rfl

/-- Where a join on the CPU returns, its limits hold. -/
theorem joinLimits_of_execute (h : exec.Built left right) (hcpu : CpuCalls calls)
    (hcalls : ∀ call ∈ calls, call.2.schema = left) {outs : List RecordBatch}
    (houts : exec.execute order right buildSide calls = .ok outs) :
    JoinLimits (key · exec.leftKey) (key · exec.rightKey) (streamRows buildSide)
      (calls.map Prod.snd) := by
  rw [exec.execute_cpu order right buildSide hcpu] at houts
  obtain ⟨all, hall, hjoin⟩ := bind_eq_ok_iff.mp houts
  obtain ⟨build, hbuild, hprobes⟩ := bind_eq_ok_iff.mp hjoin
  obtain ⟨-, hallSchema, hallRows⟩ := concatBatches_ok hall
  obtain ⟨rfl, hbuildKey⟩ := JoinBuild.new_eq_ok hbuild
  -- the keys of the build side, read off its rows
  obtain ⟨rightKeys, hright, htable⟩ := bind_eq_ok_iff.mp build.built
  obtain ⟨hkeys, -, hlt⟩ := OperatorState.int64Column_ok hright
  rw [keyValues_eq_map_rows hlt, hallRows, hbuildKey] at hkeys
  subst hkeys
  obtain ⟨hfew, hindex⟩ := (ofKeys_ok_iff order _).mp ⟨build.table, htable⟩
  have hprobe : ∀ batch ∈ calls.map Prod.snd, ∃ out,
      Kernels.hashJoinProbe batch exec.leftKey build.batch build.table exec.projection = .ok out ∧
      Kernels.int64Column batch exec.leftKey "left join key" =
        .ok (batch.rows.map (key · exec.leftKey)) := by
    intro batch hbatch
    obtain ⟨out, hout⟩ := mapM_ok_of_mem hprobes hbatch
    obtain ⟨call, hcall, rfl⟩ := mem_map.mp hbatch
    have hleft := int64Column_of_hasInt64 (congrArg Schema.fields (hcalls call hcall))
      h.fits.1.leftKey "left join key"
    rw [keyValues_eq_map_rows (OperatorState.int64Column_ok hleft).2.2] at hleft
    exact ⟨out, hout, hleft⟩
  refine ⟨?_, hfew, hindex, fun batch hbatch n key hkey hmatch => ?_, fun batch hbatch => ?_⟩
  · rw [streamRows, ← hallRows, length_rows]
    exact build.batch.numRows_lt
  · obtain ⟨out, hout, hleft⟩ := hprobe batch hbatch
    by_contra hlong
    have hmatches : build.table.matching key ≠ [] := by
      obtain ⟨row, hrow⟩ := mem_iff_getElem?.mp hmatch
      rw [ofKeys_matching htable]
      exact ne_nil_of_mem (EquiJoin.mem_rowsWithKey.mpr hrow)
    rw [Kernels.hashJoinProbe, hleft, ok_bind, Kernels.probePairs_exceeds hkey hmatches
      (show 2 ^ 32 ≤ 0 + n by omega)] at hout
    cases hout
  · obtain ⟨out, hout, hleft⟩ := hprobe batch hbatch
    obtain ⟨leftKeys, rightKeys, call, hjoins⟩ := hashJoinProbe_joinsAlong hout
    obtain ⟨rfl, -, hleftLt⟩ := OperatorState.int64Column_ok call.probeKeys
    obtain ⟨rfl, -, hrightLt⟩ := OperatorState.int64Column_ok call.buildKeys
    -- the output has a row for every pair, and is an Arrow batch
    have hpairs := congrArg length (hjoins.rows.trans
      (map_joinedRow_nestedLoop _ hleftLt hrightLt))
    rw [length_rows, innerJoin, EquiJoin.joinRows_eq_map, length_map, hbuildKey,
      hallRows] at hpairs
    rw [streamRows, ← hpairs]
    exact out.numRows_lt

/-- **A join on the CPU path succeeds exactly within the limits**, and then returns the joined
rows. -/
theorem execute_cpu_iff (h : exec.Built left right)
    (hside : ∀ batch ∈ buildSide, batch.schema = right) (hcpu : CpuCalls calls)
    (hcalls : ∀ call ∈ calls, call.2.schema = left) (order : MapOrder) :
    (∃ outs, exec.execute order right buildSide calls = .ok outs ∧
      (∀ out ∈ outs, out.schema = exec.schema) ∧
      streamRows outs =
        exec.joined left right (streamRows (calls.map Prod.snd)) (streamRows buildSide)) ↔
      JoinLimits (key · exec.leftKey) (key · exec.rightKey) (streamRows buildSide)
        (calls.map Prod.snd) := by
  constructor
  · rintro ⟨outs, houts, -, -⟩
    exact joinLimits_of_execute h hcpu hcalls houts
  · intro hlimits
    obtain ⟨table, htable⟩ := (ofKeys_ok_iff order
      (exec.buildKeys (streamRows buildSide))).mpr ⟨hlimits.keys, hlimits.buildIndex⟩
    refine (execute_cpu_of_table h hside hlimits.collected htable hcpu hcalls
      fun call hcall => ?_).resolve_right ?_
    · rw [joined, innerJoin, EquiJoin.joinRows_eq_map, length_map]
      exact hlimits.pairs call.2 (mem_map_of_mem hcall)
    · rintro ⟨⟨call, hcall, n, key, hkey, hmatch, hn⟩, -⟩
      have hlt := hlimits.probeIndex call.2 (mem_map_of_mem hcall) n key hkey hmatch
      omega

end Execute

end GpuHashJoinExec

/-! ## Aggregations -/

theorem none_notMem_keyValues {key : Nat} {field : Field}
    (hfield : batch.schema.fields[key]? = some field) (htype : field.dataType = .int64)
    (hnonnull : field.nullable = false) : none ∉ OperatorState.keyValues batch key := by
  rw [fields_getElem?, Option.map_eq_some_iff] at hfield
  obtain ⟨⟨field', column⟩, hentry, rfl⟩ := hfield
  obtain ⟨hcolumnType, -, hnull⟩ := batch.fits _ (mem_of_getElem? hentry)
  have hcolumn : batch.columns[key]? = some column := by
    rw [columns_getElem?, hentry, Option.map_some]
  rw [OperatorState.keyValues, hcolumn]
  intro hnone
  obtain ⟨cell, hcell, hvalue⟩ := mem_map.mp hnone
  cases cell with
  | none => exact hnull hnonnull hcell
  | some value =>
    have hvalueType := column.typed _ hcell value rfl
    rw [hcolumnType, htype] at hvalueType
    cases value with
    | int64 v => cases hvalue
    | _ => cases hvalueType

/-- The type of an aggregate's input. -/
def Input.dataType : Input → DataType
  | .i _ => .int64
  | .f _ => .float64

namespace Kernels

theorem aggregateInput_eq_ok {index : Nat} {field : Field}
    (hfield : batch.schema.fields[index]? = some field)
    (htype : field.dataType = .int64 ∨ field.dataType = .float64) :
    ∃ input, aggregateInput batch index = .ok input ∧ input.dataType = field.dataType := by
  obtain ⟨col, hcol, hcolType, -⟩ := entry_of_field hfield
  rw [aggregateInput, column, hcol, ok_bind, hcolType]
  rcases htype with htype | htype
  · rw [htype]
    exact ⟨_, rfl, rfl⟩
  · rw [htype]
    exact ⟨_, rfl, rfl⟩

/-- The error of a `SUM` outside `Int64`. -/
def sumOverflow : EngineError := .execution "SUM overflowed Int64"

theorem sumI64_cases (acc : Option Acc) :
    (∃ sum, sumI64 acc = .ok sum ∧ True) ∨ sumI64 acc = .error sumOverflow := by
  unfold sumI64
  split
  · split
    · split
      · exact .inl ⟨_, rfl, trivial⟩
      · exact .inr rfl
    · exact .inl ⟨_, rfl, trivial⟩
  · exact .inl ⟨_, rfl, trivial⟩

/-- The columns an aggregation may emit for one aggregate over `groups`. -/
structure AggregateFits (func : AggregateFunction) (input : Input) (groups : List Group)
    (column : Column) : Prop where
  dataType : column.dataType = func.outputType input.dataType
  len : column.len = groups.length
  count : func = .count → none ∉ column.cells

theorem AggregateFits.ofInt64 {func : AggregateFunction} {input : Input} {groups : List Group}
    {values : Int64Array} (htype : func.outputType input.dataType = .int64)
    (hlen : values.length = groups.length) (hcount : func = .count → none ∉ values) :
    AggregateFits func input groups (Column.ofInt64 values) := by
  refine ⟨htype.symm, by rw [Column.ofInt64_len, hlen], fun h hnone => hcount h ?_⟩
  obtain ⟨value, hvalue, hmap⟩ := mem_map.mp hnone
  rwa [Option.map_eq_none_iff.mp hmap] at hvalue

theorem AggregateFits.ofFloat64 {func : AggregateFunction} {input : Input} {groups : List Group}
    {values : Float64Array} (htype : func.outputType input.dataType = .float64)
    (hlen : values.length = groups.length) (hne : func ≠ .count) :
    AggregateFits func input groups (Column.ofFloat64 values) :=
  ⟨htype.symm, by rw [Column.len, Column.ofFloat64, length_map, hlen], fun h => absurd h hne⟩

/-- **One aggregate**: a column, or an overflow of `SUM`. -/
theorem aggregateColumn_fits (func : AggregateFunction) (input : Input) {groups : List Group}
    {a : Nat} (ha : ∀ group ∈ groups, a < group.2.length) :
    (∃ column, aggregateColumn func input groups a = .ok column ∧
      AggregateFits func input groups column) ∨
      aggregateColumn func input groups a = .error sumOverflow := by
  cases func with
  | count =>
    refine .inl ⟨_, by cases input <;> rfl, .ofInt64 (by cases input <;> rfl) (by simp) ?_⟩
    rintro - hnone
    obtain ⟨group, hgroup, hmap⟩ := mem_map.mp hnone
    have hshort := getElem?_eq_none_iff.mp (Option.map_eq_none_iff.mp hmap)
    exact absurd (ha group hgroup) (Nat.not_lt.mpr hshort)
  | sum =>
    cases input with
    | i values =>
      rcases mapM_forall₂_or_error fun (group : Group) (_ : group ∈ groups) =>
          sumI64_cases group.2[a]? with ⟨sums, hsums, hlen⟩ | herror
      · refine .inl ⟨Column.ofInt64 sums, ?_, .ofInt64 rfl ?_ nofun⟩
        · show (groups.mapM _ >>= _) = _
          rw [hsums]
          rfl
        · exact hlen.length_eq.symm
      · refine .inr ?_
        show (groups.mapM _ >>= _) = _
        rw [herror]
        rfl
    | f values => exact .inl ⟨_, rfl, .ofFloat64 rfl (by simp) nofun⟩
  | min | max =>
    cases input with
    | i values => exact .inl ⟨_, rfl, .ofInt64 rfl (by simp) nofun⟩
    | f values => exact .inl ⟨_, rfl, .ofFloat64 rfl (by simp) nofun⟩

/-- The groups of an aggregation: at most one a row, without a `NULL` key unless there is
one in the input, and an accumulator an input. -/
theorem sortGroups_fits (fpu : FloatUnit) (inputs : List Input) (keys : Int64Array) :
    let groups := sortGroups (groupRows fpu inputs keys)
    groups.length ≤ keys.length ∧ (none ∉ keys → none ∉ groups.map Prod.fst) ∧
      ∀ group ∈ groups, group.2.length = inputs.length := by
  obtain ⟨hnodup, hmem, -⟩ := sortGroups_groupRows_keys fpu inputs keys
  refine ⟨?_, fun hnone => (hmem none).not.mpr hnone, fun group hgroup => ?_⟩
  · have hsubset := hnodup.subperm fun key hkey => (hmem key).mp hkey
    simpa using hsubset.length_le
  · rw [groupLoop_accs fpu inputs keys keys.length group
      ((perm_insertionSort _ _).mem_iff.mp hgroup), length_map]

/-- An output column of the right type and length, without `NULL`s for a `COUNT`. -/
structure OutputFits (schema : Schema) (numRows : Nat) (entry : AggregateFunction × Nat)
    (column : Column) : Prop where
  dataType : ∃ source, schema.fields[entry.2]? = some source ∧
    column.dataType = entry.1.outputType source.dataType
  len : column.len = numRows
  count : entry.1 = .count → none ∉ column.cells

theorem aggregateInputs_eq_ok {spec : AggregateSpec} (htyped : spec.Typed batch.schema) :
    ∃ inputs, spec.aggregates.mapM (fun entry => aggregateInput batch entry.2) = .ok inputs ∧
      List.Forall₂ (fun entry input => ∃ source, batch.schema.fields[entry.2]? = some source ∧
        input.dataType = source.dataType) spec.aggregates inputs := by
  refine mapM_ok_forall₂ fun entry hentry => ?_
  obtain ⟨source, hsource, htype⟩ := htyped.2 entry hentry
  obtain ⟨input, hinput, hinputType⟩ := aggregateInput_eq_ok hsource htype
  exact ⟨input, hinput, source, hsource, hinputType⟩

/-- **The reference aggregation** on typed columns: the key column and one column an
aggregate, or an overflow of `SUM`. -/
theorem aggregate_fits (fpu : FloatUnit) {spec : AggregateSpec} (htyped : spec.Typed batch.schema) :
    (∃ out keyColumn columns, aggregate fpu batch spec = .ok out ∧
      out.columns = keyColumn :: columns ∧ keyColumn.dataType = .int64 ∧
      keyColumn.len = out.numRows ∧
      (∀ source, batch.schema.fields[spec.groupBy]? = some source → source.nullable = false →
        none ∉ keyColumn.cells) ∧
      List.Forall₂ (OutputFits batch.schema out.numRows) spec.aggregates columns) ∨
      aggregate fpu batch spec = .error sumOverflow := by
  have hkeys := int64Column_of_hasInt64 rfl htyped.1 "group key"
  obtain ⟨inputs, hinputs, htypes⟩ := aggregateInputs_eq_ok htyped
  obtain ⟨hgroups, hnull, haccs⟩ := sortGroups_fits fpu inputs
    (OperatorState.keyValues batch spec.groupBy)
  rw [(OperatorState.int64Column_ok hkeys).2.1] at hgroups
  generalize hsorted : sortGroups (groupRows fpu inputs
    (OperatorState.keyValues batch spec.groupBy)) = groups at hgroups hnull haccs
  -- one aggregate
  have hentry : ∀ item ∈ spec.aggregates.zip inputs.zipIdx,
      (∃ entry, aggregateEntry batch groups item = .ok entry ∧
        FieldFits groups.length entry.1 entry.2 ∧
        OutputFits batch.schema groups.length item.1 entry.2) ∨
        aggregateEntry batch groups item = .error sumOverflow := by
    rintro ⟨⟨func, index⟩, input, a⟩ hitem
    obtain ⟨k, hk⟩ := mem_iff_getElem?.mp hitem
    obtain ⟨hentry, hinput⟩ := getElem?_zip_eq_some.mp hk
    rw [getElem?_zipIdx, Nat.zero_add, Option.map_eq_some_iff] at hinput
    obtain ⟨input, hinput, hpair⟩ := hinput
    cases hpair
    obtain ⟨hlt, hget⟩ := List.getElem?_eq_some_iff.mp hentry
    obtain ⟨hlt', hget'⟩ := List.getElem?_eq_some_iff.mp hinput
    obtain ⟨source, hsource, htype⟩ := htypes.get hlt hlt'
    rw [List.get_eq_getElem, hget] at hsource
    rw [List.get_eq_getElem, hget'] at htype
    rcases aggregateColumn_fits func input
        (fun group hgroup => (haccs group hgroup).symm ▸ hlt')
      with ⟨column, hcolumn, hfits⟩ | herror
    · refine .inl ⟨(⟨func.name ++ "(" ++ fieldName batch index ++ ")", column.dataType, true, []⟩,
        column), by simp only [aggregateEntry, hcolumn]; rfl, ⟨rfl, hfits.len, Bool.noConfusion⟩,
        ?_, hfits.len, hfits.count⟩
      exact ⟨source, hsource, by rw [← htype]; exact hfits.dataType⟩
    · exact .inr (by simp only [aggregateEntry, herror]; rfl)
  have hrun : aggregate fpu batch spec =
      (spec.aggregates.zip inputs.zipIdx).mapM (aggregateEntry batch groups) >>= fun entries =>
        RecordBatch.tryNew
          ⟨⟨fieldName batch spec.groupBy, .int64, true, []⟩ :: entries.map Prod.fst, []⟩
          (Column.ofInt64 (groups.map Prod.fst) :: entries.map Prod.snd) := by
    rw [aggregate, hkeys, ok_bind, hinputs, ok_bind, hsorted]
  rcases mapM_forall₂_or_error hentry with ⟨entries, hentries, hfits⟩ | herror
  · have hkeyFits : FieldFits groups.length ⟨fieldName batch spec.groupBy, .int64, true, []⟩
        (Column.ofInt64 (groups.map Prod.fst)) :=
      ⟨rfl, by rw [Column.ofInt64_len, List.length_map], Bool.noConfusion⟩
    have hall : ∀ entry ∈ (⟨fieldName batch spec.groupBy, .int64, true, []⟩,
        Column.ofInt64 (groups.map Prod.fst)) :: entries, FieldFits groups.length entry.1
          entry.2 := by
      intro entry hmem
      rcases mem_cons.mp hmem with rfl | hmem
      · exact hkeyFits
      · obtain ⟨item, -, hitem⟩ := forall₂_exists_left hfits hmem
        exact hitem.1
    have hsmall : groups.length < 2 ^ 63 := lt_of_le_of_lt hgroups batch.numRows_lt
    refine .inl ⟨⟨[], _, groups.length, hall, hsmall⟩, _, entries.map Prod.snd, ?_, rfl, rfl,
      hkeyFits.2.1, ?_, ?_⟩
    · rw [hrun, hentries, ok_bind]
      exact tryNew_eq_ok [] (cons_ne_nil _ _) hall hsmall
    · intro source hsource hnonnull hnone
      obtain ⟨key, hkey, hmap⟩ := mem_map.mp hnone
      rw [Option.map_eq_none_iff.mp hmap] at hkey
      obtain ⟨field, hfield, htype⟩ := htyped.1
      rw [hsource] at hfield
      cases hfield
      exact hnull (none_notMem_keyValues hsource htype hnonnull) hkey
    · have hlength : spec.aggregates.length ≤ inputs.zipIdx.length := by
        rw [length_zipIdx, htypes.length_eq]
      rw [← map_fst_zip hlength, List.forall₂_map_left_iff, List.forall₂_map_right_iff]
      exact hfits.imp fun _ _ => And.right
  · exact .inr (by rw [hrun, herror]; rfl)

end Kernels

namespace GpuAggregateExec

/-- The node is what its constructor and `with_output_schema` return. -/
def Built (exec : GpuAggregateExec) (input : Schema) : Prop :=
  ∃ fresh, tryNew input exec.spec exec.target = .ok fresh ∧
    fresh.withOutputSchema exec.schema = .ok exec

/-- The nullability DataFusion plans: the key is nullable when the input's is, `SUM`, `MIN`
and `MAX` always. -/
structure NullabilityPlanned (exec : GpuAggregateExec) (input : Schema) : Prop where
  key : ∀ source planned, input.fields[exec.spec.groupBy]? = some source →
    exec.schema.fields[0]? = some planned → source.nullable = true → planned.nullable = true
  aggregates : ∀ i entry planned, exec.spec.aggregates[i]? = some entry →
    exec.schema.fields[i + 1]? = some planned → entry.1 ≠ .count → planned.nullable = true

variable {exec : GpuAggregateExec} {input : Schema}

theorem Built.typed (h : exec.Built input) : exec.spec.Typed input ∧
    ∃ key fields, exec.schema.fields = key :: fields ∧ key.dataType = .int64 ∧
      List.Forall₂ (fun entry field => ∃ source, input.fields[entry.2]? = some source ∧
        field.dataType = entry.1.outputType source.dataType) exec.spec.aggregates fields := by
  obtain ⟨fresh, hnew, hwith⟩ := h
  obtain ⟨htypes, -⟩ := withOutputSchema_eq_ok_iff.mp hwith
  obtain ⟨htyped, outputs, hfresh, houtputs⟩ := tryNew_eq_ok hnew
  rw [hfresh, map_cons] at htypes
  obtain ⟨key, fields, hfields, hkey, htypes⟩ := map_eq_cons_iff.mp htypes
  refine ⟨htyped, key, fields, hfields, hkey, ?_⟩
  have houtputs : List.Forall₂ (fun entry dt => ∃ source, input.fields[entry.2]? = some source ∧
      dt = entry.1.outputType source.dataType) exec.spec.aggregates
        (outputs.map Field.dataType) := by
    rw [forall₂_map_right_iff]
    refine houtputs.imp fun entry field hfield => ?_
    obtain ⟨source, hsource, -, htype⟩ := aggregateField_eq_ok hfield
    exact ⟨source, hsource, htype⟩
  rwa [← htypes, forall₂_map_right_iff] at houtputs

/-- **An aggregation on the CPU path** fails on an overflow of `SUM` only. -/
theorem execute_cpu_spec (fpu : FloatUnit) (h : exec.Built input)
    (hnull : exec.NullabilityPlanned input) (hcpu : backend.kind.isGpu = false)
    (hbatches : ∀ batch ∈ batches, batch.schema = input)
    (hrows : (streamRows batches).length < 2 ^ 63) :
    (∃ out, exec.execute fpu input backend batches = .ok out ∧ out.schema = exec.schema) ∨
      exec.execute fpu input backend batches = .error Kernels.sumOverflow := by
  obtain ⟨htyped, key, fields, hfields, hkeyType, htypes⟩ := h.typed
  obtain ⟨all, hall⟩ := concatBatches_eq_ok (concatenable_of_rows
    (fun batch hbatch => congrArg Schema.fields (hbatches batch hbatch)) hrows)
  obtain ⟨-, rfl, -⟩ := concatBatches_ok hall
  rw [exec.execute_cpu fpu _ hcpu, hall, ok_bind]
  rcases Kernels.aggregate_fits fpu htyped with
    ⟨out, keyColumn, columns, hout, hcolumns, hkeyColumn, hkeyLen, hkeyNull, houtputs⟩ | herror
  · -- every column fits the field planned for it
    have hkeyFits : FieldFits out.numRows key keyColumn := by
      refine ⟨hkeyColumn.trans hkeyType.symm, hkeyLen, fun hplanned => ?_⟩
      obtain ⟨source, hsource, -⟩ := htyped.1
      refine hkeyNull source hsource (Bool.eq_false_iff.mpr fun hnullable => ?_)
      have := hnull.key source key hsource (by rw [hfields]; rfl) hnullable
      rw [hplanned] at this
      cases this
    have hrest : List.Forall₂ (FieldFits out.numRows) fields columns := by
      rw [forall₂_iff_get]
      refine ⟨htypes.length_eq.symm.trans houtputs.length_eq, fun i hi hi' => ?_⟩
      have hentry : i < exec.spec.aggregates.length := htypes.length_eq ▸ hi
      obtain ⟨source, hsource, htype⟩ := htypes.get hentry hi
      obtain ⟨⟨source', hsource', htype'⟩, hlen, hcount⟩ := houtputs.get hentry hi'
      rw [hsource] at hsource'
      cases hsource'
      refine ⟨htype'.trans htype.symm, hlen, fun hplanned => hcount ?_⟩
      by_contra hne
      have := hnull.aggregates i _ fields[i] (getElem?_eq_getElem hentry)
        (by rw [hfields, getElem?_cons_succ, getElem?_eq_getElem hi]) hne
      rw [get_eq_getElem, this] at hplanned
      cases hplanned
    rw [hout, ok_bind, hcolumns]
    obtain ⟨batch, hbatch⟩ := RecordBatch.tryNew_of_forall₂ (cons_ne_nil _ _)
      (show List.Forall₂ (FieldFits out.numRows) exec.schema.fields (keyColumn :: columns) by
        rw [hfields]
        exact .cons hkeyFits hrest) out.numRows_lt
    exact .inl ⟨batch, hbatch, (tryNew_ok hbatch).1⟩
  · exact .inr (by rw [herror]; rfl)

end GpuAggregateExec

/-! ## Long batches -/

/-- One `Int64` column. -/
def keySchema : Schema := ⟨[⟨"k", .int64, true, []⟩], []⟩

/-- A batch of `n` equal keys. -/
def equalKeys (n : Nat) (hn : n < 2 ^ 63) : RecordBatch where
  metadata := []
  entries := [(⟨"k", .int64, true, []⟩, Column.ofInt64 (replicate n (some 0)))]
  numRows := n
  fits := by
    intro entry hentry
    cases mem_singleton.mp hentry
    exact ⟨rfl, by rw [Column.ofInt64_len, length_replicate], nofun⟩
  numRows_lt := hn

theorem equalKeys_rows (n : Nat) (hn : n < 2 ^ 63) :
    (equalKeys n hn).rows = List.replicate n [some (.int64 0)] := by
  apply rows_eq_of_cells
  · exact length_replicate
  · intro row hrow
    rw [(mem_replicate.mp hrow).2]
    rfl
  · intro index column hcolumn
    obtain ⟨hindex, rfl⟩ := List.getElem?_eq_some_iff.mp hcolumn
    obtain rfl : index = 0 := Nat.lt_one_iff.mp hindex
    show (List.replicate n (some (0 : Int64))).map _ = _
    rw [List.map_replicate, List.map_replicate]
    rfl

theorem streamRows_equalKeys (n : Nat) (hn : n < 2 ^ 63) :
    streamRows [equalKeys n hn] = replicate n [some (.int64 0)] := by
  rw [streamRows, flatMap_singleton, equalKeys_rows]

/-- `t JOIN u ON t.k = u.k`. -/
def keyJoin : GpuHashJoinExec := ⟨0, 0, none, joinedSchema keySchema keySchema, .cuda⟩

theorem keyJoin_built : keyJoin.Built keySchema keySchema := ⟨keyJoin, rfl, rfl⟩

theorem joined_equalKeys (n m : Nat) :
    keyJoin.joined keySchema keySchema (replicate n [some (.int64 0)])
        (replicate m [some (.int64 0)]) =
      replicate (n * m) [some (.int64 0), some (.int64 0)] := by
  rw [GpuHashJoinExec.joined, innerJoin, EquiJoin.joinRows, flatMap_def, map_replicate,
    filter_replicate_of_pos (by decide), map_replicate, flatten_replicate_replicate]
  rfl

theorem joined_equalKeys_length {n m : Nat} (h : n * m < 2 ^ 63) :
    (keyJoin.joined keySchema keySchema (replicate n [some (.int64 0)])
      (replicate m [some (.int64 0)])).length < 2 ^ 63 := by
  rwa [joined_equalKeys, length_replicate]

theorem buildKeys_equalKeys {n : Nat} (hn : n < 2 ^ 63) :
    keyJoin.buildKeys (streamRows [equalKeys n hn]) = replicate n (some 0) := by
  rw [GpuHashJoinExec.buildKeys, streamRows_equalKeys, map_replicate]
  rfl

/-- A machine without a device. -/
def cpuBackend : GpuBackend RecordBatch where
  kind := .cpuSimd
  upload := .ok
  download := .ok
  synchronize := .ok ()
  filterProject := Kernels.filterProject
  hashJoin := Kernels.hashJoin .insertion
  aggregate := Kernels.aggregate noFloats
  vectorDistance := Kernels.vectorDistance noFloats
  supportsPredicate := fun _ => true
  supportsHashJoin := true
  supportsAggregate := true

end OxideLake
