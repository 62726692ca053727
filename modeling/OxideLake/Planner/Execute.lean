import OxideLake.Compute.JoinRun
import OxideLake.Device.Grouping
import OxideLake.Planner.WellFormed

/-!
# Executing the `Gpu*Exec` nodes

`execute` of each node on one partition: the batches of the input stream go through
one operator, in order.  Every batch comes with the backend as it answers in that
call; the operator's state is threaded.  The join collects its build side from
every partition of its right input, the aggregation collects its whole input.

The rows a node emits are stated here, on backends that conform: a filter keeps
and projects, a distance appends, a join pairs probe rows with build rows in probe
order, an aggregation emits one row a group.
-/

namespace OxideLake

open List Partial RecordBatch OperatorState Kernels Row

variable {D : Type}

variable {schema input : Schema} {batch out : RecordBatch}
  {calls : Calls D} {batches outs : List RecordBatch} {fpu : FloatUnit}
  {row : Row} {leftKey rightKey : Nat}

/-! ## Streams -/

/-- One step of an operator on one batch. -/
abbrev OperatorStep (D : Type) :=
  OperatorState D → GpuBackend D → RecordBatch → Result RecordBatch × OperatorState D

/-- The batches of a partition through one operator; the first error ends the
stream. -/
def streamRun (step : OperatorStep D) :
    OperatorState D → Calls D → Result (List RecordBatch)
  | _, [] => .ok []
  | state, (backend, batch) :: rest =>
    match step state backend batch with
    | (.error e, _) => .error e
    | (.ok out, state) => do
        let outs ← streamRun step state rest
        .ok (out :: outs)

variable {step : OperatorStep D} {state : OperatorState D}

/-- **Run lemma.**  What one call gives and what it keeps, over a whole stream. -/
theorem streamRun_forall₂ (Keeps : OperatorState D → Prop)
    {Gives : RecordBatch → RecordBatch → Prop}
    (hstep : ∀ call ∈ calls, ∀ state, Keeps state → Keeps (step state call.1 call.2).2 ∧
      ∀ out, (step state call.1 call.2).1 = .ok out → Gives call.2 out)
    (hstate : Keeps state) (h : streamRun step state calls = .ok outs) :
    List.Forall₂ Gives (calls.map Prod.snd) outs := by
  induction calls generalizing state outs with
  | nil =>
    cases h
    exact .nil
  | cons call calls ih =>
    obtain ⟨backend, batch⟩ := call
    obtain ⟨hkeeps, hgives⟩ := hstep _ mem_cons_self state hstate
    rw [streamRun] at h
    split at h
    · cases h
    · next out state' hcall =>
      obtain ⟨rest, hrest, h⟩ := bind_eq_ok_iff.mp h
      cases h
      rw [hcall] at hkeeps hgives
      exact .cons (hgives out rfl)
        (ih (fun c hc => hstep c (mem_cons_of_mem _ hc)) hkeeps hrest)

theorem streamRun_succeeds (Keeps : OperatorState D → Prop)
    (hstep : ∀ call ∈ calls, ∀ state, Keeps state → Keeps (step state call.1 call.2).2 ∧
      ∃ out, (step state call.1 call.2).1 = .ok out)
    (hstate : Keeps state) :
    ∃ outs, streamRun step state calls = .ok outs := by
  induction calls generalizing state with
  | nil => exact ⟨[], rfl⟩
  | cons call calls ih =>
    obtain ⟨hkeeps, out, hout⟩ := hstep _ mem_cons_self state hstate
    obtain ⟨outs, houts⟩ := ih (fun c hc => hstep c (mem_cons_of_mem _ hc)) hkeeps
    rw [streamRun, show step state call.1 call.2 = (.ok out, (step state call.1 call.2).2) from
      Prod.ext hout rfl]
    exact ⟨out :: outs, bind_eq_ok_iff.mpr ⟨outs, houts, rfl⟩⟩

/-- The rows of a stream of batches. -/
def streamRows (batches : List RecordBatch) : List Row := batches.flatMap RecordBatch.rows

theorem length_streamRows (batches : List RecordBatch) :
    (streamRows batches).length = (batches.map RecordBatch.numRows).sum := by
  simp only [streamRows, length_flatMap, length_rows]

theorem streamRows_flatten (partitions : List (List RecordBatch)) :
    streamRows partitions.flatten = (partitions.map streamRows).flatten := by
  rw [streamRows, flatMap_def, map_flatten, flatten_flatten, map_map]
  rfl

theorem concatenable_of_rows (hfields : ∀ batch ∈ batches, batch.schema.fields = schema.fields)
    (hrows : (streamRows batches).length < 2 ^ 63) : Concatenable schema batches :=
  ⟨hfields, length_streamRows batches ▸ hrows⟩

theorem RecordBatch.numColumns_eq_width (h : batch.schema.fields = schema.fields) :
    batch.numColumns = schema.width := by
  rw [← RecordBatch.length_schema_fields, h]
  rfl

theorem length_of_mem_streamRows (h : ∀ batch ∈ batches, batch.schema.fields = schema.fields)
    (hrow : row ∈ streamRows batches) : row.length = schema.width := by
  obtain ⟨batch, hbatch, hrow⟩ := mem_flatMap.mp hrow
  rw [RecordBatch.length_of_mem_rows hrow, numColumns_eq_width (h batch hbatch)]

theorem streamRows_hasTypes (h : ∀ batch ∈ batches, batch.schema.fields = schema.fields)
    (hrow : row ∈ streamRows batches) : row.HasTypes schema := by
  obtain ⟨batch, hbatch, hrow⟩ := mem_flatMap.mp hrow
  intro index field hfield
  rw [← h batch hbatch] at hfield
  exact RecordBatch.mem_rows_hasTypes hrow index field hfield

theorem streamRows_of_forall₂ {f : List Row → List Row} (hnil : f [] = [])
    (happend : ∀ a b, f (a ++ b) = f a ++ f b)
    (h : List.Forall₂ (fun batch out => out.rows = f batch.rows) batches outs) :
    streamRows outs = f (streamRows batches) := by
  induction h with
  | nil => exact hnil.symm
  | @cons batch out batches outs hrows _ ih =>
    show out.rows ++ streamRows outs = f (batch.rows ++ streamRows batches)
    rw [hrows, ih, happend]

/-- A stream whose every call succeeds from any state, with rows `f` of its
batch's rows, succeeds with rows `f` of the input's. -/
theorem streamRun_rows (f : List Row → List Row) (hnil : f [] = [])
    (happend : ∀ a b, f (a ++ b) = f a ++ f b)
    (hstep : ∀ call ∈ calls, ∀ state, ∃ out, (step state call.1 call.2).1 = .ok out ∧
      out.rows = f call.2.rows) (state : OperatorState D) :
    ∃ outs, streamRun step state calls = .ok outs ∧
      streamRows outs = f (streamRows (calls.map Prod.snd)) := by
  obtain ⟨outs, houts⟩ := streamRun_succeeds (fun _ => True) (fun call hmem state _ =>
    ⟨trivial, (hstep call hmem state).imp fun _ => And.left⟩) (trivial : (fun _ => True) state)
  refine ⟨outs, houts, streamRows_of_forall₂ hnil happend ?_⟩
  refine streamRun_forall₂ (fun _ => True) (fun call hmem state _ =>
    ⟨trivial, fun out hout => ?_⟩) trivial houts
  obtain ⟨out', hout', hrows⟩ := hstep call hmem state
  rw [hout] at hout'
  cases hout'
  exact hrows

/-! ## Filters -/

theorem Kernels.filterProject_rows {predicate : Predicate} {projection : List Nat}
    (htyped : predicate.Typed batch.schema) (hcolumns : ∀ i ∈ projection, i < batch.numColumns) :
    ∃ out, Kernels.filterProject batch predicate projection = .ok out ∧
      out.rows = (batch.rows.filter fun row => predicate.truth row = some true).map
        (select · projection) := by
  obtain ⟨entries, hentries⟩ := mapM_getElem?_eq_some.mpr hcolumns
  obtain ⟨projected, hprojected, -⟩ := project_eq_ok hentries
  refine ⟨projected.filter ((range batch.numRows).map fun i =>
    predicate.truth (batch.row i)), ?_, ?_⟩
  · rw [Kernels.filterProject, evaluatePredicate_eq_truth htyped, ok_bind, hprojected]
    rfl
  · rw [RecordBatch.rows_filter, RecordBatch.rows_project hprojected, keep_map,
      ← keep_map_eq_filter, RecordBatch.rows, map_map]
    rfl

/-- `GpuFilterExec::execute` on one partition. -/
def GpuFilterExec.execute (exec : GpuFilterExec) (calls : Calls D) :
    Result (List RecordBatch) :=
  streamRun (fun state backend batch =>
    state.filterProject backend batch exec.predicate exec.projection) {} calls

/-- The input of a node on one partition: batches of the input's schema, on
backends that decline or agree with the reference. -/
def ConformingInput (fpu : FloatUnit) (schema : Schema) (calls : Calls D) : Prop :=
  ∀ call ∈ calls, call.1.Conforms fpu ∧ call.2.schema.fields = schema.fields

theorem ConformingInput.length_of_mem (h : ConformingInput fpu schema calls)
    (hrow : row ∈ streamRows (calls.map Prod.snd)) : row.length = schema.width :=
  length_of_mem_streamRows (forall_mem_map.mpr fun call hcall => (h call hcall).2) hrow

theorem Predicate.Typed.congr {schema' : Schema} (h : schema'.fields = schema.fields)
    {predicate : Predicate} (htyped : predicate.Typed schema) : predicate.Typed schema' := by
  induction predicate with
  | compare column op lit => rwa [Predicate.Typed, h]
  | and left right ihLeft ihRight => exact ⟨ihLeft htyped.1, ihRight htyped.2⟩

/-- **The rows of a `GpuFilterExec`.**  Built by its constructor over `input`, it
emits exactly the rows its predicate is true on, projected, in input order. -/
theorem GpuFilterExec.execute_rows {exec : GpuFilterExec}
    (hbuilt : tryNew input exec.predicate exec.projection exec.target = .ok exec)
    (hcalls : ConformingInput fpu input calls) :
    ∃ outs, exec.execute calls = .ok outs ∧
      streamRows outs = ((streamRows (calls.map Prod.snd)).filter fun row =>
        exec.predicate.truth row = some true).map (select · exec.projection) := by
  obtain ⟨-, htyped, hne, schema, hschema, -⟩ := tryNew_eq_ok_iff.mp hbuilt
  have hcolumns := Schema.project_isSome_iff.mp ⟨schema, hschema⟩
  refine streamRun_rows (fun rows => (rows.filter fun row =>
    exec.predicate.truth row = some true).map (select · exec.projection)) rfl
    (fun a b => by rw [filter_append, map_append]) (fun call hmem state => ?_) {}
  -- one call: the reference succeeds, and the operator returns its columns
  obtain ⟨conforms, hfields⟩ := hcalls call hmem
  have hwidth : call.2.numColumns = input.width := by
    rw [← RecordBatch.length_schema_fields, hfields]
    rfl
  obtain ⟨ref, href, hrows⟩ := Kernels.filterProject_rows (htyped.congr hfields)
    (fun i hi => hwidth ▸ hcolumns i hi)
  have hsame := state.filterProject_sameResult conforms call.2 exec.predicate hne
  rw [href] at hsame
  obtain ⟨out, hout, hcolumns⟩ := SameResult.ok_right hsame
  exact ⟨out, hout, hcolumns.rows_eq.trans hrows⟩

/-! ## Distances -/

/-- A row with its distance appended. -/
def Row.withDistance (fpu : FloatUnit) (metric : DistanceMetric) (query : List F32)
    (column : Nat) (row : Row) : Row :=
  row ++ [(Kernels.distance fpu metric query (row.at column)).map Cell.float32]

theorem vectorFits_of_dimension {col : Column} {query : List F32}
    (h : vectorDimension col.dataType = some query.length) : GpuBackend.VectorFits col query := by
  unfold vectorDimension at h
  split at h
  · next name itemType nullable metadata size htype =>
    obtain ⟨⟨rfl, hsize⟩, hlen⟩ := Option.ite_none_right_eq_some.mp h
    refine ⟨name, nullable, metadata, size, htype, hsize.le, ?_⟩
    have hnat : size.toNat = query.length := Option.some.inj hlen
    omega
  · cases h

/-- The distance kernel, row by row. -/
theorem Kernels.vectorDistance_rows (fpu : FloatUnit) {c : Nat} {col : Column} {query : List F32}
    (metric : DistanceMetric) (outputName : String) (hcol : batch.columns[c]? = some col)
    (hfits : GpuBackend.VectorFits col query) :
    ∃ out, Kernels.vectorDistance fpu batch c query metric outputName = .ok out ∧
      out.rows = batch.rows.map (withDistance fpu metric query c) := by
  obtain ⟨out, hout⟩ := GpuBackend.append_distance_eq_ok fpu query metric outputName hcol
  refine ⟨out, (GpuBackend.vectorDistance_of_fits hcol hfits).trans hout, ?_⟩
  obtain ⟨-, hcolumns, -⟩ := tryNew_ok hout
  have hc : c < batch.columns.length := (List.getElem?_eq_some_iff.mp hcol).1
  have hrows : out.numRows = batch.numRows := by
    have hcol' : out.columns[c]? = some col := by
      rw [hcolumns, List.getElem?_append_left hc, hcol]
    rw [← column_len (List.mem_of_getElem? hcol),
      ← column_len (List.mem_of_getElem? hcol')]
  have hwidth : out.numColumns = batch.numColumns + 1 := by
    rw [← length_columns, hcolumns, length_append, length_columns]
    rfl
  apply rows_eq_of_cells
  · rw [length_map, length_rows, hrows]
  · intro row hrow
    obtain ⟨source, hsource, rfl⟩ := mem_map.mp hrow
    rw [withDistance, length_append, RecordBatch.length_of_mem_rows hsource, hwidth]
    rfl
  · intro index column hcolumn
    rw [hcolumns] at hcolumn
    rw [map_map]
    rcases Nat.lt_or_ge index batch.columns.length with hlt | hge
    · rw [List.getElem?_append_left hlt] at hcolumn
      rw [RecordBatch.cells_eq_map_rows hcolumn]
      refine map_congr_left fun row hrow => ?_
      rw [Function.comp_apply, withDistance, at_append_left]
      rwa [RecordBatch.length_of_mem_rows hrow, ← length_columns]
    · rw [List.getElem?_append_right hge] at hcolumn
      obtain ⟨hlast, rfl⟩ := List.getElem?_eq_some_iff.mp hcolumn
      have hindex : index = batch.columns.length := by
        rw [List.length_singleton] at hlast
        omega
      simp only [List.getElem_singleton, Column.ofFloat32,
        RecordBatch.cells_eq_map_rows hcol, map_map]
      refine map_congr_left fun row hrow => ?_
      have hlen : row.length = index := by
        rw [RecordBatch.length_of_mem_rows hrow, ← length_columns, hindex]
      simp only [Function.comp_apply, withDistance]
      rw [at_append_right _ hlen.le, hlen, Nat.sub_self]
      rfl

/-- `GpuVectorDistanceExec::execute` on one partition. -/
def GpuVectorDistanceExec.execute (fpu : FloatUnit) (exec : GpuVectorDistanceExec)
    (calls : Calls D) : Result (List RecordBatch) :=
  streamRun (fun state backend batch =>
    state.vectorDistance fpu backend batch exec.column exec.query exec.metric exec.outputName)
    {} calls

/-- **The rows of a `GpuVectorDistanceExec`**: the input's rows, each with its
distance. -/
theorem GpuVectorDistanceExec.execute_rows {exec : GpuVectorDistanceExec}
    (hbuilt : tryNew input exec.column exec.query exec.metric exec.outputName
      exec.target = .ok exec) (hcalls : ConformingInput fpu input calls) :
    ∃ outs, exec.execute fpu calls = .ok outs ∧
      streamRows outs = (streamRows (calls.map Prod.snd)).map
        (withDistance fpu exec.metric exec.query exec.column) := by
  obtain ⟨⟨field, hfield, hdim⟩, -⟩ := tryNew_eq_ok hbuilt
  refine streamRun_rows (fun rows => rows.map _) rfl (fun a b => map_append)
    (fun call hmem state => ?_) {}
  obtain ⟨conforms, hfields⟩ := hcalls call hmem
  rw [← hfields] at hfield
  obtain ⟨col, hcol, htype, -⟩ := entry_of_field hfield
  obtain ⟨ref, href, hrows⟩ := Kernels.vectorDistance_rows fpu exec.metric exec.outputName hcol
    (vectorFits_of_dimension (htype ▸ hdim))
  have hsame := state.vectorDistance_sameResult conforms call.2 exec.column exec.query exec.metric
    exec.outputName
  rw [href] at hsame
  obtain ⟨out, hout, hcolumns⟩ := SameResult.ok_right hsame
  exact ⟨out, hout, hcolumns.rows_eq.trans hrows⟩

/-! ## Joins -/

/-- The `Int64` key of a row. -/
def Row.key (row : Row) (column : Nat) : Option Int64 := (row.at column).bind Cell.int64?

/-- A probe row matches a build row: the same key, `NULL` matching nothing. -/
def Row.joins (leftKey rightKey : Nat) (left right : Row) : Bool :=
  (left.key leftKey).isSome ∧ left.key leftKey = right.key rightKey

/-- **The rows of an inner join in probe order**: for every probe row one group, the
build rows it matches in some order, next to it. -/
def ProbeJoin (leftKey rightKey : Nat) (selected : List Nat) (probe build out : List Row) :
    Prop :=
  ∃ groups : List (List Row),
    List.Forall₂ (fun left group => group.Perm
      ((build.filter (joins leftKey rightKey left)).map fun right =>
        select (left ++ right) selected)) probe groups ∧
    out = groups.flatten

theorem ProbeJoin.append {selected : List Nat} {probe probe' build out out' : List Row}
    (h : ProbeJoin leftKey rightKey selected probe build out)
    (h' : ProbeJoin leftKey rightKey selected probe' build out') :
    ProbeJoin leftKey rightKey selected (probe ++ probe') build (out ++ out') := by
  obtain ⟨groups, hgroups, rfl⟩ := h
  obtain ⟨groups', hgroups', rfl⟩ := h'
  exact ⟨groups ++ groups', rel_append hgroups hgroups', flatten_append.symm⟩

theorem streamRows_probeJoin {selected : List Nat} {build : List Row}
    (h : List.Forall₂ (fun batch out =>
      ProbeJoin leftKey rightKey selected batch.rows build out.rows) batches outs) :
    ProbeJoin leftKey rightKey selected (streamRows batches) build (streamRows outs) := by
  induction h with
  | nil => exact ⟨[], .nil, rfl⟩
  | cons hhead _ ih => exact hhead.append ih

theorem keyValues_eq_map_rows {key : Nat} (h : key < batch.numColumns) :
    keyValues batch key = batch.rows.map (Row.key · key) := by
  rw [← length_columns] at h
  rw [keyValues, getElem?_eq_getElem h, Option.map_some, Option.getD_some,
    Column.int64s, RecordBatch.cells_eq_map_rows (getElem?_eq_getElem h), map_map]
  rfl

theorem RecordBatch.key_at (batch : RecordBatch) (column : Nat) {row : Nat}
    (h : row < batch.numRows) :
    ((batch.rows.map (key · column))[row]?).join = key (batch.row row) column := by
  rw [getElem?_map, batch.rows_eq_map_row, getElem?_map, getElem?_range h]
  rfl

theorem joinedRow_eq_select (left right : RecordBatch) (selected : List Nat) (pair : Nat × Nat) :
    joinedRow left right selected pair =
      select (left.row pair.1 ++ right.row pair.2) selected := by
  have hlen : (left.row pair.1).length = left.numColumns := by
    rw [RecordBatch.row, length_map, length_columns]
  refine map_congr_left fun c _ => ?_
  split
  · next hc => exact (at_append_left _ (hlen ▸ hc)).symm
  · next hc =>
    rw [at_append_right _ (hlen ▸ not_lt.mp hc), hlen]
    rfl

theorem probeJoin_of_joinsAlong {left right : RecordBatch} {selected : List Nat}
    {pairs : List (Nat × Nat)} (hleft : leftKey < left.numColumns)
    (hright : rightKey < right.numColumns)
    (hpairs : EquiJoin.Pairs (keyValues left leftKey) (keyValues right rightKey) pairs)
    (hout : JoinsAlong left right selected pairs out) :
    ProbeJoin leftKey rightKey selected left.rows right.rows out.rows := by
  rw [keyValues_eq_map_rows hleft, keyValues_eq_map_rows hright] at hpairs
  refine ⟨(range left.numRows).map fun i =>
    (pairs.filter fun pair => pair.1 = i).map (joinedRow left right selected), ?_, ?_⟩
  · rw [left.rows_eq_map_row, right.rows_eq_map_row, forall₂_map_left_iff,
      forall₂_map_right_iff, forall₂_same]
    intro i hi
    have hperm := (hpairs.perm_matches i).map fun j =>
      select (left.row i ++ right.row j) selected
    have hgroup : (pairs.filter fun pair => pair.1 = i).map (joinedRow left right selected) =
        ((pairs.filter fun pair => pair.1 = i).map Prod.snd).map fun j =>
          select (left.row i ++ right.row j) selected := by
      rw [map_map]
      refine map_congr_left fun pair hpair => ?_
      rw [joinedRow_eq_select, Function.comp_apply, of_decide_eq_true (mem_filter.mp hpair).2]
    rw [hgroup]
    refine hperm.trans (List.Perm.of_eq ?_)
    rw [filter_map, map_map, length_map, length_rows]
    refine congrArg (map _) (filter_congr fun j hj => ?_)
    rw [left.key_at leftKey (mem_range.mp hi), right.key_at rightKey (mem_range.mp hj)]
    rfl
  · have hsplit := hpairs.flatMap_eq
    rw [length_map, length_rows] at hsplit
    rw [hout.rows, ← flatMap_def, ← map_flatMap, hsplit]

/-- The output columns of a join node, as indices into `left ++ right`. -/
def GpuHashJoinExec.selected (exec : GpuHashJoinExec) (left right : Schema) : List Nat :=
  exec.projection.getD (range (left.width + right.width))

/-- What the constructor checks of a join node over its inputs. -/
structure GpuHashJoinExec.Fits (exec : GpuHashJoinExec) (left right : Schema) : Prop where
  leftKey : left.HasInt64 exec.leftKey
  rightKey : right.HasInt64 exec.rightKey
  selects : exec.selected left right ≠ []
  inside : ∀ c ∈ exec.selected left right, c < left.width + right.width

/-- `GpuHashJoinExec::execute` on one partition: `buildSide` is what every partition
of the right input returned. -/
def GpuHashJoinExec.execute (order : MapOrder) (exec : GpuHashJoinExec) (right : Schema)
    (buildSide : List RecordBatch) (calls : Calls D) :
    Result (List RecordBatch) := do
  let all ← concatBatches right buildSide
  let build ← JoinBuild.new order all exec.rightKey
  streamRun (fun state backend batch =>
    state.hashJoin backend batch build exec.leftKey exec.projection) {} calls

/-- The probe input of a join on one partition: batches of the input's schema, on
backends that decline or join. -/
def JoiningInput (contents : D → RecordBatch) (schema : Schema) (calls : Calls D) : Prop :=
  ∀ call ∈ calls, call.1.Joins contents ∧ call.2.schema.fields = schema.fields

theorem JoiningInput.length_of_mem {contents : D → RecordBatch}
    (h : JoiningInput contents schema calls) (hrow : row ∈ streamRows (calls.map Prod.snd)) :
    row.length = schema.width :=
  length_of_mem_streamRows (forall_mem_map.mpr fun call hcall => (h call hcall).2) hrow

theorem int64Column_of_hasInt64 {key : Nat} (hfields : batch.schema.fields = schema.fields)
    (h : schema.HasInt64 key) (role : String) :
    int64Column batch key role = .ok (keyValues batch key) := by
  obtain ⟨field, hfield, htype⟩ := h
  rw [← hfields] at hfield
  obtain ⟨column, hcolumn, hcolumnType, -⟩ := entry_of_field hfield
  rw [int64Column, Kernels.column, hcolumn, ok_bind,
    if_pos (hcolumnType.trans htype), keyValues, hcolumn]
  rfl

theorem JoinBuild.new_eq_ok {order : MapOrder} {key : Nat} {build : JoinBuild order}
    (h : JoinBuild.new order batch key = .ok build) :
    build.batch = batch ∧ build.key = key := by
  unfold JoinBuild.new at h
  split at h
  · cases h
    exact ⟨rfl, rfl⟩
  · cases h

/-- **The rows of a `GpuHashJoinExec`**: the join of the probe partition with the
whole build side, in probe order. -/
theorem GpuHashJoinExec.execute_rows {order : MapOrder} {contents : D → RecordBatch}
    {exec : GpuHashJoinExec} {left right : Schema} (hfits : exec.Fits left right)
    {buildSide outs : List RecordBatch} {calls : Calls D}
    (hcalls : JoiningInput contents left calls)
    (h : exec.execute order right buildSide calls = .ok outs) :
    ProbeJoin exec.leftKey exec.rightKey (exec.selected left right)
      (streamRows (calls.map Prod.snd)) (streamRows buildSide) (streamRows outs) := by
  obtain ⟨all, hall, hrest⟩ := bind_eq_ok_iff.mp h
  obtain ⟨build, hbuild, hstream⟩ := bind_eq_ok_iff.mp hrest
  obtain ⟨-, hschema, hrows⟩ := concatBatches_ok hall
  obtain ⟨rfl, hkey⟩ := JoinBuild.new_eq_ok hbuild
  have hfields : build.batch.schema.fields = right.fields := congrArg Schema.fields hschema
  have hwidth := numColumns_eq_width hfields
  refine streamRows_probeJoin (streamRun_forall₂
    (OperatorState.RunCached contents build left.fields exec.leftKey exec.projection) ?_
    (fun _ _ _ _ held hheld => ?_) hstream)
  · -- one call keeps the cache invariant and returns the join of its batch
    intro call hmem state hcached
    obtain ⟨joins, hleft⟩ := hcalls call hmem
    have hleftWidth := numColumns_eq_width hleft
    rw [← hleft] at hcached ⊢
    refine ⟨hashJoin_runCached joins hcached, fun out hout => ?_⟩
    have hselected : selectedColumns call.2 build.batch exec.projection =
        exec.selected left right := by
      rw [selected, ← hleftWidth, ← hwidth]
      cases exec.projection <;> rfl
    have hleftKey := int64Column_of_hasInt64 hleft hfits.leftKey "left join key"
    have hrightKey := int64Column_of_hasInt64 hfields (hkey ▸ hfits.rightKey) "build join key"
    obtain ⟨pairs, hpairs, hjoins⟩ := hashJoin_joinsSides joins hcached ⟨hleftKey, hrightKey,
      by rw [hselected]; exact hfits.selects,
      by rw [hselected, hleftWidth, hwidth]; exact hfits.inside⟩ hout
    rw [hselected] at hjoins
    have hprobe := probeJoin_of_joinsAlong (int64Column_ok hleftKey).2.2
      (int64Column_ok hrightKey).2.2 hpairs hjoins
    rwa [hkey, hrows] at hprobe
  · cases hheld

/-! ## Aggregations -/

/-- `GpuAggregateExec::execute`: every batch of the input, aggregated at once. -/
def GpuAggregateExec.execute (fpu : FloatUnit) (exec : GpuAggregateExec) (input : Schema)
    (backend : GpuBackend D) (batches : List RecordBatch) : Result RecordBatch := do
  let all ← concatBatches input batches
  let out ← (({} : OperatorState D).aggregate fpu backend all exec.spec).1
  RecordBatch.tryNew exec.schema out.columns

theorem Kernels.aggregate_firstColumn {spec : AggregateSpec} {keys : Int64Array}
    (hkeys : int64Column batch spec.groupBy "group key" = .ok keys)
    (h : aggregate fpu batch spec = .ok out) :
    ∃ inputs, out.columns[0]? =
      some (Column.ofInt64 ((sortGroups (groupRows fpu inputs keys)).map Prod.fst)) := by
  obtain ⟨keys', hkeys', h⟩ := bind_eq_ok_iff.mp h
  rw [hkeys] at hkeys'
  cases hkeys'
  obtain ⟨inputs, -, h⟩ := bind_eq_ok_iff.mp h
  obtain ⟨entries, -, h⟩ := bind_eq_ok_iff.mp h
  obtain ⟨-, hcolumns, -⟩ := tryNew_ok h
  exact ⟨inputs, by rw [hcolumns]; rfl⟩

/-- **The keys of a `GpuAggregateExec`'s output**: each key of the input once, in
ascending order with `NULL` last. -/
theorem GpuAggregateExec.execute_keys {exec : GpuAggregateExec}
    (hgroup : input.HasInt64 exec.spec.groupBy) {backend : GpuBackend D}
    (conforms : backend.Conforms fpu) (h : exec.execute fpu input backend batches = .ok out) :
    ∃ keys : Int64Array,
      out.rows.map (fun row => Row.at row 0) = keys.map (Option.map Cell.int64) ∧
      keys.Nodup ∧
      (∀ key, key ∈ keys ↔ key ∈ (streamRows batches).map (Row.key · exec.spec.groupBy)) ∧
      keys.Pairwise fun a b => keyLe a b = true := by
  obtain ⟨all, hall, hrest⟩ := bind_eq_ok_iff.mp h
  obtain ⟨aggregated, haggregated, hnew⟩ := bind_eq_ok_iff.mp hrest
  obtain ⟨-, hschema, hrows⟩ := concatBatches_ok hall
  have hkeys := int64Column_of_hasInt64 (congrArg Schema.fields hschema) hgroup "group key"
  have hsame := ({} : OperatorState D).aggregate_sameResult conforms all exec.spec
  rw [haggregated] at hsame
  obtain ⟨ref, href, hcolumns⟩ := SameResult.ok_left hsame
  obtain ⟨inputs, hfirst⟩ := Kernels.aggregate_firstColumn hkeys href
  obtain ⟨-, hout, -⟩ := tryNew_ok hnew
  have hcolumn : out.columns[0]? = some (Column.ofInt64
      ((Kernels.sortGroups (Kernels.groupRows fpu inputs
        (keyValues all exec.spec.groupBy))).map Prod.fst)) := by
    rw [hout, RecordBatch.columns, hcolumns.1]
    exact hfirst
  obtain ⟨hnodup, hmem, hsorted⟩ := Kernels.sortGroups_groupRows_keys fpu inputs
    (keyValues all exec.spec.groupBy)
  refine ⟨_, (RecordBatch.cells_eq_map_rows hcolumn).symm, hnodup, fun key => ?_, hsorted⟩
  rw [hmem, keyValues_eq_map_rows (int64Column_ok hkeys).2.2, hrows]
  rfl

end OxideLake
