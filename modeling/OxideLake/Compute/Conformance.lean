import OxideLake.Compute.ColumnPlumbing

/-!
# Operators on a conforming backend

A backend *conforms* when on every sub-batch it is handed it either answers
`Unsupported` or returns what the reference kernel returns on that sub-batch.
Under that assumption alone the column plumbing of `filter_project`, `aggregate`
and `vector_distance` is invisible: each returns the reference's columns on the
whole batch, whatever mix of device and host columns it holds.
-/

namespace OxideLake

open List Partial RecordBatch Kernels

variable {D : Type}

variable {batch : RecordBatch} {predicate : Predicate}
  {answer reference result x y : Result RecordBatch} {backend : GpuBackend D}
  {fpu : FloatUnit} {projected : List (Nat × Bool)} {projection : List Nat} {spec : AggregateSpec}

/-! ## Conformance -/

/-- What a backend may answer where the reference returns `reference`. -/
def Answers (answer reference : Result RecordBatch) : Prop :=
  (∃ e, answer = .error e ∧ e.isUnsupported = true) ∨ SameResult answer reference

/-- A backend whose round trips decline or agree with the reference kernels on
the sub-batch they upload. -/
structure GpuBackend.Conforms (fpu : FloatUnit) (backend : GpuBackend D) : Prop where
  filterProject : ∀ sub predicate projection,
    Answers (backend.roundTrip sub fun dev => backend.filterProject dev predicate projection)
      (Kernels.filterProject sub predicate projection)
  aggregate : ∀ sub spec,
    Answers (backend.roundTrip sub fun dev => backend.aggregate dev spec)
      (Kernels.aggregate fpu sub spec)
  vectorDistance : ∀ sub column query metric outputName,
    Answers (backend.roundTrip sub fun dev =>
        backend.vectorDistance dev column query metric outputName)
      (Kernels.vectorDistance fpu sub column query metric outputName)

theorem SameResult.refl (result : Result RecordBatch) :
    SameResult result result := by
  cases result with
  | error e => trivial
  | ok batch => exact ⟨rfl, rfl⟩

theorem SameResult.error_left {e : EngineError} (h : SameResult (.error e) result) :
    ∃ e', result = .error e' := by
  cases result with
  | error e' => exact ⟨e', rfl⟩
  | ok batch => exact h.elim

theorem SameResult.ok_left {a : RecordBatch} (h : SameResult (.ok a) result) :
    ∃ b, result = .ok b ∧ a.SameColumns b := by
  cases result with
  | error e => exact h.elim
  | ok b => exact ⟨b, rfl, h⟩

theorem SameResult.ok_right {b : RecordBatch} (h : SameResult result (.ok b)) :
    ∃ a, result = .ok a ∧ a.SameColumns b := by
  cases result with
  | error e => exact h.elim
  | ok a => exact ⟨a, rfl, h⟩

theorem SameResult.trans {z : Result RecordBatch} (h : SameResult x y)
    (h' : SameResult y z) : SameResult x z := by
  cases x with
  | error e =>
    obtain ⟨e', rfl⟩ := h.error_left
    obtain ⟨e'', rfl⟩ := h'.error_left
    trivial
  | ok a =>
    obtain ⟨b, rfl, hab⟩ := h.ok_left
    obtain ⟨c, rfl, hbc⟩ := h'.ok_left
    exact ⟨hab.1.trans hbc.1, hab.2.trans hbc.2⟩

theorem sameResult_of_sameOutcome (h : SameOutcome x y) : SameResult x y := by
  cases x with
  | error e =>
    obtain ⟨e', rfl⟩ := h.error_left
    trivial
  | ok a =>
    cases h.ok_left
    exact SameResult.refl _

theorem Answers.trans (h : Answers answer x) (hxy : SameResult x y) : Answers answer y :=
  h.imp_right fun hsame => hsame.trans hxy

/-- A device attempt is consistent with a reference result: it declined, or it
ran to that result, or both failed. -/
def DeviceOutcome.Agrees (outcome : Result DeviceOutcome) (reference : Result RecordBatch) : Prop :=
  match outcome with
  | .ok (.declined _) => True
  | .ok (.ran out) => SameResult (.ok out) reference
  | .error e => SameResult (.error e) reference

/-- A declined batch runs on the reference, so an agreeing attempt gives the
reference's result. -/
theorem OperatorState.finish_sameResult {state : OperatorState D} {rowsIn : Nat}
    {outcome : Result DeviceOutcome} {reference : Unit → Result RecordBatch}
    (h : DeviceOutcome.Agrees outcome (reference ())) :
    SameResult (state.finish rowsIn outcome reference).1 (reference ()) := by
  unfold OperatorState.finish
  match outcome, h with
  | .error e, h => exact h
  | .ok (.ran out), h => exact h
  | .ok (.declined why), _ =>
    dsimp only
    split
    · next e he => exact he ▸ SameResult.refl _
    · next out hout => exact hout ▸ SameResult.refl _

/-- A soft failure is a decline. -/
theorem tryDevice_agrees (h : Answers answer reference) :
    DeviceOutcome.Agrees (tryDevice answer) reference := by
  rcases h with ⟨e, rfl, he⟩ | h
  · rw [tryDevice, if_pos he]
    trivial
  · cases answer with
    | ok out => exact h
    | error e =>
      rw [tryDevice]
      split
      · trivial
      · exact h

/-- A device answer, assembled on the host. -/
theorem onHost_agrees {subReference : Result RecordBatch}
    {assemble : RecordBatch → Result RecordBatch} (h : Answers answer subReference)
    (hok : ∀ devOut out, subReference = .ok out → devOut.SameColumns out →
      SameResult (assemble devOut) reference)
    (herror : ∀ e, subReference = .error e → ∃ e', reference = .error e') :
    DeviceOutcome.Agrees (tryDevice answer >>= fun outcome => outcome.onHost assemble)
      reference := by
  rcases h with ⟨e, rfl, he⟩ | h
  · rw [tryDevice, if_pos he]
    trivial
  · cases answer with
    | ok devOut =>
      obtain ⟨out, hout, hsame⟩ := h.ok_left
      have hassemble := hok devOut out hout hsame
      rw [tryDevice, ok_bind, DeviceOutcome.onHost]
      cases hres : assemble devOut with
      | error e | ok out => rw [hres] at hassemble; exact hassemble
    | error e =>
      obtain ⟨e', he'⟩ := h.error_left
      obtain ⟨e'', rfl⟩ := herror e' he'
      rw [tryDevice]
      split
      · trivial
      · trivial

theorem agrees_of_noDevicePath {noPath : Option EngineError}
    {attempt : Result DeviceOutcome} (h : DeviceOutcome.Agrees attempt reference) :
    DeviceOutcome.Agrees
      (match noPath with
        | some why => .ok (.declined why)
        | none => attempt) reference := by
  cases noPath with
  | none => exact h
  | some why => trivial

/-! ## Filter and projection -/

namespace GpuBackend

variable {fpu : FloatUnit} {backend : GpuBackend D}

theorem filterPlan_mem {c : Nat} :
    c ∈ (filterPlan predicate projected).deviceCols ↔
      c ∈ predicate.columns ∨ (c, true) ∈ projected := by
  simp [filterPlan, mem_foldl_pushUnique, mem_dedupRuns]

theorem columns_ne_nil (predicate : Predicate) : predicate.columns ≠ [] := by
  induction predicate with
  | compare => exact cons_ne_nil _ _
  | and left right ihLeft _ =>
    exact fun h => ihLeft (append_eq_nil_iff.mp h).1

theorem filterPlan_ne_nil (predicate : Predicate) (projected : List (Nat × Bool)) :
    (filterPlan predicate projected).deviceCols ≠ [] := by
  obtain ⟨c, hc⟩ := exists_mem_of_ne_nil _ (columns_ne_nil predicate)
  exact ne_nil_of_mem (filterPlan_mem.mpr (.inl hc))

/-- What the reassembly makes of a device output that holds the filtered device
entries, then the filtered row ids: the whole projection, filtered. -/
theorem filterOutput_eq {whole devOut : RecordBatch} {mask : List (Option Bool)}
    (hne : whole.entries ≠ []) (hproj : Projects batch projected whole.entries)
    (hdev : devOut.entries = (deviceEntries projected whole.entries ++
      (filterPlan predicate projected).rowIdEntry batch.numRows).map
        fun entry => (entry.1, entry.2.filter mask)) :
    filterOutput (filterPlan predicate projected) batch projected devOut =
      .ok { whole.filter mask with metadata := [] } := by
  set plan := filterPlan predicate projected with hplan
  have hcolumns : devOut.columns =
      (deviceEntries projected whole.entries).map (fun entry => entry.2.filter mask) ++
        (plan.rowIdEntry batch.numRows).map (fun entry => entry.2.filter mask) := by
    rw [RecordBatch.columns, hdev, map_map, map_append]
    rfl
  -- the row ids, when there are any, are the last column of the device output
  have hids : ∃ rowIds, rowIdsOut plan devOut = .ok rowIds ∧
      ((∃ entry ∈ projected, entry.2 = false) →
        rowIds = some ((SidePlan.rowIdColumn batch.numRows).filter mask)) := by
    cases hrow : plan.rowIds with
    | false =>
      refine ⟨none, by simp [rowIdsOut, hrow], ?_⟩
      rintro ⟨entry, hentry, hfalse⟩
      refine absurd hrow ?_
      simp only [hplan, filterPlan, Bool.not_eq_false, any_eq_true]
      exact ⟨entry, hentry, by simp [hfalse]⟩
    | true =>
      refine ⟨_, ?_, fun _ => rfl⟩
      have hlast : devOut.columns[devOut.numColumns - 1]? =
          some ((SidePlan.rowIdColumn batch.numRows).filter mask) := by
        rw [← length_columns, ← getLast?_eq_getElem?, hcolumns]
        simp [SidePlan.rowIdEntry, hrow]
      rw [rowIdsOut, if_pos hrow, columnAt, hlast]
      rfl
  obtain ⟨rowIds, hrowIds, hgather⟩ := hids
  have hreassemble := reassemble_spec 0 hproj hgather hcolumns
  rw [filterOutput, hrowIds, ok_bind, hreassemble, ok_bind]
  exact tryNew_eq_ok [] (mt map_eq_nil_iff.mp hne) (whole.filter mask).fits
    (whole.filter mask).numRows_lt

/-- A filter over the sub-batch. -/
theorem filterRoundTrip_agrees (conforms : backend.Conforms fpu) {whole sub : RecordBatch}
    {remapped : Predicate} {devCols : List Nat} (hne : whole.entries ≠ [])
    (cut : Cut (filterPlan predicate projected) batch sub)
    (hwhole : batch.project projection = .ok whole) (hproj : Projects batch projected whole.entries)
    (hremap : remapPredicate (filterPlan predicate projected) predicate = .ok remapped)
    (hread : devCols.mapM (fun k => sub.entries[k]?) = some (deviceEntries projected
      whole.entries ++ (filterPlan predicate projected).rowIdEntry batch.numRows)) :
    DeviceOutcome.Agrees
      (tryDevice (backend.roundTrip sub fun dev => backend.filterProject dev remapped devCols)
        >>= fun outcome =>
          outcome.onHost (filterOutput (filterPlan predicate projected) batch projected))
      (Kernels.filterProject batch predicate projection) := by
  have hmask := evaluatePredicate_remap cut hremap
  obtain ⟨subWhole, hsubWhole, hsubEntries, -⟩ := project_eq_ok hread
  refine onHost_agrees (conforms.filterProject sub remapped devCols) ?_ ?_
  · intro devOut out hout hsame
    obtain ⟨mask, hsubMask, hout⟩ := bind_eq_ok_iff.mp hout
    rw [hsubWhole, ok_bind] at hout
    cases hout
    rw [hsubMask] at hmask
    have hdev : devOut.entries = (deviceEntries projected whole.entries ++
        (filterPlan predicate projected).rowIdEntry batch.numRows).map
          fun entry => (entry.1, entry.2.filter mask) := by
      rw [hsame.1, ← hsubEntries]
      rfl
    rw [filterOutput_eq hne hproj hdev, Kernels.filterProject, hmask.ok_left, ok_bind,
      hwhole]
    exact ⟨rfl, rfl⟩
  · intro e he
    rw [Kernels.filterProject, hsubWhole] at he
    cases hsubMask : evaluatePredicate sub remapped with
    | ok mask => rw [hsubMask] at he; cases he
    | error e' =>
      rw [hsubMask] at hmask
      obtain ⟨e'', he''⟩ := hmask.error_left
      exact ⟨e'', by rw [Kernels.filterProject, he'']; rfl⟩

/-- **Filter plumbing.**  On a conforming backend the device attempt agrees with
the reference filter. -/
theorem filterProjectOnDevice_agrees (conforms : backend.Conforms fpu) (hne : projection ≠ []) :
    DeviceOutcome.Agrees (backend.filterProjectOnDevice batch predicate projection)
      (Kernels.filterProject batch predicate projection) := by
  rw [filterProjectOnDevice]
  cases hprojected : (projection.mapM fun i => (do
      let field ← fieldAt batch.schema i
      pure (i, deviceEligible field.dataType) : Result (Nat × Bool))) with
  | error e =>
    -- a projected column is missing, so the reference fails in `project`
    rw [error_bind]
    cases href : Kernels.filterProject batch predicate projection with
    | error e' => trivial
    | ok out =>
      obtain ⟨mask, -, href⟩ := bind_eq_ok_iff.mp href
      obtain ⟨whole, hwhole, -⟩ := bind_eq_ok_iff.mp href
      obtain ⟨projected, hok, -⟩ := projected_of_mapM (mapM_of_project hwhole)
      rw [hok] at hprojected
      cases hprojected
  | ok projected =>
    obtain ⟨entries, hentries⟩ := mapM_of_projected hprojected
    obtain ⟨projected', hok, hproj⟩ := projected_of_mapM hentries
    obtain ⟨whole, hwhole, rfl, hrows⟩ := project_eq_ok hentries
    rw [hprojected] at hok
    cases hok
    rw [ok_bind]
    dsimp only
    by_cases hcols : ∀ c ∈ predicate.columns, c < batch.numColumns
    · have hwholeNe : whole.entries ≠ [] := fun hnil => hne (length_eq_zero_iff.mp
        (by rw [← mapM_some_length hentries, hnil, length_nil]))
      have hplan : ∀ entry ∈ projected, entry.2 = true →
          entry.1 ∈ (filterPlan predicate projected).deviceCols := by
        rintro ⟨i, _⟩ hentry rfl
        exact filterPlan_mem.mpr (.inr hentry)
      obtain ⟨planned, hplanned⟩ := mapM_getElem?_eq_some.mpr
        (fun c (hc : c ∈ (filterPlan predicate projected).deviceCols) =>
          (filterPlan_mem.mp hc).elim (hcols c) fun h => hproj.lt_numColumns h)
      obtain ⟨sub, hsub, cut⟩ := subBatch_eq_ok _ hplanned (filterPlan_ne_nil _ _)
      obtain ⟨remapped, hremap⟩ := remapPredicate_eq_ok
        (filterPlan predicate projected) fun c hc => filterPlan_mem.mpr (.inl hc)
      obtain ⟨devCols, hdevCols, hread⟩ := devProjection_spec cut hproj hplan
      rw [hsub, ok_bind, hremap, ok_bind, hdevCols, ok_bind]
      exact filterRoundTrip_agrees conforms hwholeNe cut hwhole hproj hremap hread
    · -- a predicate column is missing: both the sub-batch and the mask fail
      push Not at hcols
      obtain ⟨c, hc, hrange⟩ := hcols
      obtain ⟨e, he⟩ := subBatch_error (filterPlan predicate projected)
        (filterPlan_mem.mpr (.inl hc)) hrange
      rw [he, error_bind]
      cases hmask : evaluatePredicate batch predicate with
      | error e' =>
        rw [Kernels.filterProject, hmask]
        trivial
      | ok mask => exact absurd (evaluatePredicate_columns_lt hmask c hc) (Nat.not_lt.mpr hrange)

/-! ## Grouped aggregation -/

section Aggregate

variable {plan : SidePlan} {batch sub : RecordBatch} {c : Nat}

theorem fieldName_cut (cut : Cut plan batch sub) (hc : c ∈ plan.deviceCols) :
    fieldName sub ((plan.position c).getD 0) = fieldName batch c := by
  rw [fieldName, fieldName, fields_getElem?,
    fields_getElem?, cut.entry_getD hc]

theorem column_cut (cut : Cut plan batch sub) (hc : c ∈ plan.deviceCols) :
    SameOutcome (Kernels.column sub ((plan.position c).getD 0)) (Kernels.column batch c) := by
  rw [Kernels.column, Kernels.column, columns_getElem?,
    columns_getElem?, cut.entry_getD hc]
  cases batch.entries[c]? with
  | none => trivial
  | some entry => exact rfl

theorem int64Column_cut (cut : Cut plan batch sub) (hc : c ∈ plan.deviceCols) (role : String) :
    SameOutcome (int64Column sub ((plan.position c).getD 0) role)
      (int64Column batch c role) := by
  refine (column_cut cut hc).bind fun col => ?_
  split
  · exact rfl
  · trivial

theorem aggregateInput_cut (cut : Cut plan batch sub) (hc : c ∈ plan.deviceCols) :
    SameOutcome (Kernels.aggregateInput sub ((plan.position c).getD 0))
      (Kernels.aggregateInput batch c) := by
  refine (column_cut cut hc).bind fun col => ?_
  split
  · exact rfl
  · exact rfl
  · trivial

/-- The reference aggregate on the sub-batch, with the remapped spec, is the
reference aggregate on the batch. -/
theorem aggregate_cut (fpu : FloatUnit) (cut : Cut plan batch sub)
    (hgroup : spec.groupBy ∈ plan.deviceCols)
    (hinputs : ∀ entry ∈ spec.aggregates, entry.2 ∈ plan.deviceCols) :
    SameOutcome
      (Kernels.aggregate fpu sub ⟨(plan.position spec.groupBy).getD 0,
        spec.aggregates.map fun entry => (entry.1, (plan.position entry.2).getD 0)⟩)
      (Kernels.aggregate fpu batch spec) := by
  have hentry : ∀ groups, ∀ entry ∈ spec.aggregates, ∀ rest : Input × Nat,
      aggregateEntry sub groups ((entry.1, (plan.position entry.2).getD 0), rest) =
        aggregateEntry batch groups (entry, rest) := by
    intro groups entry hmem rest
    rw [aggregateEntry, aggregateEntry]
    simp only [fieldName_cut cut (hinputs entry hmem)]
  refine (int64Column_cut cut hgroup _).bind fun keys => ?_
  rw [mapM_map]
  refine (SameOutcome.mapM fun entry hmem => aggregateInput_cut cut (hinputs entry hmem)).bind
    fun inputs => ?_
  dsimp only
  rw [zip_map_left, mapM_map, fieldName_cut cut hgroup]
  refine (SameOutcome.mapM fun entry hmem => ?_).bind fun entries => SameOutcome.refl _
  exact hentry _ entry.1 (of_mem_zip hmem).1 entry.2 ▸ SameOutcome.refl _

theorem aggregate_columns_lt {out : RecordBatch} (h : Kernels.aggregate fpu batch spec = .ok out) :
    ∀ c ∈ spec.groupBy :: spec.aggregates.map Prod.snd, c < batch.numColumns := by
  have hcolumn : ∀ {c : Nat} {col : Column}, Kernels.column batch c = .ok col →
      c < batch.numColumns := by
    intro c col hcol
    rw [Kernels.column, columns_getElem?] at hcol
    cases hget : batch.entries[c]? with
    | none => rw [hget] at hcol; cases hcol
    | some entry => exact (List.getElem?_eq_some_iff.mp hget).1
  obtain ⟨keys, hkeys, h⟩ := bind_eq_ok_iff.mp h
  obtain ⟨inputs, hinputs, -⟩ := bind_eq_ok_iff.mp h
  intro c hc
  rcases List.mem_cons.mp hc with rfl | hc
  · obtain ⟨col, hcol, -⟩ := bind_eq_ok_iff.mp hkeys
    exact hcolumn hcol
  · obtain ⟨entry, hentry, rfl⟩ := mem_map.mp hc
    obtain ⟨input, hinput⟩ := mapM_ok_of_mem hinputs hentry
    obtain ⟨col, hcol, -⟩ := bind_eq_ok_iff.mp hinput
    exact hcolumn hcol

end Aggregate

/-- **Aggregate plumbing.**  On a conforming backend the device attempt agrees
with the reference aggregate. -/
theorem aggregateOnDevice_agrees (conforms : backend.Conforms fpu) :
    DeviceOutcome.Agrees (backend.aggregateOnDevice batch spec)
      (Kernels.aggregate fpu batch spec) := by
  rw [aggregateOnDevice]
  have hmem : ∀ c, c ∈ (spec.aggregates.map Prod.snd).foldl pushUnique [spec.groupBy] ↔
      c ∈ spec.groupBy :: spec.aggregates.map Prod.snd := fun c => by
    rw [mem_foldl_pushUnique, mem_singleton, mem_cons]
  by_cases hcols : ∀ c ∈ spec.groupBy :: spec.aggregates.map Prod.snd, c < batch.numColumns
  · obtain ⟨planned, hplanned⟩ := mapM_getElem?_eq_some.mpr
      (fun c (hc : c ∈ (spec.aggregates.map Prod.snd).foldl pushUnique [spec.groupBy]) =>
        hcols c ((hmem c).mp hc))
    obtain ⟨sub, hsub, cut⟩ := subBatch_eq_ok ⟨_, false⟩ hplanned
      (ne_nil_of_mem ((hmem spec.groupBy).mpr mem_cons_self))
    rw [hsub, ok_bind]
    have hsame := aggregate_cut fpu cut ((hmem _).mpr mem_cons_self)
      fun entry hentry => (hmem _).mpr (mem_cons_of_mem _ (mem_map_of_mem hentry))
    exact tryDevice_agrees
      ((conforms.aggregate sub _).trans (sameResult_of_sameOutcome hsame))
  · cases href : Kernels.aggregate fpu batch spec with
    | ok out => exact absurd (aggregate_columns_lt href) hcols
    | error e' =>
      push Not at hcols
      obtain ⟨c, hc, hrange⟩ := hcols
      obtain ⟨e, he⟩ := subBatch_error
        ⟨(spec.aggregates.map Prod.snd).foldl pushUnique [spec.groupBy], false⟩
        ((hmem c).mpr hc) hrange
      rw [he]
      trivial

/-! ## Vector distance -/

/-- The vector columns a query can be compared with. -/
def VectorFits (col : Column) (query : List F32) : Prop :=
  ∃ name nullable metadata size,
    col.dataType = .fixedSizeList name .float32 nullable metadata size ∧ 0 ≤ size ∧
      (query.length : Int) = size

section VectorDistance

variable {batch : RecordBatch} {c : Nat} {col : Column} {query : List F32}
  {metric : DistanceMetric} {outputName : String}

theorem append_distance_eq_ok (fpu : FloatUnit) (query : List F32) (metric : DistanceMetric)
    (outputName : String) (hcol : batch.columns[c]? = some col) :
    ∃ out, RecordBatch.tryNew ⟨batch.schema.fields ++ [⟨outputName, .float32, true, []⟩], []⟩
      (batch.columns ++
        [Column.ofFloat32 (col.cells.map (Kernels.distance fpu metric query))]) = .ok out := by
  refine batch.tryNew_append ⟨rfl, ?_, fun h => nomatch (h : true = false)⟩
  rw [← column_len (mem_of_getElem? hcol)]
  simp [Column.ofFloat32, Column.len]

theorem vectorDistance_of_fits (hcol : batch.columns[c]? = some col)
    (hfits : VectorFits col query) :
    Kernels.vectorDistance fpu batch c query metric outputName =
      RecordBatch.tryNew ⟨batch.schema.fields ++ [⟨outputName, .float32, true, []⟩], []⟩
        (batch.columns ++
          [Column.ofFloat32 (col.cells.map (Kernels.distance fpu metric query))]) := by
  obtain ⟨name, nullable, metadata, size, htype, hsize, hquery⟩ := hfits
  rw [Kernels.vectorDistance, Kernels.column, hcol, ok_bind, htype]
  dsimp only
  rw [if_neg (not_not.mpr rfl), if_neg (not_lt.mpr hsize), if_neg (not_not.mpr hquery)]

theorem vectorDistance_of_not_fits (fpu : FloatUnit) (metric : DistanceMetric)
    (outputName : String) (hcol : batch.columns[c]? = some col) (hfits : ¬ VectorFits col query) :
    ∃ e, Kernels.vectorDistance fpu batch c query metric outputName = .error e := by
  rw [Kernels.vectorDistance, Kernels.column, hcol, ok_bind]
  split
  · next name itemType nullable metadata size htype =>
    split
    · exact ⟨_, rfl⟩
    · next hitem =>
      split
      · exact ⟨_, rfl⟩
      · next hsize =>
        split
        · exact ⟨_, rfl⟩
        · next hquery =>
          refine absurd ⟨name, nullable, metadata, size, ?_, not_lt.mp hsize,
            not_not.mp hquery⟩ hfits
          rw [htype, not_not.mp hitem]
  · exact ⟨_, rfl⟩

/-- **Vector plumbing.**  On a conforming backend the device attempt agrees with
the reference distance. -/
theorem vectorDistanceOnDevice_agrees (conforms : backend.Conforms fpu) :
    DeviceOutcome.Agrees
      (backend.vectorDistanceOnDevice batch c query metric outputName)
      (Kernels.vectorDistance fpu batch c query metric outputName) := by
  rw [vectorDistanceOnDevice]
  cases hentry : batch.entries[c]? with
  | none =>
    obtain ⟨e, he⟩ := subBatch_error ⟨[c], false⟩ (mem_singleton.mpr rfl)
      (getElem?_eq_none_iff.mp hentry)
    rw [he, Kernels.vectorDistance, Kernels.column, columns_getElem?, hentry]
    trivial
  | some entry =>
    have hplanned : [c].mapM (fun i => batch.entries[i]?) = some [entry] := by
      simp [hentry]
    obtain ⟨sub, hsub, cut⟩ := subBatch_eq_ok ⟨[c], false⟩ hplanned
      (cons_ne_nil _ _)
    have hentries : sub.entries = [entry] := by
      obtain ⟨planned, hplanned', h⟩ := cut.entries
      rw [hplanned] at hplanned'
      cases hplanned'
      exact h
    have hcol : batch.columns[c]? = some entry.2 := by
      rw [columns_getElem?, hentry]
      rfl
    have hsubCol : sub.columns[0]? = some entry.2 := by
      rw [columns_getElem?, hentries]
      rfl
    rw [hsub, ok_bind]
    refine onHost_agrees (conforms.vectorDistance sub 0 query metric outputName) ?_ ?_
    · intro devOut out hout hsame
      by_cases hfits : VectorFits entry.2 query
      · rw [vectorDistance_of_fits hsubCol hfits] at hout
        obtain ⟨-, hcolumns, -⟩ := tryNew_ok hout
        have hdev : devOut.columns = sub.columns ++
            [Column.ofFloat32 (entry.2.cells.map (Kernels.distance fpu metric query))] := by
          rw [← hcolumns, RecordBatch.columns, hsame.1]
          rfl
        have hlast : devOut.columns[devOut.numColumns - 1]? =
            some (Column.ofFloat32 (entry.2.cells.map (Kernels.distance fpu metric query))) := by
          rw [← length_columns, ← getLast?_eq_getElem?, hdev,
            getLast?_concat]
        rw [distanceOutput, columnAt, hlast, ok_bind,
          vectorDistance_of_fits hcol hfits]
        exact SameResult.refl _
      · obtain ⟨e, he⟩ := vectorDistance_of_not_fits fpu metric outputName
          hsubCol hfits
        rw [he] at hout
        cases hout
    · intro e he
      by_cases hfits : VectorFits entry.2 query
      · obtain ⟨out, hout⟩ := append_distance_eq_ok fpu query metric outputName hsubCol
        rw [vectorDistance_of_fits hsubCol hfits, hout] at he
        cases he
      · exact vectorDistance_of_not_fits fpu metric outputName hcol hfits

end VectorDistance

end GpuBackend

/-! ## The operators -/

theorem OperatorState.filterProject_sameResult (conforms : backend.Conforms fpu)
    (state : OperatorState D) (batch : RecordBatch) (predicate : Predicate)
    (hne : projection ≠ []) :
    SameResult (state.filterProject backend batch predicate projection).1
      (Kernels.filterProject batch predicate projection) :=
  finish_sameResult (agrees_of_noDevicePath
    (GpuBackend.filterProjectOnDevice_agrees conforms hne))

theorem OperatorState.aggregate_sameResult (conforms : backend.Conforms fpu)
    (state : OperatorState D) (batch : RecordBatch) (spec : AggregateSpec) :
    SameResult (state.aggregate fpu backend batch spec).1 (Kernels.aggregate fpu batch spec) :=
  finish_sameResult (agrees_of_noDevicePath (GpuBackend.aggregateOnDevice_agrees conforms))

theorem OperatorState.vectorDistance_sameResult (conforms : backend.Conforms fpu)
    (state : OperatorState D) (batch : RecordBatch) (column : Nat) (query : List F32)
    (metric : DistanceMetric) (outputName : String) :
    SameResult (state.vectorDistance fpu backend batch column query metric outputName).1
      (Kernels.vectorDistance fpu batch column query metric outputName) :=
  finish_sameResult (agrees_of_noDevicePath
    (GpuBackend.vectorDistanceOnDevice_agrees conforms))

/-- **The column plumbing preserves results.**  On every backend that declines or
agrees with the reference sub-batch by sub-batch, `filter_project`, `aggregate`
and `vector_distance` return the reference's columns on the whole batch, from any
operator state. -/
theorem operators_sameResult {fpu : FloatUnit} {backend : GpuBackend D}
    (conforms : backend.Conforms fpu) (state : OperatorState D) (batch : RecordBatch) :
    (∀ predicate projection, projection ≠ [] →
      SameResult (state.filterProject backend batch predicate projection).1
        (Kernels.filterProject batch predicate projection)) ∧
    (∀ spec, SameResult (state.aggregate fpu backend batch spec).1
      (Kernels.aggregate fpu batch spec)) ∧
    ∀ column query metric outputName,
      SameResult (state.vectorDistance fpu backend batch column query metric outputName).1
        (Kernels.vectorDistance fpu batch column query metric outputName) :=
  ⟨fun predicate _ hne => state.filterProject_sameResult conforms batch predicate hne,
    fun spec => state.aggregate_sameResult conforms batch spec,
    fun column query metric outputName =>
      state.vectorDistance_sameResult conforms batch column query metric outputName⟩

/-- The reference kernels behind the device interface: a device that always runs
and always agrees. -/
def referenceBackend (fpu : FloatUnit) (order : MapOrder) : GpuBackend RecordBatch where
  kind := .cuda
  upload := .ok
  download := .ok
  synchronize := .ok ()
  filterProject := Kernels.filterProject
  hashJoin := Kernels.hashJoin order
  aggregate := Kernels.aggregate fpu
  vectorDistance := Kernels.vectorDistance fpu
  supportsPredicate := fun _ => true
  supportsHashJoin := true
  supportsAggregate := true

theorem referenceBackend_roundTrip (fpu : FloatUnit) (order : MapOrder) (sub : RecordBatch)
    (kernel : RecordBatch → Result RecordBatch) :
    (referenceBackend fpu order).roundTrip sub kernel = kernel sub := by
  rw [GpuBackend.roundTrip, referenceBackend]
  cases h : kernel sub with
  | error e | ok out => simp [h]

theorem referenceBackend_conforms (fpu : FloatUnit) (order : MapOrder) :
    (referenceBackend fpu order).Conforms fpu where
  filterProject := fun _ _ _ =>
    .inr (referenceBackend_roundTrip fpu order _ _ ▸ SameResult.refl _)
  aggregate := fun _ _ =>
    .inr (referenceBackend_roundTrip fpu order _ _ ▸ SameResult.refl _)
  vectorDistance := fun _ _ _ _ _ =>
    .inr (referenceBackend_roundTrip fpu order _ _ ▸ SameResult.refl _)

/-- A two-column batch: a nullable `Int64` next to a host-only `Utf8`. -/
def mixedBatch : RecordBatch :=
  .ofEntries
    [(⟨"id", .int64, true, []⟩, Column.ofInt64 [some 1, none, some 3]),
      (⟨"name", .utf8, true, []⟩,
        ⟨.utf8, [some (.utf8 "a"), some (.utf8 "b"), none], by simp [Cell.hasType]⟩)] 3 (by decide)

/-- A float unit for runs without float columns. -/
def noFloats : FloatUnit :=
  ⟨fun a _ => a, fun a _ => a, fun a _ => a, fun _ _ => 0, fun _ _ => 0⟩

/-- A map that hands out its entries in insertion order. -/
def MapOrder.insertion : MapOrder := ⟨id, fun _ => .refl _⟩

theorem operators_sameResult_mixed :
    SameResult
      (OperatorState.filterProject {} (referenceBackend noFloats .insertion) mixedBatch
        (.compare 0 .gt (.int64 1)) [1, 0, 1]).1
      (Kernels.filterProject mixedBatch (.compare 0 .gt (.int64 1)) [1, 0, 1]) ∧
    (Kernels.filterProject mixedBatch (.compare 0 .gt (.int64 1)) [1, 0, 1]).toOption.map
      RecordBatch.numRows = some 1 :=
  ⟨(operators_sameResult (referenceBackend_conforms noFloats .insertion) {} mixedBatch).1 _ _
    (by decide), by decide⟩

end OxideLake
