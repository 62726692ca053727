import OxideLake.Compute.JoinRun
import OxideLake.Device.Cuda.KernelLimits

/-!
# Operators on the CUDA backend, at any size

`try_device` sends a batch to the CPU reference only on an `Unsupported` error.  The limits of the
CUDA backend are execution errors, so an operator whose input is past them fails where the
reference succeeds: each operator returns a batch exactly if its input fits.
-/

namespace OxideLake

open List Cuda OxideLake.Filter Partial RecordBatch Kernels GpuBackend SidePlan CudaBackend

variable {entries : List (Field × Column)} {sub ref devOut : RecordBatch} {total : ℕ}
  {entry : Field × Column} {layout : Layout} {mask : List (Option Bool)} {plan : SidePlan}
  {projected : List (ℕ × Bool)} {remapped : Predicate}

/-- `impl GpuBackend for CudaBackend`. -/
def CudaBackend.toGpuBackend (backend : CudaBackend) : GpuBackend DeviceBatch where
  kind := .cuda
  upload := backend.upload
  download := download
  synchronize := .ok ()
  filterProject := backend.filterProject
  hashJoin := backend.hashJoin
  aggregate := backend.aggregate
  vectorDistance := backend.vectorDistance
  supportsPredicate := fun _ => true
  supportsHashJoin := true
  supportsAggregate := true

/-- The columns of a batch that can travel to the device have their arrays, and so have the row ids
of as many rows as the device can count; row ids have no bitmap. -/
structure Layout.Lays (layout : Layout) (batch : RecordBatch) : Prop where
  columns : ∀ column ∈ batch.columns, isDeviceEligible column.dataType = true →
    (layout.array column).isSome
  rowIds : batch.numRows < 2 ^ 32 → ∃ found,
    layout.array (rowIdColumn batch.numRows) = some found ∧ found.data.nulls = none

theorem deviceEligible_eq (dt : DataType) : deviceEligible dt = isDeviceEligible dt := by
  cases dt <;> simp [deviceEligible, isDeviceEligible, primitiveWidth]

/-! ## Settled device attempts -/

section Attempts

variable {D : Type} {cond : Prop} {answer : Result RecordBatch}
  {post : RecordBatch → Prop}

/-- A soft failure declines. -/
theorem tryDevice_settled (h : Settled Hard cond answer post) :
    Settled Hard cond (tryDevice answer) fun outcome => ∃ out, outcome = .ran out ∧ post out := by
  constructor
  · intro hcond
    obtain ⟨out, rfl, hpost⟩ := h.1 hcond
    exact ⟨.ran out, rfl, out, rfl, hpost⟩
  · intro hcond
    obtain ⟨e, rfl, hhard⟩ := h.2 hcond
    refine ⟨e, ?_, hhard⟩
    rw [tryDevice, hhard]
    rfl

theorem onHost_settled (h : Settled Hard cond answer post)
    {assemble : RecordBatch → Result RecordBatch}
    (hassemble : ∀ out, cond → post out → ∃ result, assemble out = .ok result) :
    Settled Hard cond (tryDevice answer >>= fun outcome => outcome.onHost assemble)
      fun outcome => ∃ out, outcome = .ran out := by
  have hrest : ∀ outcome, cond → (∃ out, outcome = DeviceOutcome.ran out ∧ post out) →
      Settled Hard True (outcome.onHost assemble) fun outcome => ∃ out, outcome = .ran out := by
    rintro _ hcond ⟨out, rfl, hpost⟩
    obtain ⟨result, hresult⟩ := hassemble out hcond hpost
    rw [DeviceOutcome.onHost, hresult]
    exact .ok trivial ⟨result, rfl⟩
  exact ((tryDevice_settled h).bind hrest).congr (and_true _).to_iff fun _ => id

variable {state : OperatorState D} {reference : Unit → Result RecordBatch}

/-- **An operator call** succeeds exactly if its device attempt does. -/
theorem finish_ok_iff {rowsIn : ℕ} {outcome : Result DeviceOutcome}
    (h : Settled Hard cond outcome fun outcome => ∃ out, outcome = .ran out) :
    (∃ out, (state.finish rowsIn outcome reference).1 = .ok out) ↔ cond := by
  constructor
  · rintro ⟨out, hout⟩
    by_contra hcond
    obtain ⟨e, rfl, -⟩ := h.2 hcond
    cases hout
  · intro hcond
    obtain ⟨_, rfl, out, rfl⟩ := h.1 hcond
    exact ⟨out, rfl⟩

theorem finish_declined {rowsIn : ℕ} {why : EngineError} (href : reference () = .ok ref) :
    ∃ out, (state.finish rowsIn (.ok (.declined why)) reference).1 = .ok out :=
  ⟨ref, by simp only [OperatorState.finish, href]⟩

end Attempts

variable (backend : CudaBackend)

theorem roundTrip_eq (sub : RecordBatch) (kernel : DeviceBatch → Result DeviceBatch) :
    backend.toGpuBackend.roundTrip sub kernel =
      backend.upload sub >>= fun dev => kernel dev >>= download := by
  refine congrArg (backend.upload sub >>= ·) (funext fun dev => ?_)
  cases kernel dev with
  | error e => rfl
  | ok out =>
    show (download out >>= fun host => _) = download out
    cases download out with
    | error e | ok host => rfl

/-! ## Row ids -/

section RowIds

variable {layout : Layout} {batch : RecordBatch} {plan : SidePlan}

theorem Layout.Lays.rowIds_isSome (h : layout.Lays batch) (hn : batch.numRows < 2 ^ 32) :
    (layout.array (rowIdColumn batch.numRows)).isSome := by
  obtain ⟨found, hfound, -⟩ := h.rowIds hn
  rw [hfound]
  rfl

theorem Layout.Lays.rowIds_noBitmap (h : layout.Lays batch) (hn : batch.numRows < 2 ^ 32) :
    ¬ layout.HasBitmap (rowIdColumn batch.numRows) := by
  obtain ⟨found, hfound, hnulls⟩ := h.rowIds hn
  rintro ⟨found', hfound', hsome⟩
  rw [hfound] at hfound'
  cases hfound'
  rw [hnulls] at hsome
  cases hsome

theorem Layout.Lays.rowIds_gathers (h : layout.Lays batch) (hn : batch.numRows < 2 ^ 32)
    (htotal : total < 2 ^ 32) (hentry : entry ∈ plan.rowIdEntry batch.numRows) :
    layout.Gathers total entry := by
  rw [rowIdEntry] at hentry
  split at hentry
  · cases mem_singleton.mp hentry
    have hwidth : (rowIdColumn batch.numRows).rowBytes = 8 := rfl
    refine ⟨⟨?_, .inr (.inl (h.rowIds_noBitmap hn))⟩, ?_⟩
    · rw [hwidth]
      omega
    · rw [hwidth]
      omega
  · cases hentry

theorem Layout.Lays.cut_isSome (h : layout.Lays batch) (hn : batch.numRows < 2 ^ 32)
    (cut : Cut plan batch sub)
    (heligible : ∀ column ∈ sub.columns, isDeviceEligible column.dataType = true) :
    ∀ column ∈ sub.columns, (layout.array column).isSome := by
  intro column hcolumn
  have hcan := heligible column hcolumn
  obtain ⟨planned, hplanned, hentries⟩ := cut.entries
  obtain ⟨entry, hentry, rfl⟩ := mem_map.mp hcolumn
  rw [hentries] at hentry
  rcases mem_append.mp hentry with hentry | hentry
  · obtain ⟨c, -, hc⟩ := mapM_some_mem hplanned hentry
    exact h.columns entry.2 (mem_map_of_mem (mem_of_getElem? hc)) hcan
  · rw [rowIdEntry] at hentry
    split at hentry
    · cases mem_singleton.mp hentry
      exact h.rowIds_isSome hn
    · cases hentry

theorem cut_ne_nil (cut : Cut plan batch sub) (hne : plan.deviceCols ≠ []) :
    sub.entries ≠ [] := by
  obtain ⟨planned, hplanned, hentries⟩ := cut.entries
  intro hnil
  rw [hnil] at hentries
  have hlength := mapM_some_length hplanned
  rw [(append_eq_nil_iff.mp hentries.symm).1] at hlength
  exact hne (length_eq_zero_iff.mp hlength.symm)

theorem cut_eligible (cut : Cut plan batch sub)
    (hplan : ∀ c ∈ plan.deviceCols, ∀ entry, batch.entries[c]? = some entry →
      isDeviceEligible entry.2.dataType = true) :
    ∀ column ∈ sub.columns, isDeviceEligible column.dataType = true := by
  intro column hcolumn
  obtain ⟨planned, hplanned, hentries⟩ := cut.entries
  obtain ⟨entry, hentry, rfl⟩ := mem_map.mp hcolumn
  rw [hentries] at hentry
  rcases mem_append.mp hentry with hentry | hentry
  · obtain ⟨c, hmem, hc⟩ := mapM_some_mem hplanned hentry
    exact hplan c hmem entry hc
  · rw [rowIdEntry] at hentry
    split at hentry
    · cases mem_singleton.mp hentry
      rfl
    · cases hentry

end RowIds

/-! ## Filters -/

section Filter

variable {batch : RecordBatch} {predicate : Predicate} {projection : List ℕ}

/-- What the device path of a filter has room for. -/
structure FilterFits (batch : RecordBatch) (predicate : Predicate) (projection : List ℕ) :
    Prop where
  projects : projection ≠ []
  rows : batch.numRows < 2 ^ 32
  gathers : ∀ i ∈ projection, ∀ entry, batch.entries[i]? = some entry →
    isDeviceEligible entry.1.dataType = true → backend.layout.Gathers
      (keptRows backend.filter.compareF64 batch predicate).length entry

theorem keeps_remap (cut : Cut plan batch sub) (h : remapPredicate plan predicate = .ok remapped)
    (compareF64 : ℕ → F64 → F64 → Bool) :
    keeps compareF64 sub remapped = keeps compareF64 batch predicate := by
  induction predicate generalizing remapped with
  | compare c op literal =>
    rw [remapPredicate] at h
    split at h
    · next k hk =>
      cases h
      funext i
      rw [keeps, keeps, cut.column_at hk]
    · cases h
  | and left right ihLeft ihRight =>
    rw [remapPredicate] at h
    obtain ⟨l, hl, h⟩ := bind_eq_ok_iff.mp h
    obtain ⟨r, hr, h⟩ := bind_eq_ok_iff.mp h
    cases h
    funext i
    rw [keeps, keeps, ihLeft hl, ihRight hr]

theorem keptRows_remap (cut : Cut plan batch sub) (h : remapPredicate plan predicate = .ok remapped)
    (compareF64 : ℕ → F64 → F64 → Bool) :
    keptRows compareF64 sub remapped = keptRows compareF64 batch predicate := by
  rw [keptRows, keptRows, keeps_remap cut h, cut.numRows]

theorem evaluatePredicate_eligible (h : evaluatePredicate batch predicate = .ok mask) :
    ∀ c ∈ predicate.columns, ∀ column, batch.columns[c]? = some column →
      isDeviceEligible column.dataType = true := by
  induction predicate generalizing mask with
  | compare c op literal =>
    intro c' hc' column hcolumn
    cases mem_singleton.mp hc'
    obtain ⟨column', hcolumn', h⟩ := bind_eq_ok_iff.mp h
    rw [Kernels.column_ok hcolumn'] at hcolumn
    cases hcolumn
    split at h
    · next htype =>
      rw [htype]
      cases literal <;> rfl
    · cases h
  | and left right ihLeft ihRight =>
    obtain ⟨l, hl, h⟩ := bind_eq_ok_iff.mp h
    obtain ⟨r, hr, -⟩ := bind_eq_ok_iff.mp h
    intro c hc
    rcases mem_append.mp hc with hc | hc
    · exact ihLeft hl c hc
    · exact ihRight hr c hc

/-- The projected columns, each with whether it travels. -/
def marked (projection : List ℕ) (entries : List (Field × Column)) : List (ℕ × Bool) :=
  zipWith (fun i entry => (i, deviceEligible entry.1.dataType)) projection entries

theorem mapM_marked
    (h : List.Forall₂ (fun i entry => batch.entries[i]? = some entry) projection entries) :
    (projection.mapM fun i => (do
      let field ← fieldAt batch.schema i
      pure (i, deviceEligible field.dataType) : Result (ℕ × Bool))) =
        .ok (marked projection entries) := by
  induction h with
  | nil => rfl
  | @cons i entry projection entries hentry _ ih =>
    have hfield : fieldAt batch.schema i = .ok entry.1 := by
      rw [fieldAt, fields_getElem?, hentry]
      rfl
    rw [mapM_cons, ih, hfield]
    rfl

theorem marked_forall₂
    (h : List.Forall₂ (fun i entry => batch.entries[i]? = some entry) projection entries) :
    List.Forall₂ (fun mark entry => batch.entries[mark.1]? = some entry ∧
      mark.2 = deviceEligible entry.1.dataType) (marked projection entries) entries := by
  induction h with
  | nil => exact .nil
  | cons hentry _ ih => exact .cons ⟨hentry, rfl⟩ ih

theorem deviceEntries_marked {projection : List ℕ} (h : projection.length = entries.length) :
    deviceEntries (marked projection entries) entries =
      entries.filter fun entry => deviceEligible entry.1.dataType := by
  induction projection generalizing entries with
  | nil => rw [eq_nil_of_length_eq_zero h.symm]; rfl
  | cons i projection ih =>
    cases entries with
    | nil => cases h
    | cons entry entries =>
      have hrest := ih (Nat.succ.inj h)
      simp only [deviceEntries, marked, zipWith_cons_cons, zip_cons_cons,
        filter_cons] at hrest ⊢
      split
      · rw [map_cons, hrest]
      · exact hrest

/-- Row ids of the batch, as a gather of `total` rows returns them. -/
def IsRowIds (batch : RecordBatch) (total : ℕ) (ids : Column) : Prop :=
  ∃ rows : List ℕ, rows.length = total ∧ (∀ row ∈ rows, row < batch.numRows) ∧
    ids = (rowIdColumn batch.numRows).gather (rows.map some)

theorem IsRowIds.takeRows {ids : Column} (h : IsRowIds batch total ids)
    (hfits : FieldFits batch.numRows entry.1 entry.2) :
    ∃ column, OxideLake.takeRows entry.2 ids = .ok column ∧ FieldFits total entry.1 column := by
  obtain ⟨rows, rfl, hrows, rfl⟩ := h
  exact ⟨_, takeRows_gather hfits.2.1 batch.numRows_lt hrows, hfits.gather hrows⟩

/-- Reassembly of a device output whose columns have the fields of the device entries. -/
theorem reassemble_ok {rowIds : Option Column} {tail : List Field} (nextDevice : ℕ)
    (hproj : Projects batch projected entries) (hids : (∃ entry ∈ projected, entry.2 = false) →
      ∃ ids, rowIds = some ids ∧ IsRowIds batch devOut.numRows ids)
    (hdev : (devOut.entries.drop nextDevice).map Prod.fst =
      (deviceEntries projected entries).map Prod.fst ++ tail) :
    ∃ out, reassemble batch devOut rowIds nextDevice projected = .ok out ∧
      out.length = projected.length ∧ ∀ entry ∈ out, FieldFits devOut.numRows entry.1 entry.2 := by
  induction hproj generalizing nextDevice with
  | nil => exact ⟨[], rfl, rfl, nofun⟩
  | @cons entry found projected entries hentry _ ih =>
    obtain ⟨i, eligible⟩ := entry
    have hids' : (∃ entry ∈ projected, entry.2 = false) →
        ∃ ids, rowIds = some ids ∧ IsRowIds batch devOut.numRows ids :=
      fun ⟨e, he, hfalse⟩ => hids ⟨e, mem_cons_of_mem _ he, hfalse⟩
    have hfield : fieldAt batch.schema i = .ok found.1 := by
      rw [fieldAt, fields_getElem?, hentry]
      rfl
    rw [reassemble, hfield, ok_bind]
    cases eligible with
    | true =>
      obtain ⟨head, hhead, hfst⟩ : ∃ head, devOut.entries[nextDevice]? = some head ∧
          head.1 = found.1 := by
        have h := congrArg List.head? hdev
        rw [head?_map, head?_drop] at h
        exact Option.map_eq_some_iff.mp h
      have hrest : (devOut.entries.drop (nextDevice + 1)).map Prod.fst =
          (deviceEntries projected entries).map Prod.fst ++ tail := by
        have h := congrArg List.tail hdev
        rwa [← map_tail, tail_drop] at h
      obtain ⟨out, hout, hlen, hfits⟩ := ih (nextDevice + 1) hids' hrest
      have hcolumn : columnAt devOut nextDevice = .ok head.2 := by
        rw [columnAt, columns_getElem?, hhead]
        rfl
      refine ⟨(found.1, head.2) :: out, ?_, congrArg (· + 1) hlen, ?_⟩
      · rw [if_pos rfl, hcolumn, ok_bind, hout]
        rfl
      · exact forall_mem_cons.mpr
          ⟨hfst ▸ devOut.fits head (mem_of_getElem? hhead), hfits⟩
    | false =>
      obtain ⟨out, hout, hlen, hfits⟩ := ih nextDevice hids' hdev
      have hcol : columnAt batch i = .ok found.2 := by
        rw [columnAt, columns_getElem?, hentry]
        rfl
      obtain ⟨ids, rfl, hrowIds⟩ := hids ⟨_, mem_cons_self, rfl⟩
      obtain ⟨column, htake, hcolumn⟩ :=
        hrowIds.takeRows (batch.fits found (mem_of_getElem? hentry))
      refine ⟨(found.1, column) :: out, ?_, congrArg (· + 1) hlen, ?_⟩
      · rw [if_neg Bool.false_ne_true]
        dsimp only
        rw [hcol, ok_bind, htake, ok_bind, hout]
        rfl
      · exact forall_mem_cons.mpr ⟨hcolumn, hfits⟩

theorem CameBack.fields (hback : CameBack layout total entries devOut) :
    devOut.entries.map Prod.fst = entries.map Prod.fst := by
  rw [← forall₂_eq_eq_eq, forall₂_map_left_iff, forall₂_map_right_iff]
  exact hback.returned.flip.imp fun out entry hout => hout.1

theorem CameBack.rowIds_at {k : ℕ} (hback : CameBack layout total entries devOut)
    (hk : entries[k]? = some (⟨rowIdName, .int64, false, []⟩, rowIdColumn batch.numRows))
    (hbitmap : ¬ layout.HasBitmap (rowIdColumn batch.numRows)) :
    ∃ ids, columnAt devOut k = .ok ids ∧ IsRowIds batch devOut.numRows ids := by
  obtain ⟨out, hout, -, hgather⟩ := forall₂_getElem? hback.returned hk
  obtain ⟨rows, hlength, hrows, hids⟩ := hgather rfl hbitmap
  refine ⟨out.2, ?_, rows, hlength.trans hback.numRows.symm, fun row hrow => ?_, hids⟩
  · rw [columnAt, columns_getElem?, hout]
    rfl
  · have := hrows row hrow
    simpa [rowIdColumn] using this

theorem rowIdsOut_ok
    (hback : CameBack layout total (entries ++ plan.rowIdEntry batch.numRows) devOut)
    (hbitmap : ¬ layout.HasBitmap (rowIdColumn batch.numRows)) :
    ∃ rowIds, rowIdsOut plan devOut = .ok rowIds ∧ (plan.rowIds = true →
      ∃ ids, rowIds = some ids ∧ IsRowIds batch devOut.numRows ids) := by
  cases hplan : plan.rowIds with
  | false => exact ⟨none, by rw [rowIdsOut, hplan]; rfl, nofun⟩
  | true =>
    rw [rowIdEntry, if_pos hplan] at hback
    have hlast : devOut.numColumns - 1 = entries.length := by
      rw [RecordBatch.numColumns, ← hback.returned.length_eq, length_append]
      rfl
    obtain ⟨ids, hids, hrowIds⟩ := hback.rowIds_at (k := entries.length) (by simp) hbitmap
    refine ⟨some ids, ?_, fun _ => ⟨ids, rfl, hrowIds⟩⟩
    rw [rowIdsOut, if_pos hplan, hlast, hids]
    rfl

/-- **The output of a filter** is assembled from what came back. -/
theorem filterOutput_ok (hproj : Projects batch projected entries) (hne : projected ≠ [])
    (hback : CameBack layout total (deviceEntries projected entries ++
      (filterPlan predicate projected).rowIdEntry batch.numRows) devOut)
    (hbitmap : ¬ layout.HasBitmap (rowIdColumn batch.numRows)) :
    ∃ out, filterOutput (filterPlan predicate projected) batch projected devOut =
      .ok out := by
  obtain ⟨rowIds, hrowIds, hids⟩ := rowIdsOut_ok hback hbitmap
  have hfields : (devOut.entries.drop 0).map Prod.fst =
      (deviceEntries projected entries).map Prod.fst ++
        ((filterPlan predicate projected).rowIdEntry batch.numRows).map Prod.fst := by
    rw [drop_zero, hback.fields, map_append]
  have hplan : (∃ entry ∈ projected, entry.2 = false) →
      (filterPlan predicate projected).rowIds = true := by
    rintro ⟨entry, hentry, hfalse⟩
    exact any_eq_true.mpr ⟨entry, hentry, by simp [hfalse]⟩
  obtain ⟨out, hout, hlen, hfits⟩ := reassemble_ok 0 hproj (fun h => hids (hplan h)) hfields
  rw [filterOutput, hrowIds, ok_bind, hout, ok_bind]
  refine ⟨_, tryNew_eq_ok [] (fun hnil => hne ?_) hfits devOut.numRows_lt⟩
  rw [← length_eq_zero_iff, ← hlen, hnil]
  rfl

theorem marked_ne_nil {projection : List ℕ} (hlen : projection.length = entries.length) :
    marked projection entries ≠ [] ↔ projection ≠ [] := by
  rw [Ne, Ne, ← length_eq_zero_iff, marked, length_zipWith, ← hlen, Nat.min_self,
    length_eq_zero_iff]

theorem deviceEntries_ne_nil (hproj : Projects batch projected entries) :
    deviceEntries projected entries ++
      (filterPlan predicate projected).rowIdEntry batch.numRows ≠ [] ↔ projected ≠ [] := by
  cases hproj with
  | nil => simp [deviceEntries, filterPlan, rowIdEntry]
  | @cons entry out projected entries hentry hrest =>
    refine iff_of_true ?_ (cons_ne_nil _ _)
    cases heligible : entry.2 with
    | true => simp [deviceEntries, heligible]
    | false => simp [filterPlan, rowIdEntry, heligible]

theorem picked_gathers_iff (hlays : layout.Lays batch) (hn : batch.numRows < 2 ^ 32)
    (h : List.Forall₂ (fun i entry => batch.entries[i]? = some entry) projection entries)
    (htotal : total < 2 ^ 32) (plan : SidePlan) :
    (∀ entry ∈ deviceEntries (marked projection entries) entries ++ plan.rowIdEntry batch.numRows,
        layout.Gathers total entry) ↔
      ∀ i ∈ projection, ∀ entry, batch.entries[i]? = some entry →
        isDeviceEligible entry.1.dataType = true → layout.Gathers total entry := by
  rw [deviceEntries_marked h.length_eq, forall_mem_append,
    and_iff_left fun entry hentry => hlays.rowIds_gathers hn htotal hentry]
  rw [← forall_right_iff h (q := fun entry => isDeviceEligible entry.1.dataType = true →
    layout.Gathers total entry) fun i entry hentry => by simp [hentry]]
  constructor
  · exact fun hall entry hentry heligible =>
      hall entry (mem_filter.mpr ⟨hentry, (deviceEligible_eq _).trans heligible⟩)
  · intro hall entry hentry
    obtain ⟨hmem, heligible⟩ := mem_filter.mp hentry
    exact hall entry hmem ((deviceEligible_eq _).symm.trans heligible)

theorem filterPlan_eligible (hmask : evaluatePredicate batch predicate = .ok mask)
    (hentries : List.Forall₂ (fun i entry => batch.entries[i]? = some entry) projection entries) :
    ∀ c ∈ (filterPlan predicate (marked projection entries)).deviceCols, ∀ entry,
      batch.entries[c]? = some entry → isDeviceEligible entry.2.dataType = true := by
  intro c hc entry hentry
  rcases filterPlan_mem.mp hc with hpredicate | hprojection
  · exact evaluatePredicate_eligible hmask c hpredicate entry.2
      (by rw [columns_getElem?, hentry]; rfl)
  · obtain ⟨found, -, hfound, hmark⟩ := forall₂_exists_right (marked_forall₂ hentries) hprojection
    rw [hentry] at hfound
    cases hfound
    rw [← deviceEligible_eq, (batch.fits entry (mem_of_getElem? hentry)).1, ← hmark]

theorem filterRoundTrip_settled (hlays : backend.layout.Lays batch)
    (hmask : evaluatePredicate batch predicate = .ok mask)
    (hentries : List.Forall₂ (fun i entry => batch.entries[i]? = some entry) projection entries)
    {devCols : List ℕ}
    (cut : Cut (filterPlan predicate (marked projection entries)) batch sub)
    (hremap : remapPredicate (filterPlan predicate (marked projection entries)) predicate =
      .ok remapped) (hread : devCols.mapM (fun k => sub.entries[k]?) =
      some (deviceEntries (marked projection entries) entries ++ (filterPlan predicate
        (marked projection entries)).rowIdEntry batch.numRows)) :
    Settled Hard (FilterFits backend batch predicate projection)
      (backend.toGpuBackend.roundTrip sub fun dev => backend.filterProject dev remapped devCols)
      (CameBack backend.layout (keptRows backend.filter.compareF64 batch predicate).length
        (deviceEntries (marked projection entries) entries ++ (filterPlan predicate
          (marked projection entries)).rowIdEntry batch.numRows)) := by
  have hproj : Projects batch (marked projection entries) entries :=
    (marked_forall₂ hentries).imp fun _ _ => And.left
  have heligible := cut_eligible cut (filterPlan_eligible hmask hentries)
  have hsubMask : evaluatePredicate sub remapped = .ok mask :=
    (hmask ▸ evaluatePredicate_remap cut hremap).ok_right
  have hround := (upload_settled backend heligible).bind fun dev _ ⟨columns, hdev⟩ =>
    filterProject_settled backend hdev hsubMask (mapM_eq_some_iff.mp hread)
  rw [← roundTrip_eq backend sub fun dev => backend.filterProject dev remapped devCols,
    keptRows_remap cut hremap, cut.numRows] at hround
  have hle := length_keptRows_le backend.filter.compareF64 batch predicate
  refine hround.congr ?_ fun _ => id
  constructor
  · rintro ⟨-, hn, hne, hgathers⟩
    exact ⟨(marked_ne_nil hentries.length_eq).mp ((deviceEntries_ne_nil hproj).mp hne), hn,
      (picked_gathers_iff hlays hn hentries (hle.trans_lt hn) _).mp hgathers⟩
  · rintro ⟨hne, hn, hgathers⟩
    exact ⟨hlays.cut_isSome hn cut heligible, hn,
      (deviceEntries_ne_nil hproj).mpr ((marked_ne_nil hentries.length_eq).mpr hne),
      (picked_gathers_iff hlays hn hentries (hle.trans_lt hn) _).mpr hgathers⟩

/-- When the device path of a filter answers. -/
theorem filterProjectOnDevice_settled (hlays : backend.layout.Lays batch)
    (href : Kernels.filterProject batch predicate projection = .ok ref) :
    Settled Hard (FilterFits backend batch predicate projection)
      (backend.toGpuBackend.filterProjectOnDevice batch predicate projection)
      fun outcome => ∃ out, outcome = .ran out := by
  obtain ⟨mask, hmask, href⟩ := bind_eq_ok_iff.mp href
  obtain ⟨whole, hwhole, -⟩ := bind_eq_ok_iff.mp href
  have hentries := mapM_eq_some_iff.mp (mapM_of_project hwhole)
  have hproj : Projects batch (marked projection whole.entries) whole.entries :=
    (marked_forall₂ hentries).imp fun _ _ => And.left
  have hcols : ∀ c ∈ (filterPlan predicate (marked projection whole.entries)).deviceCols,
      c < batch.numColumns := fun c hc => (filterPlan_mem.mp hc).elim
    (evaluatePredicate_columns_lt hmask c) fun h => hproj.lt_numColumns h
  obtain ⟨planned, hplanned⟩ := mapM_getElem?_eq_some.mpr hcols
  obtain ⟨sub, hsub, cut⟩ := subBatch_eq_ok _ hplanned (filterPlan_ne_nil _ _)
  obtain ⟨remapped, hremap⟩ := remapPredicate_eq_ok
    (filterPlan predicate (marked projection whole.entries)) fun c hc =>
      filterPlan_mem.mpr (.inl hc)
  obtain ⟨devCols, hdevCols, hread⟩ := devProjection_spec cut hproj fun entry hentry heligible =>
    filterPlan_mem.mpr (.inr (heligible ▸ hentry))
  rw [filterProjectOnDevice, mapM_marked hentries, ok_bind]
  dsimp only
  rw [hsub, ok_bind, hremap, ok_bind, hdevCols, ok_bind]
  exact onHost_settled (filterRoundTrip_settled backend hlays hmask hentries cut hremap hread)
    fun devOut hfits hback => filterOutput_ok hproj
      ((marked_ne_nil hentries.length_eq).mpr hfits.projects) hback
        (hlays.rowIds_noBitmap hfits.rows)

/-- **When a filter call returns.** -/
theorem filterProject_ok_iff (hlays : backend.layout.Lays batch)
    (href : Kernels.filterProject batch predicate projection = .ok ref)
    (state : OperatorState DeviceBatch) :
    (∃ out, (state.filterProject backend.toGpuBackend batch predicate projection).1 = .ok out) ↔
      FilterFits backend batch predicate projection :=
  finish_ok_iff (filterProjectOnDevice_settled backend hlays href)

end Filter

/-! ## Aggregates -/

section Aggregate

variable {batch : RecordBatch} {spec : AggregateSpec} {fpu : FloatUnit}

theorem aggregate_numbers (href : Kernels.aggregate fpu batch spec = .ok ref) :
    ∀ c ∈ spec.groupBy :: spec.aggregates.map Prod.snd, ∀ column, batch.columns[c]? = some column →
      column.dataType = .int64 ∨ column.dataType = .float64 := by
  obtain ⟨keys, hkeys, href⟩ := bind_eq_ok_iff.mp href
  obtain ⟨inputs, hinputs, -⟩ := bind_eq_ok_iff.mp href
  intro c hc column hcolumn
  rcases mem_cons.mp hc with rfl | hc
  · obtain ⟨found, hfound, htype, -⟩ := Kernels.int64Column_inv hkeys
    rw [hcolumn] at hfound
    cases hfound
    exact .inl htype
  · obtain ⟨entry, hentry, rfl⟩ := mem_map.mp hc
    obtain ⟨input, hinput⟩ := mapM_ok_of_mem hinputs hentry
    obtain ⟨found, hfound, htype⟩ := Kernels.aggregateInput_inv hinput
    rw [hcolumn] at hfound
    cases hfound
    exact htype.imp And.left And.left

/-- When the device path of an aggregate answers. -/
theorem aggregateOnDevice_settled (hlays : backend.layout.Lays batch)
    (href : Kernels.aggregate fpu batch spec = .ok ref) :
    Settled Hard (2 ^ tableBits batch.numRows < 2 ^ 32)
      (backend.toGpuBackend.aggregateOnDevice batch spec)
      fun outcome => ∃ out, outcome = .ran out := by
  have hmem : ∀ c, c ∈ (spec.aggregates.map Prod.snd).foldl pushUnique [spec.groupBy] ↔
      c ∈ spec.groupBy :: spec.aggregates.map Prod.snd := fun c => by
    rw [mem_foldl_pushUnique, mem_singleton, mem_cons]
  obtain ⟨planned, hplanned⟩ := mapM_getElem?_eq_some.mpr
    (fun c (hc : c ∈ (spec.aggregates.map Prod.snd).foldl pushUnique [spec.groupBy]) =>
      aggregate_columns_lt href c ((hmem c).mp hc))
  obtain ⟨sub, hsub, cut⟩ := subBatch_eq_ok ⟨_, false⟩ hplanned
    (ne_nil_of_mem ((hmem spec.groupBy).mpr mem_cons_self))
  have hnumbers : ∀ column ∈ sub.columns, column.dataType = .int64 ∨
      column.dataType = .float64 := by
    intro column hcolumn
    obtain ⟨planned', hplanned', hentries⟩ := cut.entries
    obtain ⟨entry, hentry, rfl⟩ := mem_map.mp hcolumn
    rw [hentries, rowIdEntry, if_neg Bool.false_ne_true, append_nil] at hentry
    obtain ⟨c, hc, hget⟩ := mapM_some_mem hplanned' hentry
    exact aggregate_numbers href c ((hmem c).mp hc) entry.2
      (by rw [columns_getElem?, hget]; rfl)
  have heligible : ∀ column ∈ sub.columns, isDeviceEligible column.dataType = true := by
    intro column hcolumn
    rcases hnumbers column hcolumn with htype | htype <;> rw [htype] <;> rfl
  have hscalar : ∀ column ∈ sub.columns, vectorDimension column.dataType = none := by
    intro column hcolumn
    rcases hnumbers column hcolumn with htype | htype <;> rw [htype] <;> rfl
  have hne := cut_ne_nil cut (ne_nil_of_mem ((hmem spec.groupBy).mpr mem_cons_self))
  have hsubRef := aggregate_cut fpu cut ((hmem _).mpr mem_cons_self)
    fun entry hentry => (hmem _).mpr (mem_cons_of_mem _ (mem_map_of_mem hentry))
  rw [href] at hsubRef
  have hround := (upload_settled backend heligible).bind fun dev _ hdev =>
    aggregateBack_settled backend hdev.choose_spec hne hscalar hsubRef.ok_right
  rw [← roundTrip_eq backend sub fun dev => backend.aggregate dev _, cut.numRows] at hround
  rw [aggregateOnDevice]
  rw [hsub, ok_bind]
  refine (tryDevice_settled hround).congr ?_ fun outcome => Exists.imp fun _ => And.left
  refine and_iff_right_iff_imp.mpr fun hcap => hlays.cut_isSome ?_ cut heligible
  have := two_mul_le_two_pow_tableBits batch.numRows
  omega

/-- **When an aggregate call returns.** -/
theorem aggregate_ok_iff (hlays : backend.layout.Lays batch)
    (href : Kernels.aggregate fpu batch spec = .ok ref) (state : OperatorState DeviceBatch) :
    (∃ out, (state.aggregate fpu backend.toGpuBackend batch spec).1 = .ok out) ↔
      2 ^ tableBits batch.numRows < 2 ^ 32 :=
  finish_ok_iff (aggregateOnDevice_settled backend hlays href)

end Aggregate

/-! ## Vector distances -/

section Vector

variable {batch : RecordBatch} {c : ℕ} {query : List F32} {metric : DistanceMetric}
  {outputName : String} {fpu : FloatUnit}

theorem subBatch_single (hentry : batch.entries[c]? = some entry) :
    ∃ sub, (⟨[c], false⟩ : SidePlan).subBatch batch = .ok sub ∧ sub.entries = [entry] ∧
      sub.numRows = batch.numRows := by
  have hplanned : [c].mapM (fun i => batch.entries[i]?) = some [entry] := by simp [hentry]
  obtain ⟨sub, hsub, cut⟩ := subBatch_eq_ok ⟨[c], false⟩ hplanned (cons_ne_nil _ _)
  obtain ⟨planned, hplanned', hentries⟩ := cut.entries
  rw [hplanned] at hplanned'
  cases hplanned'
  exact ⟨sub, hsub, hentries, cut.numRows⟩

theorem VectorFits.dimension {column : Column} (hfits : GpuBackend.VectorFits column query) :
    vectorDimension column.dataType = if query = [] then none else some query.length := by
  obtain ⟨name, nullable, metadata, size, htype, -, hquery⟩ := hfits
  rw [htype, vectorDimension, ← hquery]
  cases query with
  | nil => rfl
  | cons x xs => simp

theorem extractColumn_vector {column : Column} (hfits : GpuBackend.VectorFits column query)
    (harray : isDeviceEligible column.dataType = true → (backend.layout.array column).isSome) :
    (∃ bytes, backend.extractColumn column = .ok bytes ∧ bytes.dataType = column.dataType) ∨
      ∃ e, backend.extractColumn column = .error e ∧ e.isUnsupported = true := by
  cases heligible : isDeviceEligible column.dataType with
  | true =>
    obtain ⟨bytes, hbytes, hmoved⟩ := (extractColumn_settled backend heligible).1 (harray heligible)
    exact .inl ⟨bytes, hbytes, hmoved.dataType⟩
  | false =>
    rw [extractColumn]
    cases hfound : backend.layout.array column with
    | none =>
      refine .inr ⟨_, if_neg ?_, rfl⟩
      rw [heligible]
      exact Bool.false_ne_true
    | some array =>
      obtain rfl := backend.layout.sound column array hfound
      obtain ⟨name, nullable, metadata, size, htype, hsize, hquery⟩ := hfits
      have hzero : size = 0 := by
        by_contra hne
        have hpos : 0 < size := by omega
        rw [htype] at heligible
        simp [isDeviceEligible, vectorDimension, hpos] at heligible
      subst hzero
      exact .inl (extract_zeroDim htype)

theorem vectorRoundTrip_declines
    (harray : isDeviceEligible entry.2.dataType = true → (backend.layout.array entry.2).isSome)
    (hentries : sub.entries = [entry]) (hfits : GpuBackend.VectorFits entry.2 query)
    (hdims : query = [] ∨ CudaBackend.maxSharedQueryBytes < query.length * 4) :
    ∃ e, (backend.toGpuBackend.roundTrip sub fun dev =>
      backend.vectorDistance dev 0 query metric outputName) = .error e ∧
      e.isUnsupported = true := by
  have hcolumns : sub.columns = [entry.2] := by rw [RecordBatch.columns, hentries]; rfl
  rw [roundTrip_eq, CudaBackend.upload, hcolumns, mapM_cons, mapM_nil]
  rcases extractColumn_vector backend hfits harray with ⟨bytes, hbytes, htype⟩ |
    ⟨e, he, hunsupported⟩
  · have hdimension : vectorDimension bytes.dataType = none ∨
        vectorDimension bytes.dataType = some query.length ∧
          CudaBackend.maxSharedQueryBytes < query.length * 4 := by
      rw [htype, VectorFits.dimension hfits]
      rcases hdims with rfl | hlarge
      · exact .inl rfl
      · by_cases hnil : query = []
        · exact .inl (if_pos hnil)
        · exact .inr ⟨if_neg hnil, hlarge⟩
    obtain ⟨e, he, hunsupported⟩ : ∃ e, backend.vectorDistance ⟨sub.schema, sub.numRows,
        .cuda ⟨sub.numRows, [bytes]⟩⟩ 0 query metric outputName = .error e ∧
        e.isUnsupported = true :=
      vectorDistance_declines backend rfl rfl hdimension
    refine ⟨e, ?_, hunsupported⟩
    rw [hbytes]
    show (backend.vectorDistance _ 0 query metric outputName >>= CudaBackend.download) = _
    rw [he]
    rfl
  · exact ⟨e, by rw [he]; rfl, hunsupported⟩

theorem vectorRoundTrip_settled
    (harray : isDeviceEligible entry.2.dataType = true → (backend.layout.array entry.2).isSome)
    (hentries : sub.entries = [entry]) (hdim : vectorDimension entry.2.dataType = some query.length)
    (hshared : query.length * 4 ≤ maxSharedQueryBytes) (metric : DistanceMetric)
    (outputName : String) :
    Settled Hard (sub.numRows < 2 ^ 32)
      (backend.toGpuBackend.roundTrip sub fun dev =>
        backend.vectorDistance dev 0 query metric outputName)
      fun out => ∃ distance, out.columns.getLast? = some distance ∧
        FieldFits sub.numRows ⟨outputName, .float32, true, []⟩ distance := by
  have heligible : isDeviceEligible entry.2.dataType = true := by
    rw [isDeviceEligible, hdim, Bool.or_eq_true]
    exact .inr rfl
  have hcolumns : ∀ column ∈ sub.columns, column = entry.2 := by
    rw [RecordBatch.columns, hentries]
    simp
  rw [roundTrip_eq]
  refine ((upload_settled backend fun column hmem =>
    (hcolumns column hmem).symm ▸ heligible).bind fun dev _ hdev =>
      vectorDistance_settled backend hdev.choose_spec hentries hdim rfl hshared metric
        outputName).congr ?_
    fun _ => id
  exact and_iff_right fun column hmem => (hcolumns column hmem).symm ▸ harray heligible

theorem distanceOutput_ok {distance : Column} (hlast : devOut.columns.getLast? = some distance)
    (hfits : FieldFits batch.numRows ⟨outputName, .float32, true, []⟩ distance) :
    ∃ out, distanceOutput batch outputName devOut = .ok out := by
  have hcolumn : columnAt devOut (devOut.numColumns - 1) = .ok distance := by
    rw [columnAt, ← length_columns, ← getLast?_eq_getElem?, hlast]
  rw [distanceOutput, hcolumn, ok_bind]
  exact batch.tryNew_append hfits

/-- **When a distance call returns.** -/
theorem vectorDistance_ok_iff (hlays : backend.layout.Lays batch)
    (href : Kernels.vectorDistance fpu batch c query metric outputName = .ok ref)
    (state : OperatorState DeviceBatch) :
    (∃ out, (state.vectorDistance fpu backend.toGpuBackend batch c query metric outputName).1 =
        .ok out) ↔
      batch.numRows < 2 ^ 32 ∨ query = [] ∨ maxSharedQueryBytes < query.length * 4 := by
  obtain ⟨column, hcolumn, -⟩ := bind_eq_ok_iff.mp href
  have hcol := Kernels.column_ok hcolumn
  obtain ⟨entry, hentry, rfl⟩ : ∃ entry, batch.entries[c]? = some entry ∧ entry.2 = column := by
    rw [columns_getElem?] at hcol
    exact Option.map_eq_some_iff.mp hcol
  have hfits : GpuBackend.VectorFits entry.2 query := by
    by_contra hnot
    obtain ⟨e, he⟩ := vectorDistance_of_not_fits fpu metric outputName hcol hnot
    rw [href] at he
    cases he
  obtain ⟨sub, hsub, hentries, hrows⟩ := subBatch_single hentry
  have hattempt : backend.toGpuBackend.vectorDistanceOnDevice batch c query metric outputName =
      tryDevice (backend.toGpuBackend.roundTrip sub fun dev =>
        backend.vectorDistance dev 0 query metric outputName) >>= fun outcome =>
          outcome.onHost (distanceOutput batch outputName) := by
    rw [vectorDistanceOnDevice, hsub, ok_bind]
    rfl
  have hcall : state.vectorDistance fpu backend.toGpuBackend batch c query metric outputName =
      state.finish batch.numRows
        (backend.toGpuBackend.vectorDistanceOnDevice batch c query metric outputName)
        fun _ => Kernels.vectorDistance fpu batch c query metric outputName := rfl
  have harray := hlays.columns entry.2 (mem_of_getElem? hcol)
  rw [hcall, hattempt]
  by_cases hdims : query = [] ∨ maxSharedQueryBytes < query.length * 4
  · obtain ⟨e, he, hunsupported⟩ : ∃ e, (backend.toGpuBackend.roundTrip sub fun dev =>
        backend.vectorDistance dev 0 query metric outputName) = .error e ∧ e.isUnsupported = true :=
      vectorRoundTrip_declines backend harray hentries hfits hdims
    refine iff_of_true ?_ (.inr hdims)
    rw [he, tryDevice, if_pos hunsupported]
    exact finish_declined href
  · rw [or_iff_left hdims]
    rw [not_or, not_lt] at hdims
    have hdim : vectorDimension entry.2.dataType = some query.length := by
      rw [VectorFits.dimension hfits, if_neg hdims.1]
    refine finish_ok_iff (onHost_settled (hrows ▸ vectorRoundTrip_settled backend harray hentries
      hdim hdims.2 metric outputName) fun devOut _ hpost => ?_)
    obtain ⟨distance, hlast, hdistance⟩ := hpost
    exact distanceOutput_ok hlast (hrows ▸ hdistance)

end Vector

end OxideLake
