import OxideLake.Compute.DeviceLimits

/-!
# Joins on the CUDA backend, at any size

A join operator keeps its build side on the device, so whether a call succeeds depends on the calls
before it only through the cell; `RunHolds` is what the cell keeps over a run.  With the other three
operators, `operators_ok_iff` says when a call through the CUDA backend returns a batch.
-/

namespace OxideLake

open List Cuda OxideLake.Filter Partial EquiJoin Interleaving RecordBatch OperatorState SidePlan

variable (backend : CudaBackend)

variable {batch rsub : RecordBatch} {plan : SidePlan} {key total : ℕ} {layout : Layout}
  {plans : OperatorState.JoinPlans} {selected : ℕ → Prop} {state : OperatorState DeviceBatch}

/-! ## What travels -/

section Join

variable {order : MapOrder} {build : JoinBuild order} {left : RecordBatch} {leftKey : ℕ}
  {projection : Option (List ℕ)}

/-- The columns of one side of a join that travel: the key, and the selected ones a device can
hold. -/
def Travels (batch : RecordBatch) (key : ℕ) (selected : ℕ → Prop) (entry : Field × Column) : Prop :=
  ∃ c, batch.entries[c]? = some entry ∧
    (c = key ∨ selected c ∧ isDeviceEligible entry.1.dataType = true)

/-- The number of matches of a join. -/
def joinMatches (left : RecordBatch) (leftKey : ℕ) (build : JoinBuild order) : ℕ :=
  (nestedLoop (keyValues left leftKey)
    (keyValues build.batch build.key)).length

/-- What the device path of a join has room for. -/
structure JoinFits (left : RecordBatch) (build : JoinBuild order) (leftKey : ℕ)
    (projection : Option (List ℕ)) : Prop where
  rows : left.numRows < 2 ^ 32
  table : 2 ^ tableBits build.batch.numRows < 2 ^ 32
  joined : joinMatches left leftKey build < 2 ^ 32
  probeSide : ∀ entry, Travels left leftKey
      (· ∈ Kernels.selectedColumns left build.batch projection) entry →
    backend.layout.Gathers (joinMatches left leftKey build) entry
  buildSide : ∀ entry, Travels build.batch build.key
      (left.numColumns + · ∈ Kernels.selectedColumns left build.batch projection) entry →
    backend.layout.Gathers (joinMatches left leftKey build) entry

/-- The plan of a side carries what travels. -/
structure Carries (batch : RecordBatch) (key : ℕ) (selected : ℕ → Prop) (plan : SidePlan) :
    Prop where
  head : ∃ rest, plan.deviceCols = key :: rest
  travels : ∀ entry, Travels batch key selected entry ↔
    ∃ c ∈ plan.deviceCols, batch.entries[c]? = some entry

theorem carries_of_sidePlan {columns : List ℕ} (h : sidePlan batch.schema key columns = .ok plan) :
    Carries batch key (· ∈ columns) plan := by
  refine ⟨(foldlM_planColumn_grows h).extends_start, fun entry => ?_⟩
  constructor
  · rintro ⟨c, hentry, hc⟩
    refine ⟨c, (mem_foldlM_planColumn h).mpr ?_, hentry⟩
    refine hc.imp mem_singleton.mpr fun ⟨hmem, heligible⟩ => ⟨hmem, entry.1, ?_, ?_⟩
    · rw [fields_getElem?, hentry]
      rfl
    · rw [deviceEligible_eq, heligible]
  · rintro ⟨c, hc, hentry⟩
    refine ⟨c, hentry, ?_⟩
    refine ((mem_foldlM_planColumn h).mp hc).imp mem_singleton.mp ?_
    rintro ⟨hmem, field, hfield, heligible⟩
    rw [fields_getElem?, hentry] at hfield
    cases hfield
    exact ⟨hmem, (deviceEligible_eq _).symm.trans heligible⟩

theorem Travels.congr {selected' : ℕ → Prop} (h : ∀ c < batch.numColumns, selected c ↔ selected' c)
    (entry : Field × Column) :
    Travels batch key selected entry ↔ Travels batch key selected' entry := by
  refine exists_congr fun c => and_congr_right fun hentry => or_congr_right (and_congr_left' ?_)
  exact h c (List.getElem?_eq_some_iff.mp hentry).1

theorem joinPlans_carries (h : joinPlans left build leftKey projection = .ok plans) :
    Carries left leftKey (· ∈ Kernels.selectedColumns left build.batch projection) plans.left ∧
      Carries build.batch build.key
        (left.numColumns + · ∈ Kernels.selectedColumns left build.batch projection)
          plans.right := by
  unfold joinPlans at h
  dsimp only at h
  split at h
  · cases h
  · obtain ⟨leftPlan, hleft, h⟩ := bind_eq_ok_iff.mp h
    obtain ⟨rightPlan, hright, h⟩ := bind_eq_ok_iff.mp h
    cases h
    have hl := carries_of_sidePlan hleft
    have hr := carries_of_sidePlan hright
    refine ⟨⟨hl.head, fun entry => ?_⟩, hr.head, fun entry => ?_⟩
    · rw [← hl.travels]
      refine Travels.congr (fun c hc => ?_) entry
      simp [hc]
    · rw [← hr.travels]
      refine Travels.congr (fun c hc => ?_) entry
      simp only [mem_map, mem_filter, decide_eq_true_eq]
      constructor
      · exact fun hmem => ⟨left.numColumns + c, ⟨hmem, Nat.le_add_right _ _⟩,
          Nat.add_sub_cancel_left _ _⟩
      · rintro ⟨c', ⟨hmem, hle⟩, rfl⟩
        rwa [Nat.add_sub_cancel' hle]

theorem Carries.eligible {sub : RecordBatch} (h : Carries batch key selected plan)
    (cut : Cut plan batch sub) {column : Column} (hkey : batch.columns[key]? = some column)
    (htype : column.dataType = .int64) :
    ∀ column ∈ sub.columns, isDeviceEligible column.dataType = true := by
  refine cut_eligible cut fun c hc entry hentry => ?_
  obtain ⟨c', hentry', hc'⟩ := (h.travels entry).mpr ⟨c, hc, hentry⟩
  rcases hc' with rfl | ⟨-, heligible⟩
  · rw [columns_getElem?, hentry'] at hkey
    cases hkey
    rw [htype]
    rfl
  · rwa [(batch.fits entry (mem_of_getElem? hentry)).1]

theorem Carries.gathers_iff {sub : RecordBatch} (h : Carries batch key selected plan)
    (cut : Cut plan batch sub) (hlays : layout.Lays batch) (hn : batch.numRows < 2 ^ 32)
    (htotal : total < 2 ^ 32) :
    (∀ entry ∈ sub.entries, layout.Gathers total entry) ↔
      ∀ entry, Travels batch key selected entry → layout.Gathers total entry := by
  obtain ⟨planned, hplanned, hentries⟩ := cut.entries
  rw [hentries, forall_mem_append,
    and_iff_left fun entry hentry => hlays.rowIds_gathers hn htotal hentry]
  refine forall_congr' fun entry => ?_
  rw [h.travels]
  refine imp_congr_left ⟨fun hentry => mapM_some_mem hplanned hentry, ?_⟩
  rintro ⟨c, hc, hentry⟩
  obtain ⟨found, hmem, hfound⟩ := forall₂_exists_right (mapM_eq_some_iff.mp hplanned) hc
  rw [hentry] at hfound
  cases hfound
  exact hmem

/-- One side of a device output that came back. -/
def SideBack (layout : Layout) (sub devOut : RecordBatch) (offset : ℕ) : Prop :=
  ∀ k entry, sub.entries[k]? = some entry → ∃ out, devOut.entries[offset + k]? = some out ∧
    Returned layout devOut.numRows entry out

theorem CameBack.sides {lsub devOut : RecordBatch}
    (h : CameBack layout total (lsub.entries ++ rsub.entries) devOut) :
    SideBack layout lsub devOut 0 ∧ SideBack layout rsub devOut lsub.numColumns := by
  obtain ⟨hrows, hreturned⟩ := h
  subst hrows
  constructor
  · intro k entry hentry
    rw [Nat.zero_add]
    refine forall₂_getElem? hreturned ?_
    rw [List.getElem?_append_left (List.getElem?_eq_some_iff.mp hentry).1, hentry]
  · intro k entry hentry
    refine forall₂_getElem? hreturned ?_
    rw [RecordBatch.numColumns, List.getElem?_append_right (Nat.le_add_right _ _),
      Nat.add_sub_cancel_left, hentry]

section Side

variable {layout : Layout} {plan : SidePlan} {batch sub devOut : RecordBatch} {offset : ℕ}

theorem sideIds_ok (cut : Cut plan batch sub) (hback : SideBack layout sub devOut offset)
    (hbitmap : ¬ layout.HasBitmap (rowIdColumn batch.numRows)) :
    ∃ ids, sideIds plan devOut offset = .ok ids ∧ (plan.rowIds = true →
      ∃ column, ids = some column ∧ IsRowIds batch devOut.numRows column) := by
  unfold sideIds
  cases hplan : plan.rowIds with
  | false => exact ⟨none, by rw [rowIdPosition, hplan]; rfl, nofun⟩
  | true =>
    have hposition : plan.rowIdPosition = some plan.deviceCols.length := if_pos hplan
    obtain ⟨out, hout, -, hgather⟩ := hback _ _ (cut.rowIds_at hposition)
    obtain ⟨rows, hlength, hrows, hids⟩ := hgather rfl hbitmap
    refine ⟨some out.2, ?_, fun _ => ⟨out.2, rfl, rows, hlength, fun row hrow => ?_, hids⟩⟩
    · rw [hposition]
      show (columnAt devOut (offset + plan.deviceCols.length)).map some = _
      rw [columnAt, columns_getElem?, hout]
      rfl
    · have := hrows row hrow
      simpa [rowIdColumn] using this

theorem sideOutput_ok (cut : Cut plan batch sub) (hback : SideBack layout sub devOut offset)
    {ids : Option Column} (hids : plan.rowIds = true →
      ∃ column, ids = some column ∧ IsRowIds batch devOut.numRows column) {c : ℕ}
    {entry : Field × Column} (hentry : batch.entries[c]? = some entry)
    (hcovered : c ∈ plan.deviceCols ∨ plan.rowIds = true) :
    ∃ out, sideOutput batch plan devOut ids offset c = .ok out ∧
      FieldFits devOut.numRows out.1 out.2 := by
  have hfield : fieldAt batch.schema c = .ok entry.1 := by
    rw [fieldAt, fields_getElem?, hentry]
    rfl
  rw [sideOutput, hfield, ok_bind]
  cases hposition : plan.position c with
  | some k =>
    obtain ⟨out, hout, hfst, -⟩ := hback k entry ((cut.entry_at hposition).trans hentry)
    have hcolumn : columnAt devOut (offset + k) = .ok out.2 := by
      rw [columnAt, columns_getElem?, hout]
      rfl
    refine ⟨(entry.1, out.2), ?_, hfst ▸ devOut.fits out (mem_of_getElem? hout)⟩
    simp only [hcolumn, ok_bind]
  | none =>
    have hrowIds : plan.rowIds = true := by
      refine hcovered.resolve_left fun hmem => ?_
      obtain ⟨k, hk⟩ := exists_position hmem
      rw [hk] at hposition
      cases hposition
    obtain ⟨column, rfl, hcolumn⟩ := hids hrowIds
    obtain ⟨taken, htaken, hfits⟩ :=
      hcolumn.takeRows (batch.fits entry (mem_of_getElem? hentry))
    have hhost : columnAt batch c = .ok entry.2 := by
      rw [columnAt, columns_getElem?, hentry]
      rfl
    refine ⟨(entry.1, taken), ?_, hfits⟩
    simp only [hhost, htaken, ok_bind]

end Side

/-- **The output of a join** is assembled from what came back. -/
theorem joinBatch_ok {lsub devOut : RecordBatch}
    (hplans : OperatorState.PlansFit left build leftKey plans) (hne : plans.selected ≠ [])
    (lcut : Cut plans.left left lsub) (rcut : Cut plans.right build.batch rsub)
    (hback : CameBack layout total (lsub.entries ++ rsub.entries) devOut)
    (hleft : ¬ layout.HasBitmap (rowIdColumn left.numRows))
    (hright : ¬ layout.HasBitmap (rowIdColumn build.batch.numRows)) :
    ∃ out, joinBatch left build.batch plans devOut = .ok out := by
  obtain ⟨hlback, hrback⟩ := hback.sides
  rw [lcut.width_eq] at hrback
  obtain ⟨lids, hlids, hlrows⟩ := sideIds_ok lcut hlback hleft
  obtain ⟨rids, hrids, hrrows⟩ := sideIds_ok rcut hrback hright
  obtain ⟨entries, hentries, hfits⟩ : ∃ entries,
      (plans.selected.mapM fun index =>
        if index < left.numColumns then
          sideOutput left plans.left devOut lids 0 index
        else sideOutput build.batch plans.right devOut rids plans.left.width
          (index - left.numColumns)) = .ok entries ∧
      List.Forall₂ (fun _ entry => FieldFits devOut.numRows entry.1 entry.2) plans.selected
        entries := by
    refine mapM_ok_forall₂ fun c hc => ?_
    split
    · next hlt =>
      exact sideOutput_ok lcut hlback hlrows (getElem?_eq_getElem hlt)
        (hplans.leftCovered c hc hlt)
    · next hge =>
      have hinside : c - left.numColumns < build.batch.numColumns := by
        have := hplans.selected c hc
        omega
      exact sideOutput_ok rcut hrback hrrows (getElem?_eq_getElem hinside)
        (hplans.rightCovered c hc (not_lt.mp hge))
  rw [joinBatch, hlids, ok_bind, hrids, ok_bind, hentries, ok_bind]
  refine ⟨_, tryNew_eq_ok [] (fun hnil => hne ?_) (fun entry hentry => ?_)
    devOut.numRows_lt⟩
  · rw [hnil] at hfits
    exact forall₂_nil_right_iff.mp hfits
  · obtain ⟨-, -, hentry⟩ := forall₂_exists_left hfits hentry
    exact hentry

/-! ### The cached build -/

/-- What the cell holds is the build side, cut by the plan and moved to the device. -/
def Holds (build : JoinBuild order) (plan : SidePlan) (state : OperatorState DeviceBatch) : Prop :=
  ∀ cached, state.deviceBuild = some cached → cached.plan = plan ∧
    ∃ sub columns, plan.subBatch build.batch = .ok sub ∧
      Resident backend.layout sub cached.batch columns

theorem uploadBuild_settled (hsub : plan.subBatch build.batch = .ok rsub)
    (heligible : ∀ column ∈ rsub.columns, isDeviceEligible column.dataType = true) :
    Settled Hard (∀ column ∈ rsub.columns, (backend.layout.array column).isSome)
      (uploadBuild backend.toGpuBackend build plan) fun dev =>
        ∃ columns, Resident backend.layout rsub dev columns := by
  have hupload : uploadBuild backend.toGpuBackend build plan = backend.upload rsub := by
    rw [uploadBuild, hsub, ok_bind]
    show (backend.upload rsub >>= fun batch => _) = _
    cases backend.upload rsub with
    | error e | ok dev => rfl
  rw [hupload]
  exact upload_settled backend heligible

/-- **The build of a call.**  A hit needs nothing, a miss the arrays of the build side; either way
the cell keeps its invariant. -/
theorem deviceBuildFor_settled (hsub : plan.subBatch build.batch = .ok rsub)
    (heligible : ∀ column ∈ rsub.columns, isDeviceEligible column.dataType = true)
    (held : Holds backend build plan state) :
    (∃ cond, ((∀ column ∈ rsub.columns, (backend.layout.array column).isSome) → cond) ∧
      Settled Hard cond (state.deviceBuildFor backend.toGpuBackend build plan).1 fun used =>
        ∃ columns, Resident backend.layout rsub used.batch columns) ∧
    Holds backend build plan (state.deviceBuildFor backend.toGpuBackend build plan).2 := by
  cases hcell : state.deviceBuild with
  | some cached =>
    obtain ⟨hplan, sub, columns, hcut, hresident⟩ := held cached hcell
    rw [hsub] at hcut
    cases hcut
    rw [deviceBuildFor_hit hcell hplan]
    exact ⟨⟨True, fun _ => trivial, .ok trivial ⟨columns, hresident⟩⟩, held⟩
  | none =>
    have hmiss : ∀ cached, state.deviceBuild = some cached → cached.plan ≠ plan :=
      fun cached hcached => nomatch hcell.symm.trans hcached
    have hsettled := uploadBuild_settled backend hsub heligible
    cases hupload : uploadBuild backend.toGpuBackend build plan with
    | error e =>
      rw [deviceBuildFor_error hmiss hupload]
      rw [hupload] at hsettled
      have hnot : ¬ ∀ column ∈ rsub.columns, (backend.layout.array column).isSome := by
        intro hcond
        obtain ⟨dev, hdev, -⟩ := hsettled.1 hcond
        cases hdev
      obtain ⟨e', he', hhard⟩ := hsettled.2 hnot
      cases he'
      exact ⟨⟨_, id, .error hnot hhard⟩, held⟩
    | ok dev =>
      obtain ⟨columns, hresident⟩ := hsettled.of_ok hupload
      rw [deviceBuildFor_fill hcell hupload]
      refine ⟨⟨True, fun _ => trivial, .ok trivial ⟨columns, hresident⟩⟩, fun cached hcached => ?_⟩
      cases hcached
      exact ⟨rfl, rsub, columns, hsub, hresident⟩

theorem deviceBuildFor_holds (hplans : joinPlans left build leftKey projection = .ok plans)
    (held : Holds backend build plans.right state) :
    Holds backend build plans.right
      (state.deviceBuildFor backend.toGpuBackend build plans.right).2 := by
  cases hsub : plans.right.subBatch build.batch with
  | error e =>
    -- nothing is uploaded, and the cell stays as it is
    have hupload : uploadBuild backend.toGpuBackend build plans.right = .error e := by
      rw [uploadBuild, hsub]
      rfl
    unfold deviceBuildFor
    rw [hupload]
    split
    · exact held
    · exact held
  | ok rsub =>
    obtain ⟨keys, hkeys, -⟩ := bind_eq_ok_iff.mp build.built
    obtain ⟨rcol, hrcol, hrtype, -⟩ := Kernels.int64Column_inv hkeys
    have rcut := cut_of_subBatch hsub (joinPlans_right_ne_nil hplans)
    exact (deviceBuildFor_settled backend hsub
      ((joinPlans_carries hplans).2.eligible rcut hrcol hrtype) held).2

/-! ### One call -/

/-- The launches of the build kernel over the build side. -/
def BuildLaunches (build : JoinBuild order) : Prop :=
  BuildFinished (keyValues build.batch build.key) (run
    (buildStep (.ofRows backend.join.hash (keyValues build.batch build.key).length))
    (buildLaunch (.ofRows backend.join.hash (keyValues build.batch build.key).length)
      (keyValues build.batch build.key)) backend.join.build)

section Call

variable {state : OperatorState DeviceBatch} {plans : OperatorState.JoinPlans}
  {lsub rsub : RecordBatch} {lcol rcol : Column}

/-- When the device joins two sub-batches. -/
theorem joinRoundTrip_settled (hfinished : BuildLaunches backend build)
    (hfit : OperatorState.PlansFit left build leftKey plans) (lcut : Cut plans.left left lsub)
    (rcut : Cut plans.right build.batch rsub)
    (hleligible : ∀ column ∈ lsub.columns, isDeviceEligible column.dataType = true)
    (hlcol : left.columns[leftKey]? = some lcol) (hltype : lcol.dataType = .int64)
    (hrcol : build.batch.columns[build.key]? = some rcol) (hrtype : rcol.dataType = .int64)
    {rdev : DeviceBatch} {rcols : List ColumnBytes} (hr : Resident backend.layout rsub rdev rcols) :
    Settled Hard
      ((∀ column ∈ lsub.columns, (backend.layout.array column).isSome) ∧
        (left.numRows < 2 ^ 32 ∧ 2 ^ tableBits build.batch.numRows < 2 ^ 32 ∧
          joinMatches left leftKey build < 2 ^ 32) ∧
        ∀ entry ∈ lsub.entries ++ rsub.entries,
          backend.layout.Gathers (joinMatches left leftKey build) entry)
      (backend.toGpuBackend.roundTrip lsub fun dev => backend.hashJoin dev rdev 0 0)
      (CameBack backend.layout (joinMatches left leftKey build)
        (lsub.entries ++ rsub.entries)) := by
  have hlsub : lsub.columns[0]? = some lcol :=
    (lcut.column_at (position_head hfit.leftHead)).trans hlcol
  have hrsub : rsub.columns[0]? = some rcol :=
    (rcut.column_at (position_head hfit.rightHead)).trans hrcol
  have hlkeys : keyValues left leftKey = lcol.int64s := by
    rw [keyValues, hlcol]
    rfl
  have hrkeys : keyValues build.batch build.key = rcol.int64s := by
    rw [keyValues, hrcol]
    rfl
  rw [BuildLaunches, hrkeys] at hfinished
  rw [joinMatches, hlkeys, hrkeys, ← lcut.numRows, ← rcut.numRows, roundTrip_eq]
  exact (upload_settled backend hleligible).bind fun dev _ hl =>
    hashJoin_settled backend hl.choose_spec hr hlsub hltype hrsub hrtype hfinished

/-- The limits of a join, in the columns of its batches. -/
theorem joinFits_iff (llays : backend.layout.Lays left) (rlays : backend.layout.Lays build.batch)
    (hplans : joinPlans left build leftKey projection = .ok plans)
    (lcut : Cut plans.left left lsub) (rcut : Cut plans.right build.batch rsub)
    (hleligible : ∀ column ∈ lsub.columns, isDeviceEligible column.dataType = true)
    (hreligible : ∀ column ∈ rsub.columns, isDeviceEligible column.dataType = true) {cond : Prop}
    (hcond : (∀ column ∈ rsub.columns, (backend.layout.array column).isSome) → cond) :
    (cond ∧ (∀ column ∈ lsub.columns, (backend.layout.array column).isSome) ∧
        (left.numRows < 2 ^ 32 ∧ 2 ^ tableBits build.batch.numRows < 2 ^ 32 ∧
          joinMatches left leftKey build < 2 ^ 32) ∧
        ∀ entry ∈ lsub.entries ++ rsub.entries,
          backend.layout.Gathers (joinMatches left leftKey build) entry) ↔
      JoinFits backend left build leftKey projection := by
  obtain ⟨lcarries, rcarries⟩ := joinPlans_carries hplans
  have htwice := two_mul_le_two_pow_tableBits build.batch.numRows
  constructor
  · rintro ⟨-, -, ⟨hl, ht, hm⟩, hgathers⟩
    rw [forall_mem_append, lcarries.gathers_iff lcut llays hl hm,
      rcarries.gathers_iff rcut rlays (by omega) hm] at hgathers
    exact ⟨hl, ht, hm, hgathers.1, hgathers.2⟩
  · rintro ⟨hl, ht, hm, hleft, hright⟩
    have hr : build.batch.numRows < 2 ^ 32 := by omega
    rw [forall_mem_append, lcarries.gathers_iff lcut llays hl hm,
      rcarries.gathers_iff rcut rlays hr hm]
    exact ⟨hcond (rlays.cut_isSome hr rcut hreligible), llays.cut_isSome hl lcut hleligible,
      ⟨hl, ht, hm⟩, hleft, hright⟩

/-- **A call** that the reference answers returns a batch exactly if it fits. -/
theorem hashJoin_ok_iff (llays : backend.layout.Lays left) (rlays : backend.layout.Lays build.batch)
    (hfinished : BuildLaunches backend build)
    (held : ∀ plans, joinPlans left build leftKey projection = .ok plans →
      Holds backend build plans.right state) {ref : RecordBatch}
    (href : Kernels.hashJoinProbe left leftKey build.batch build.table projection = .ok ref) :
    (∃ out, (state.hashJoin backend.toGpuBackend left build leftKey projection).1 = .ok out) ↔
      JoinFits backend left build leftKey projection := by
  obtain ⟨leftKeys, rightKeys, ⟨hleft, hright, hne, hselected⟩, -⟩ := hashJoinProbe_joinsAlong href
  obtain ⟨lcol, hlcol, hltype, -⟩ := Kernels.int64Column_inv hleft
  obtain ⟨rcol, hrcol, hrtype, -⟩ := Kernels.int64Column_inv hright
  obtain ⟨plans, hplans, hsel, hfit⟩ := joinPlans_eq_ok
    (int64Column_ok hleft).2.2 (int64Column_ok hright).2.2 hselected
  obtain ⟨lsub, hlsub, lcut⟩ := exists_cut hfit.left_ne_nil hfit.leftInside
  obtain ⟨rsub, hrsub, rcut⟩ := exists_cut hfit.right_ne_nil hfit.rightInside
  obtain ⟨lcarries, rcarries⟩ := joinPlans_carries hplans
  have hleligible := lcarries.eligible lcut hlcol hltype
  have hreligible := rcarries.eligible rcut hrcol hrtype
  obtain ⟨⟨cond, hcond, hused⟩, -⟩ :=
    deviceBuildFor_settled backend hrsub hreligible (held plans hplans)
  have hanswer := (hused.bind fun used _ ⟨_, hr⟩ =>
    joinRoundTrip_settled backend hfinished hfit lcut
    rcut hleligible hlcol hltype hrcol hrtype hr).congr
      (joinFits_iff backend llays rlays hplans lcut rcut hleligible hreligible hcond) fun _ => id
  have hassembled := onHost_settled hanswer fun devOut hfits hback => by
    have htwice := two_mul_le_two_pow_tableBits build.batch.numRows
    have ht := hfits.table
    exact joinBatch_ok hfit (hsel ▸ hne) lcut rcut hback (llays.rowIds_noBitmap hfits.rows)
      (rlays.rowIds_noBitmap (by omega))
  have hattempt : (state.joinOutcome backend.toGpuBackend left build leftKey projection).1 =
      tryDevice ((state.deviceBuildFor backend.toGpuBackend build plans.right).1 >>= fun used =>
        backend.toGpuBackend.roundTrip lsub fun dev => backend.hashJoin dev used.batch 0 0) >>=
          fun outcome => outcome.onHost (joinBatch left build.batch plans) := by
    show (state.hashJoinOnDevice backend.toGpuBackend left build leftKey projection).1 = _
    rw [hashJoinOnDevice, hplans]
    simp only [hlsub, hashJoinDevice, position_head hfit.leftHead,
      position_head hfit.rightHead]
    rfl
  rw [← hattempt] at hassembled
  exact finish_ok_iff hassembled

/-! ### Runs -/

/-- Every plan of the run has its right half in the cell, or the cell is empty. -/
def RunHolds (build : JoinBuild order) (fields : List Field) (leftKey : ℕ)
    (projection : Option (List ℕ)) (state : OperatorState DeviceBatch) : Prop :=
  ∀ left plans, left.schema.fields = fields →
    joinPlans left build leftKey projection = .ok plans →
    Holds backend build plans.right state

/-- **Step lemma.** -/
theorem hashJoin_runHolds
    (held : RunHolds backend build left.schema.fields leftKey projection state) :
    RunHolds backend build left.schema.fields leftKey projection
      (state.hashJoin backend.toGpuBackend left build leftKey projection).2 := by
  have houtcome : RunHolds backend build left.schema.fields leftKey projection
      (state.joinOutcome backend.toGpuBackend left build leftKey projection).2 := by
    show RunHolds backend build left.schema.fields leftKey projection
      (state.hashJoinOnDevice backend.toGpuBackend left build leftKey projection).2
    rw [hashJoinOnDevice]
    split
    · exact held
    · next plans hplans =>
      split
      · exact held
      · intro left' plans' hfields hplans'
        rw [joinPlans_congr hfields, hplans] at hplans'
        cases hplans'
        exact deviceBuildFor_holds backend hplans (held left plans rfl hplans)
  intro left' plans hfields hplans cached hcached
  unfold hashJoin at hcached
  rw [finish_deviceBuild] at hcached
  exact houtcome left' plans hfields hplans cached hcached

end Call

/-- **Run lemma.**  From a state that keeps the invariant, every call the reference answers
returns a batch exactly if it fits. -/
theorem joinRun_ok_iff (rlays : backend.layout.Lays build.batch)
    (hfinished : BuildLaunches backend build) {fields : List Field} {probes : List RecordBatch}
    (hprobes : ∀ left ∈ probes, backend.layout.Lays left ∧ left.schema.fields = fields)
    (held : RunHolds backend build fields leftKey projection state) :
    List.Forall₂ (fun left result => ∀ ref,
        Kernels.hashJoinProbe left leftKey build.batch build.table projection = .ok ref →
        ((∃ out, result = .ok out) ↔ JoinFits backend left build leftKey projection))
      probes (joinRun build leftKey projection state
        (probes.map fun left => (backend.toGpuBackend, left))) := by
  induction probes generalizing state with
  | nil => exact .nil
  | cons left probes ih =>
    obtain ⟨llays, rfl⟩ := hprobes left mem_cons_self
    refine .cons (fun ref href => ?_) (ih (fun l hl => hprobes l (mem_cons_of_mem _ hl))
      (hashJoin_runHolds backend held))
    exact hashJoin_ok_iff backend llays rlays hfinished
      (fun plans hplans => held left plans rfl hplans) href

end Join

/-! ## Operators -/

/-- **An operator call on the CUDA backend returns a batch exactly if its input fits.**  Of the
calls the CPU reference answers: a filter, the calls of a join run, an aggregate and a vector
distance.  Past a limit the call fails: what the device cannot count is an execution error, which
`try_device` does not decline.  Only the shared memory for the query declines. -/
theorem operators_ok_iff :
    (∀ (state : OperatorState DeviceBatch) (batch : RecordBatch) (predicate : Predicate)
        (projection : List ℕ) (ref : RecordBatch), backend.layout.Lays batch →
      Kernels.filterProject batch predicate projection = .ok ref →
      ((∃ out, (state.filterProject backend.toGpuBackend batch predicate projection).1 = .ok out) ↔
        FilterFits backend batch predicate projection)) ∧
    (∀ (order : MapOrder) (build : JoinBuild order) (leftKey : ℕ) (projection : Option (List ℕ))
        (fields : List Field) (probes : List RecordBatch), backend.layout.Lays build.batch →
      BuildLaunches backend build →
      (∀ left ∈ probes, backend.layout.Lays left ∧ left.schema.fields = fields) →
      List.Forall₂ (fun left result => ∀ ref,
          Kernels.hashJoinProbe left leftKey build.batch build.table projection = .ok ref →
          ((∃ out, result = .ok out) ↔ JoinFits backend left build leftKey projection))
        probes (joinRun build leftKey projection {}
          (probes.map fun left => (backend.toGpuBackend, left)))) ∧
    (∀ (fpu : FloatUnit) (state : OperatorState DeviceBatch) (batch : RecordBatch)
        (spec : AggregateSpec) (ref : RecordBatch), backend.layout.Lays batch →
      Kernels.aggregate fpu batch spec = .ok ref →
      ((∃ out, (state.aggregate fpu backend.toGpuBackend batch spec).1 = .ok out) ↔
        2 ^ tableBits batch.numRows < 2 ^ 32)) ∧
    (∀ (fpu : FloatUnit) (state : OperatorState DeviceBatch) (batch : RecordBatch) (c : ℕ)
        (query : List F32) (metric : DistanceMetric) (outputName : String) (ref : RecordBatch),
      backend.layout.Lays batch →
      Kernels.vectorDistance fpu batch c query metric outputName = .ok ref →
      ((∃ out, (state.vectorDistance fpu backend.toGpuBackend batch c query metric outputName).1 =
          .ok out) ↔
        batch.numRows < 2 ^ 32 ∨ query = [] ∨
          CudaBackend.maxSharedQueryBytes < query.length * 4)) := by
  refine ⟨?_, ?_, ?_, ?_⟩
  · exact fun state batch predicate projection ref hlays href =>
      filterProject_ok_iff backend hlays href state
  · exact fun order build leftKey projection fields probes rlays hfinished hprobes =>
      joinRun_ok_iff backend rlays hfinished hprobes fun _ _ _ _ _ hcell => nomatch hcell
  · exact fun fpu state batch spec ref hlays href => aggregate_ok_iff backend hlays href state
  · exact fun fpu state batch c query metric outputName ref hlays href =>
      vectorDistance_ok_iff backend hlays href state

/-! ## Arrays in memory -/

/-- An `Int64Array` without `NULL`s. -/
def int64Array (value : ℕ → ℕ) (n : ℕ) (hn : n * 8 < 2 ^ 63) : ArrowArray where
  data := ⟨⟨.int64, n, 0, none, [(range n).flatMap fun i => Bytes.toLe 8 (value i)]⟩, []⟩
  valid := by
    have hlength : ((range n).flatMap fun i => Bytes.toLe 8 (value i)).length = n * 8 := by
      simp [length_flatMap]
    show PrimitiveData.validate _ = true
    simp only [PrimitiveData.validate, nullsFit, primitiveWidth, hlength, decide_eq_true hn]
    simp

theorem toColumn_int64Array {value : ℕ → ℕ} {n : ℕ} (hn : n * 8 < 2 ^ 63)
    (hvalue : ∀ i < n, value i < 2 ^ 64) : (int64Array value n hn).data.toColumn =
      Column.ofInt64 ((range n).map fun i => some (Int64.ofNat (value i))) := by
  refine Column.ext rfl ?_
  show (range n).map _ = map _ ((range n).map _)
  rw [map_map]
  refine map_congr_left fun i hi => ?_
  have hwidth : ∀ row ∈ (range n).map fun i => Bytes.toLe 8 (value i), row.length = 8 := by
    simp
  have hvalid : validAt (int64Array value n hn).data.nulls i = true := rfl
  rw [ArrayData.cell, if_pos hvalid, ArrayData.value_primitive rfl rfl]
  show cellOfBytes .int64 (Bytes.slice ((range n).flatMap fun i => Bytes.toLe 8 (value i))
    ((0 + i) * 8) 8) = _
  rw [Nat.zero_add, flatMap_def, Bytes.slice_flatten hwidth, getD_eq_getElem?_getD,
    getElem?_map, getElem?_range (mem_range.mp hi)]
  show some (Cell.int64 (Int64.ofNat (Bytes.leNat (Bytes.toLe 8 (value i))))) = _
  rw [Bytes.leNat_toLe (hvalue i (mem_range.mp hi))]
  rfl

/-- The layout of finitely many arrays. -/
def Layout.ofArrays (arrays : List ArrowArray) : Layout where
  array column := arrays.find? fun found => found.data.toColumn = column
  sound column found h := by simpa using find?_some h

theorem Layout.ofArrays_lays {arrays : List ArrowArray}
    (hcolumns : ∀ column ∈ batch.columns, ∃ found ∈ arrays, found.data.toColumn = column)
    (hids : ∃ found ∈ arrays, found.data.toColumn = rowIdColumn batch.numRows)
    (hnulls : ∀ found ∈ arrays, found.data.nulls = none) : (Layout.ofArrays arrays).Lays batch := by
  have hsome : ∀ column, (∃ found ∈ arrays, found.data.toColumn = column) →
      ((Layout.ofArrays arrays).array column).isSome := fun column hcolumn => by
    simpa [Layout.ofArrays] using hcolumn
  refine ⟨fun column hcolumn _ => hsome column (hcolumns column hcolumn), fun _ => ?_⟩
  obtain ⟨found, hfound⟩ := Option.isSome_iff_exists.mp (hsome _ hids)
  exact ⟨found, hfound, hnulls found (mem_of_find?_eq_some hfound)⟩

/-- A device that runs its threads one after the other. -/
def sequentialBackend (layout : Layout) : CudaBackend where
  layout := layout
  filter := inOrder
  filter_zeroed := fun _ _ => rfl
  join := ⟨oxideHash, (range 4).flatMap (replicate 20), inOrder.counts.toStoreOrder,
    inOrder.counts.toStoreOrder, inOrder.counts.toStoreOrder⟩
  gathers := inOrder
  gathers_zeroed := fun _ _ => rfl
  groups := racingDevice
  distances := fun _ _ _ _ => 0

/-- Three vectors of two zeros. -/
def vectorArray : ArrowArray where
  data := ⟨⟨.fixedSizeList "item" .float32 true [] 2, 3, 0, none, []⟩,
    [⟨.float32, 6, 0, none, [replicate 24 0]⟩]⟩
  valid := by decide

/-- Three rows of a key and a vector. -/
def vectors : RecordBatch :=
  .ofEntries [(⟨"k", .int64, true, []⟩, (int64Array id 3 (by decide)).data.toColumn),
    (⟨"v", vectorArray.data.dataType, true, []⟩, vectorArray.data.toColumn)]
    3 (by decide)

/-- The build side of a join of the keys. -/
def vectorsBuild : JoinBuild .insertion where
  batch := vectors
  key := 0
  table := ⟨[(0, 0, 1), (1, 1, 1), (2, 2, 1)], [0, 1, 2], by decide⟩
  built := rfl

def vectorsBackend : CudaBackend :=
  sequentialBackend (.ofArrays [int64Array id 3 (by decide), vectorArray])

theorem vectors_lays : vectorsBackend.layout.Lays vectors := by
  refine Layout.ofArrays_lays (fun column hcolumn => ?_) ?_ (by simp [int64Array, vectorArray])
  · rcases mem_pair.mp hcolumn with rfl | rfl
    · exact ⟨_, mem_cons_self, rfl⟩
    · exact ⟨vectorArray, by simp, rfl⟩
  · exact ⟨_, mem_cons_self, toColumn_int64Array _ fun i hi => by simp only [id_eq]; omega⟩

theorem vectors_gathers (htotal : total ≤ 9) {entry : Field × Column}
    (hentry : entry ∈ vectors.entries) : vectorsBackend.layout.Gathers total entry := by
  have hwidth : entry.2.rowBytes ≤ 8 := by
    rcases mem_pair.mp hentry with rfl | rfl <;> decide
  refine ⟨⟨?_, .inr (.inr (by omega))⟩, by omega⟩
  calc total * entry.2.rowBytes ≤ 9 * 8 := Nat.mul_le_mul htotal hwidth
    _ < 2 ^ 63 := by decide

/-- Three rows fit: they are filtered, joined with themselves, counted and measured. -/
theorem operators_ok_iff_vectors :
    (∃ out, (({} : OperatorState DeviceBatch).filterProject vectorsBackend.toGpuBackend vectors
      (.compare 0 .gt (.int64 0)) [1, 0]).1 = .ok out) ∧
    (∃ out, joinRun vectorsBuild 0 (some [0, 3]) {}
      [(vectorsBackend.toGpuBackend, vectors)] = [.ok out]) ∧
    (∃ out, (({} : OperatorState DeviceBatch).aggregate noFloats vectorsBackend.toGpuBackend vectors
      ⟨0, [(.count, 0)]⟩).1 = .ok out) ∧
    ∃ out, (({} : OperatorState DeviceBatch).vectorDistance noFloats vectorsBackend.toGpuBackend
      vectors 1 [0, 0] .l2 "d").1 = .ok out := by
  obtain ⟨hfilter, hjoin, haggregate, hvector⟩ := operators_ok_iff vectorsBackend
  refine ⟨?_, ?_, ?_, ?_⟩
  · refine (hfilter {} vectors _ _ _ vectors_lays rfl).mpr ⟨by simp, by decide, ?_⟩
    intro i _ entry hentry _
    exact vectors_gathers (by decide) (mem_of_getElem? hentry)
  · have hlaunches : BuildLaunches vectorsBackend vectorsBuild := by
      unfold BuildLaunches
      decide
    have hrun := hjoin _ vectorsBuild 0 (some [0, 3]) _ [vectors] vectors_lays hlaunches
      (forall_mem_singleton.mpr ⟨vectors_lays, rfl⟩)
    have htravels : ∀ selected entry, Travels vectors 0 selected entry →
        vectorsBackend.layout.Gathers (joinMatches vectors 0 vectorsBuild) entry :=
      fun selected entry ⟨c, hentry, _⟩ => vectors_gathers (by decide) (mem_of_getElem? hentry)
    obtain ⟨out, hout⟩ := ((forall₂_cons.mp hrun).1 _ rfl).mpr
      ⟨by decide, by decide, by decide, htravels _, htravels _⟩
    exact ⟨out, congrArg ([·]) hout⟩
  · exact (haggregate _ {} vectors _ _ vectors_lays rfl).mpr (by decide)
  · exact (hvector _ {} vectors _ _ _ _ _ vectors_lays rfl).mpr (.inl (by decide))

/-- Row ids and a column of zeros, in memory. -/
def zerosLayout (n : ℕ) (hn : n * 8 < 2 ^ 63) : Layout :=
  .ofArrays [int64Array id n hn, int64Array (fun _ => 0) n hn]

/-- A column of zeros. -/
def zeros (n : ℕ) (hn : n * 8 < 2 ^ 63) : RecordBatch where
  metadata := []
  entries := [(⟨"k", .int64, true, []⟩, (int64Array (fun _ => 0) n hn).data.toColumn)]
  numRows := n
  fits := by
    refine forall_mem_singleton.mpr ⟨rfl, ?_, nofun⟩
    simp [Column.len, ArrayData.toColumn, int64Array]
  numRows_lt := by omega

theorem zerosLayout_lays (n : ℕ) (hn : n * 8 < 2 ^ 63) : (zerosLayout n hn).Lays (zeros n hn) := by
  refine Layout.ofArrays_lays (fun column hcolumn => ?_) ?_ (by simp [int64Array])
  · exact ⟨_, mem_cons_of_mem _ mem_cons_self, (mem_singleton.mp hcolumn).symm⟩
  · exact ⟨_, mem_cons_self, toColumn_int64Array hn fun i hi => by simp only [id_eq]; omega⟩

theorem aggregate_zeros (fpu : FloatUnit) (n : ℕ) (hn : n * 8 < 2 ^ 63) :
    ∃ ref, Kernels.aggregate fpu (zeros n hn) ⟨0, [(.count, 0)]⟩ = .ok ref := by
  have hkeys : Kernels.int64Column (zeros n hn) 0 "group key" =
      .ok (keyValues (zeros n hn) 0) := rfl
  have hinputs : [(AggregateFunction.count, 0)].mapM (fun entry : AggregateFunction × ℕ =>
      Kernels.aggregateInput (zeros n hn) entry.2) =
      .ok [.i (keyValues (zeros n hn) 0)] := rfl
  rw [Kernels.aggregate, hkeys, ok_bind, hinputs, ok_bind]
  obtain ⟨hnodup, hmem, -⟩ := Kernels.sortGroups_groupRows_keys fpu
    [.i (keyValues (zeros n hn) 0)] (keyValues (zeros n hn) 0)
  generalize Kernels.sortGroups _ = groups at hnodup hmem ⊢
  have hlength : (groups.map Prod.fst).length < 2 ^ 63 := by
    refine ((subperm_of_subset hnodup fun key => (hmem key).mp).length_le).trans_lt ?_
    rw [(int64Column_ok hkeys).2.1]
    exact (zeros n hn).numRows_lt
  exact groupedOutput_ok "k" (forall_mem_singleton.mpr ⟨rfl, by simp, Bool.noConfusion⟩) hlength

/-- A billion rows are counted by the CPU reference; the operator fails, since the table of the
groups would have `2 ^ 32` slots. -/
theorem aggregate_past_limit :
    ¬ ∀ (backend : CudaBackend) (fpu : FloatUnit) (state : OperatorState DeviceBatch)
        (batch : RecordBatch) (spec : AggregateSpec) (ref : RecordBatch),
      backend.layout.Lays batch → Kernels.aggregate fpu batch spec = .ok ref →
      ∃ out, (state.aggregate fpu backend.toGpuBackend batch spec).1 = .ok out := by
  intro h
  have hn : (2 ^ 30 + 1) * 8 < 2 ^ 63 := by decide
  obtain ⟨ref, href⟩ := aggregate_zeros noFloats _ hn
  have hlays := zerosLayout_lays _ hn
  have hok := (aggregate_ok_iff (sequentialBackend _) hlays href {}).mp (h _ _ _ _ _ _ hlays href)
  have htwice := two_mul_le_two_pow_tableBits (2 ^ 30 + 1)
  have hbits : 2 ^ tableBits (2 ^ 30 + 1) < 2 ^ 32 := hok
  have hlt := (Nat.pow_lt_pow_iff_right (by norm_num : 1 < 2)).mp hbits
  have hle : 2 ^ tableBits (2 ^ 30 + 1) ≤ 2 ^ 31 := Nat.pow_le_pow_right (by norm_num) (by omega)
  norm_num at hle htwice
  omega

/-! ## An aggregation, there and back -/

/-- **An aggregation on the device is the reference aggregation**, with the transfers on both sides:
on scalar columns in memory, and unless a `SUM` overflows. -/
theorem aggregate_roundTrip (backend : CudaBackend) (fpu : FloatUnit) {batch : RecordBatch}
    {spec : AggregateSpec}
    (hscalar : ∀ column ∈ batch.columns, (primitiveWidth column.dataType).isSome)
    (hlaid : ∀ column ∈ batch.columns, (backend.layout.array column).isSome)
    (hkey : IsInt64 batch spec.groupBy) (hvalues : ∀ entry ∈ spec.aggregates, IsInt64 batch entry.2)
    (hcap : 2 ^ tableBits batch.numRows < 2 ^ 32) (hreturns : backend.groups.Returns batch spec) :
    (backend.toGpuBackend.roundTrip batch fun dev => backend.aggregate dev spec) =
        Kernels.aggregate fpu batch spec ∨
      (∃ entry ∈ spec.aggregates, entry.1 = .sum) ∧
        Kernels.aggregate fpu batch spec = .error (.execution "SUM overflowed Int64") := by
  have hne : batch.entries ≠ [] := by
    rintro hnil
    obtain ⟨column, hcolumn, -⟩ := hkey
    simp [RecordBatch.columns, hnil] at hcolumn
  have hvector : ∀ column ∈ batch.columns, vectorDimension column.dataType = none := by
    intro column hcolumn
    obtain ⟨width, hwidth⟩ := Option.isSome_iff_exists.mp (hscalar column hcolumn)
    exact vectorDimension_of_primitiveWidth hwidth
  have heligible : ∀ column ∈ batch.columns, isDeviceEligible column.dataType = true := by
    intro column hcolumn
    rw [isDeviceEligible, hscalar column hcolumn, Bool.true_or]
  obtain ⟨dev, hupload, columns, hdev⟩ := (upload_settled backend heligible).1 hlaid
  have hback : (backend.toGpuBackend.roundTrip batch fun dev => backend.aggregate dev spec) =
      Cuda.aggregate backend.groups batch spec := by
    rw [roundTrip_eq, hupload, ok_bind]
    simp only [CudaBackend.aggregate, DeviceBatch.cudaBatch, hdev.inner, ok_bind,
      view_eq backend hdev hne hvector, bind_assoc]
    cases Cuda.aggregate backend.groups batch spec <;> rfl
  rw [hback]
  exact aggregate_eq_or_overflow fpu hkey hvalues hcap hreturns

/-- The regions of the sales in memory: the second is `NULL`. -/
def regionArray : ArrowArray where
  data := ⟨⟨.int64, 3, 0, some ⟨[5], 0, 3, by decide⟩,
    [Bytes.toLe 8 7 ++ Bytes.toLe 8 0 ++ Bytes.toLe 8 7]⟩, []⟩
  valid := by decide

/-- The amounts, in a buffer they do not start. -/
def amountArray : ArrowArray where
  data := ⟨⟨.int64, 3, 1, none,
    [replicate 8 9 ++ Bytes.toLe 8 5 ++ Bytes.toLe 8 2 ++ replicate 8 255]⟩, []⟩
  valid := by decide

/-- Two of the sales have one region, and the threads of their rows race for its slot. -/
theorem aggregate_roundTrip_sales :
    let backend := sequentialBackend (.ofArrays [regionArray, amountArray])
    (backend.toGpuBackend.roundTrip sales fun dev =>
        backend.aggregate dev ⟨0, [(.count, 1), (.sum, 1), (.max, 1)]⟩) =
      Kernels.aggregate noFloats sales ⟨0, [(.count, 1), (.sum, 1), (.max, 1)]⟩ := by
  intro backend
  refine (aggregate_roundTrip backend noFloats (by decide) (by decide) ⟨_, rfl, rfl⟩ ?_
    (by decide) ⟨by decide, by decide⟩).resolve_right ?_
  · simp [IsInt64, sales, RecordBatch.ofEntries, RecordBatch.columns, Column.ofInt64]
  · decide

end OxideLake
