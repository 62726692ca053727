import OxideLake.Compute.JoinRun

/-!
# The cached device build, over any history of calls

`device_build` keeps the first device build of an operator in a write-once cell.  A
later call whose plan differs uploads its own build side, but hands the result to
`get_or_init`, which drops it and returns the cell's old build; a later call with the
same plan takes the cell's build without looking at its own build side.

So the build a call uses was cut for that call exactly as long as the history keeps
the build the cell was filled with: `buildUses_fresh_iff`.
-/

namespace OxideLake

variable {D : Type} {order : MapOrder}

variable {state : OperatorState D} {held : DeviceBuild D}

/-- One `hash_join` call: the backend as it answers in it, and its arguments. -/
structure JoinCall (D : Type) (order : MapOrder) where
  backend : GpuBackend D
  left : RecordBatch
  build : JoinBuild order
  leftKey : Nat
  projection : Option (List Nat)

namespace JoinCall

open OperatorState

/-- The plan with which a call asks for the device build, when it gets that far. -/
def buildPlan (call : JoinCall D order) : Option SidePlan :=
  match call.backend.noDevicePath call.backend.supportsHashJoin "hash joins" with
  | some _ => none
  | none =>
    match joinPlans call.left call.build call.leftKey call.projection with
    | .error _ => none
    | .ok plans =>
      match plans.left.subBatch call.left with
      | .error _ => none
      | .ok _ => some plans.right

/-- The state after the call. -/
def run (state : OperatorState D) (call : JoinCall D order) : OperatorState D :=
  (state.hashJoin call.backend call.left call.build call.leftKey call.projection).2

theorem run_deviceBuild (state : OperatorState D) (call : JoinCall D order) :
    (call.run state).deviceBuild =
      match call.buildPlan with
      | none => state.deviceBuild
      | some plan => (state.deviceBuildFor call.backend call.build plan).2.deviceBuild := by
  unfold run hashJoin
  rw [finish_deviceBuild]
  unfold joinOutcome buildPlan hashJoinOnDevice
  cases call.backend.noDevicePath call.backend.supportsHashJoin "hash joins" with
  | some why => rfl
  | none =>
    dsimp only
    cases joinPlans call.left call.build call.leftKey call.projection with
    | error e => rfl
    | ok plans =>
      dsimp only
      cases plans.left.subBatch call.left with
      | error e | ok sub => rfl

end JoinCall

/-- A call that got a device build: what it asked for and what it got. -/
structure BuildUse (D : Type) (order : MapOrder) where
  build : JoinBuild order
  plan : SidePlan
  used : DeviceBuild D

namespace BuildUse

/-- The build a call uses, when it gets one. -/
def ofCall (state : OperatorState D) (call : JoinCall D order) : Option (BuildUse D order) :=
  match call.buildPlan with
  | none => none
  | some plan =>
    match (state.deviceBuildFor call.backend call.build plan).1 with
    | .error _ => none
    | .ok used => some ⟨call.build, plan, used⟩

/-- The used build was cut from the call's build batch by the call's plan.
`contents` is what a device batch holds. -/
def Fresh (contents : D → RecordBatch) (use : BuildUse D order) : Prop :=
  use.used.plan = use.plan ∧
    use.plan.subBatch use.build.batch = .ok (contents use.used.batch)

end BuildUse

/-- The builds used along a history of calls, the operator's state threaded. -/
def buildUses : OperatorState D → List (JoinCall D order) → List (BuildUse D order)
  | _, [] => []
  | state, call :: calls =>
    (BuildUse.ofCall state call).toList ++ buildUses (call.run state) calls

/-! ## The condition -/

/-- The call asks for the same cut as an earlier one did: by the same plan, from a
build side with the same planned columns.  A call with another plan whose upload
fails asks for nothing that could be stale. -/
def SameCut (plan : SidePlan) (build : JoinBuild order) (call : JoinCall D order) : Prop :=
  ∀ plan', call.buildPlan = some plan' →
    (plan' = plan ∧ plan'.subBatch call.build.batch = plan.subBatch build.batch) ∨
    (plan' ≠ plan ∧ ∃ e, OperatorState.uploadBuild call.backend call.build plan' = .error e)

/-- The history keeps the build its first uploading call brought to the device. -/
def KeepsBuild : List (JoinCall D order) → Prop
  | [] => True
  | call :: calls =>
    match call.buildPlan with
    | none => KeepsBuild calls
    | some plan =>
      match OperatorState.uploadBuild call.backend call.build plan with
      | .error _ => KeepsBuild calls
      | .ok _ => ∀ later ∈ calls, SameCut plan call.build later

/-! ## Histories -/

section Histories

variable {contents : D → RecordBatch}

/-- Every upload of the call puts what it was given on the device. -/
def JoinCall.Uploads (contents : D → RecordBatch) (call : JoinCall D order) : Prop :=
  ∀ sub dev, call.backend.upload sub = .ok dev → contents dev = sub

variable {call : JoinCall D order}

theorem uploadBuild_contents (huploads : call.Uploads contents) {plan : SidePlan} {dev : D}
    (h : OperatorState.uploadBuild call.backend call.build plan = .ok dev) :
    plan.subBatch call.build.batch = .ok (contents dev) := by
  obtain ⟨sub, hsub, h⟩ := Partial.bind_eq_ok_iff.mp h
  obtain ⟨dev', hdev', h⟩ := Partial.bind_eq_ok_iff.mp h
  obtain ⟨-, -, h⟩ := Partial.bind_eq_ok_iff.mp h
  cases h
  rw [hsub, huploads sub _ hdev']

/-- What `device_build` does on a filled cell: it never replaces the build, and it
hands it out on a hit and on every miss whose upload succeeds. -/
theorem deviceBuildFor_filled (hcell : state.deviceBuild = some held) (backend : GpuBackend D)
    (build : JoinBuild order) (plan : SidePlan) :
    (state.deviceBuildFor backend build plan).2 = state ∧
    ((state.deviceBuildFor backend build plan).1 = .ok held ∧
        (held.plan = plan ∨ ∃ dev, OperatorState.uploadBuild backend build plan = .ok dev) ∨
      held.plan ≠ plan ∧ ∃ e, OperatorState.uploadBuild backend build plan = .error e ∧
        (state.deviceBuildFor backend build plan).1 = .error e) := by
  by_cases hplan : held.plan = plan
  · rw [OperatorState.deviceBuildFor_hit hcell hplan]
    exact ⟨rfl, .inl ⟨rfl, .inl hplan⟩⟩
  · cases hupload : OperatorState.uploadBuild backend build plan with
    | error e =>
      have hmiss : ∀ held', state.deviceBuild = some held' → held'.plan ≠ plan := by
        intro held' hheld'
        cases hcell.symm.trans hheld'
        exact hplan
      rw [OperatorState.deviceBuildFor_error hmiss hupload]
      exact ⟨rfl, .inr ⟨hplan, e, rfl, rfl⟩⟩
    | ok dev =>
      rw [OperatorState.deviceBuildFor_stale hcell hplan hupload]
      exact ⟨rfl, .inl ⟨rfl, .inr ⟨dev, rfl⟩⟩⟩

variable {build : JoinBuild order}

/-- On a filled cell a call uses a fresh build, or none, exactly when it asks for the
cut the cell holds. -/
theorem ofCall_fresh_iff (hcell : state.deviceBuild = some held)
    (hheld : held.plan.subBatch build.batch = .ok (contents held.batch)) :
    (∀ use ∈ (BuildUse.ofCall state call).toList, use.Fresh contents) ↔
      SameCut held.plan build call := by
  unfold BuildUse.ofCall SameCut
  cases hplan : call.buildPlan with
  | none => simp
  | some plan =>
    obtain ⟨-, ⟨hused, hgot⟩ | ⟨hne, e, hupload, herror⟩⟩ :=
      deviceBuildFor_filled hcell call.backend call.build plan
    · simp only [hused, Option.toList_some, List.mem_singleton, forall_eq, BuildUse.Fresh,
        Option.some.injEq, forall_eq', hheld]
      constructor
      · rintro ⟨rfl, hcut⟩
        exact .inl ⟨rfl, hcut⟩
      · rintro (⟨rfl, hcut⟩ | ⟨hne, e, hupload⟩)
        · exact ⟨rfl, hcut⟩
        · rcases hgot with hsame | ⟨dev, hdev⟩
          · exact absurd hsame.symm hne
          · cases hupload.symm.trans hdev
    · simp only [herror, Option.toList_none, List.not_mem_nil, false_implies, implies_true,
        Option.some.injEq, forall_eq', true_iff]
      exact .inr ⟨Ne.symm hne, e, hupload⟩

variable {calls : List (JoinCall D order)}

/-- **A filled cell.**  Once the cell holds a build, it holds it for good, and the
calls that follow use fresh builds exactly when they ask for that one. -/
theorem buildUses_filled (hcell : state.deviceBuild = some held)
    (hheld : held.plan.subBatch build.batch = .ok (contents held.batch)) :
    (∀ use ∈ buildUses state calls, use.Fresh contents) ↔
      ∀ call ∈ calls, SameCut held.plan build call := by
  induction calls generalizing state with
  | nil => simp [buildUses]
  | cons call calls ih =>
    have hkept : (call.run state).deviceBuild = some held := by
      rw [JoinCall.run_deviceBuild]
      split
      · exact hcell
      · rw [(deviceBuildFor_filled hcell _ _ _).1, hcell]
    rw [buildUses, List.forall_mem_append, List.forall_mem_cons, ofCall_fresh_iff hcell hheld,
      ih hkept]

/-- **An empty cell.**  Calls that bring no build to the device use none; the first
that does fills the cell with its own cut. -/
theorem buildUses_empty (huploads : ∀ call ∈ calls, call.Uploads contents)
    (hcell : state.deviceBuild = none) :
    (∀ use ∈ buildUses state calls, use.Fresh contents) ↔ KeepsBuild calls := by
  induction calls generalizing state with
  | nil => simp [buildUses, KeepsBuild]
  | cons call calls ih =>
    have hrest : ∀ c ∈ calls, c.Uploads contents :=
      fun c hc => huploads c (List.mem_cons_of_mem _ hc)
    have hrun := JoinCall.run_deviceBuild state call
    rw [buildUses, List.forall_mem_append, KeepsBuild, BuildUse.ofCall]
    cases hplan : call.buildPlan with
    | none =>
      rw [hplan] at hrun
      simpa using ih hrest (hrun.trans hcell)
    | some plan =>
      rw [hplan] at hrun
      dsimp only at hrun ⊢
      cases hupload : OperatorState.uploadBuild call.backend call.build plan with
      | error e =>
        have hmiss := OperatorState.deviceBuildFor_error
          (fun held hheld => nomatch hcell.symm.trans hheld) hupload
        rw [hmiss] at hrun ⊢
        simpa using ih hrest (hrun.trans hcell)
      | ok dev =>
        have hfill := OperatorState.deviceBuildFor_fill hcell hupload
        have hcut := uploadBuild_contents (huploads call List.mem_cons_self) hupload
        rw [hfill] at hrun ⊢
        rw [buildUses_filled hrun hcut]
        simp [BuildUse.Fresh, hcut]

/-- **The cached build is fresh exactly along histories that keep it.**  On a fresh
operator, for every history of calls, every device build a call uses was cut from
that call's build batch by that call's plan if and only if every call after the first
upload asks for the cut that upload made. -/
theorem buildUses_fresh_iff {contents : D → RecordBatch}
    (huploads : ∀ call ∈ calls, call.Uploads contents) :
    (∀ use ∈ buildUses {} calls, use.Fresh contents) ↔ KeepsBuild calls :=
  buildUses_empty huploads rfl

end Histories

/-- One call against `mixedBuild`, with a choice of output columns. -/
def mixedCall (projection : List Nat) : JoinCall RecordBatch .insertion where
  backend := OperatorState.nestedLoopBackend
  left := mixedBatch
  build := OperatorState.mixedBuild
  leftKey := 0
  projection := some projection

theorem mixedCall_uploads (projection : List Nat) : (mixedCall projection).Uploads id :=
  fun _ _ h => (Except.ok.inj h).symm

theorem buildUses_fresh_iff_repeated :
    ((∀ use ∈ buildUses {} [mixedCall [0, 3], mixedCall [0, 3]], use.Fresh id) ↔
      KeepsBuild [mixedCall [0, 3], mixedCall [0, 3]]) ∧
    (buildUses {} [mixedCall [0, 3], mixedCall [0, 3]]).length = 2 := by
  refine ⟨buildUses_fresh_iff fun call hcall => ?_, rfl⟩
  rcases List.mem_cons.mp hcall with rfl | hcall
  · exact mixedCall_uploads _
  · cases List.mem_singleton.mp hcall
    exact mixedCall_uploads _

/-- Two projections of one build side: the second call needs row ids that the build
of the first one does not have, and gets that build all the same. -/
theorem buildUses_stale :
    ¬ ∀ use ∈ buildUses {} [mixedCall [0, 2], mixedCall [0, 3]], use.Fresh id := by
  intro h
  have huses : (buildUses {} [mixedCall [0, 2], mixedCall [0, 3]]).map
      (fun use => (use.plan, use.used.plan)) =
      [(⟨[0], false⟩, ⟨[0], false⟩), (⟨[0], true⟩, ⟨[0], false⟩)] := rfl
  have hmem : ((⟨[0], true⟩, ⟨[0], false⟩) : SidePlan × SidePlan) ∈
      (buildUses {} [mixedCall [0, 2], mixedCall [0, 3]]).map
        (fun use => (use.plan, use.used.plan)) := by
    rw [huses]
    simp
  obtain ⟨use, huse, heq⟩ := List.mem_map.mp hmem
  have hplan := (h use huse).1
  have hsame : (⟨[0], false⟩ : SidePlan) = ⟨[0], true⟩ := by
    rw [← (Prod.mk.inj heq).2, ← (Prod.mk.inj heq).1, hplan]
  cases hsame

end OxideLake
