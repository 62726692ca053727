import OxideLake.Memory.SpillCalls

/-!
# The spill manager is a map

What the manager is for is a map from ids to batches (`Registry`): an insert adds a binding
under a new id, a `remove` drops one, and neither budgets nor tiers are seen.  The manager
refines it.  Each batch lives its own life, through its payload and the file under its path
(`View`), and a move is at most one step of one batch's life (`Shift`).

The budgets follow: a call that returns `Ok` after its loops leaves the tiers within them.
-/

namespace OxideLake

namespace Spill

open List Interruptible Relation Function Ledger

variable {id : ℕ} {entry : Entry} {outside : Outside} {path : String}

/-! ## One batch's life -/

/-- What one id has: the payload of its entry, and the object under its path. -/
structure View where
  payload : Option Payload
  object : Option (List UInt8)

variable (manager : SpillManager)

/-- The view of an id. -/
def World.view (w : World) (id : ℕ) : View :=
  ⟨(w.entries.get? id).map Entry.payload, w.objects (spillPath manager id)⟩

/-- The steps of a batch's life.  Without faults a file is there exactly on disk. -/
inductive Shift (faulty : Prop) (id : ℕ) : View → View → Prop
  | refl (view : View) : Shift faulty id view view
  | unload (resident : Resident) (object : Option (List UInt8)) :
      Shift faulty id ⟨some (.device resident), object⟩ ⟨some (.host resident.contents), object⟩
  | spill {batch : HostBatch} {bytes : List UInt8} (hencode : manager.ipc.encode batch = .ok bytes)
      (object : Option (List UInt8)) :
      Shift faulty id ⟨some (.host batch), object⟩ ⟨some (.disk (spillPath manager id)), some bytes⟩
  | stray {batch : HostBatch} {bytes : List UInt8} (hfaulty : faulty)
      (hencode : manager.ipc.encode batch = .ok bytes) (object : Option (List UInt8)) :
      Shift faulty id ⟨some (.host batch), object⟩ ⟨some (.host batch), some bytes⟩
  | promote {batch : HostBatch} {bytes : List UInt8} {gone : Bool}
      (hdecode : manager.ipc.decode bytes = .ok batch) (hgone : gone = false → faulty) :
      Shift faulty id ⟨some (.disk (spillPath manager id)), some bytes⟩
        ⟨some (.host batch), if gone then none else some bytes⟩

/-- The files are where they belong: a batch on disk names its own path, and nothing else is
under the prefix. -/
structure Files (w : World) : Prop where
  paths : ∀ id path, (w.view manager id).payload = some (.disk path) → path = spillPath manager id
  owned : ∀ path, w.objects path ≠ none → ∃ id, path = spillPath manager id

variable {manager} {faulty flaky : Prop} {w w' : World}

theorem spillPath_injective : Function.Injective (spillPath manager) := by
  intro id id' h
  have h := congrArg String.toList h
  simp only [spillPath, String.toList_append, append_assoc, Nat.repr_eq_ofList_toDigits,
    String.toList_ofList] at h
  have h := append_cancel_right (append_cancel_left (append_cancel_left h))
  have h := congrArg (fun digits => Nat.ofDigitChars 10 digits 0) h
  simpa only [Nat.ofDigitChars_ten_toDigits] using h

theorem view_of_get (hget : w.entries.get? id = some entry) :
    w.view manager id = ⟨some entry.payload, w.objects (spillPath manager id)⟩ := by
  rw [World.view, hget]
  rfl

theorem eraseIf_entries (gone : Bool) (path : String) :
    (w.eraseIf gone path).entries = w.entries := by
  cases gone with
  | false | true => rfl

theorem eraseIf_objects_self (gone : Bool) (path : String) :
    (w.eraseIf gone path).objects path = if gone then none else w.objects path := by
  cases gone with
  | false => rfl
  | true => exact update_self _ _ _

theorem eraseIf_objects_of_ne (gone : Bool) {other : String} (hne : other ≠ path) :
    (w.eraseIf gone path).objects other = w.objects other := by
  cases gone with
  | false => rfl
  | true => exact update_of_ne hne _ _

theorem shift_of_change {other : ℕ} {entry' : Entry} (hget : w.entries.get? id = some entry)
    (hentries : ∀ other, w'.entries.get? other = if other = id then some entry' else
      w.entries.get? other)
    (hobjects : ∀ path, path ≠ spillPath manager id → w'.objects path = w.objects path)
    (hshift : Shift manager faulty id ⟨some entry.payload, w.objects (spillPath manager id)⟩
      ⟨some entry'.payload, w'.objects (spillPath manager id)⟩) :
    Shift manager faulty other (w.view manager other) (w'.view manager other) := by
  by_cases hother : other = id
  · subst hother
    rw [view_of_get hget, view_of_get ((hentries other).trans (if_pos rfl))]
    exact hshift
  · have hobject := hobjects _ fun h => hother (spillPath_injective h)
    rw [World.view, World.view, hentries, if_neg hother, hobject]
    exact .refl _

/-- **A move is one step of one batch's life.** -/
theorem Move.shift (hmove : Move manager faulty w w') (hfiles : Files manager w) (id : ℕ) :
    Shift manager faulty id (w.view manager id) (w'.view manager id) := by
  cases hmove with
  | tick | publish => exact .refl _
  | touch touch hget =>
    exact shift_of_change hget (get?_modify_of_some hget _) (fun _ _ => rfl) (.refl _)
  | unload hget hpayload =>
    refine shift_of_change hget (get?_modify_of_some hget _) (fun _ _ => rfl) ?_
    rw [hpayload]
    exact .unload _ _
  | @spill victim entry batch bytes hget hpayload hencode =>
    refine shift_of_change hget (get?_modify_of_some hget _)
      (fun _ hne => update_of_ne hne _ _) ?_
    have hput : (w.setObject (spillPath manager victim) bytes).objects (spillPath manager victim) =
      some bytes := update_self _ _ _
    rw [hpayload]
    show Shift manager faulty _ _ ⟨_, (w.setObject _ _).objects _⟩
    rw [hput]
    exact .spill hencode _
  | @stray victim entry batch bytes hfaulty hget hpayload hencode =>
    have hsame : ∀ other, w.entries.get? other =
        if other = victim then some entry else w.entries.get? other := by
      intro other
      split
      · next heq => rw [heq, hget]
      · rfl
    refine shift_of_change hget hsame (fun _ hne => update_of_ne hne _ _) ?_
    have hput : (w.setObject (spillPath manager victim) bytes).objects (spillPath manager victim) =
      some bytes := update_self _ _ _
    rw [hput, hpayload]
    exact .stray hfaulty hencode _
  | @promote victim entry path bytes batch gone hget hpayload hobject hdecode hgone =>
    have hpath := hfiles.paths victim path (by rw [view_of_get hget, hpayload])
    subst hpath
    have hentries : ∀ other, (w.promote victim entry.bytes (entry.promotedBytes batch)
        batch).entries.get? other = _ := get?_modify_of_some hget _
    rw [← eraseIf_entries gone (spillPath manager victim)] at hentries
    refine shift_of_change hget hentries (fun _ hne => eraseIf_objects_of_ne _ hne) ?_
    rw [eraseIf_objects_self, hpayload]
    show Shift manager faulty _ _ ⟨_, if gone then none else w.objects _⟩
    rw [hobject]
    exact .promote hdecode hgone

theorem setObject_owned (hfiles : Files manager w) (id : ℕ) (bytes : List UInt8) (path : String)
    (hpath : (w.setObject (spillPath manager id) bytes).objects path ≠ none) :
    ∃ id, path = spillPath manager id := by
  by_cases heq : path = spillPath manager id
  · exact ⟨id, heq⟩
  · have hsame : (w.setObject (spillPath manager id) bytes).objects path = w.objects path :=
      update_of_ne heq _ _
    rw [hsame] at hpath
    exact hfiles.owned path hpath

theorem eraseIf_owned {gone : Bool} {erased : String}
    (hpath : (w.eraseIf gone erased).objects path ≠ none) : w.objects path ≠ none := by
  by_cases heq : path = erased
  · subst heq
    rw [eraseIf_objects_self] at hpath
    split at hpath
    · exact absurd rfl hpath
    · exact hpath
  · rwa [eraseIf_objects_of_ne gone heq] at hpath

theorem Files.move (hfiles : Files manager w) (hmove : Move manager faulty w w') :
    Files manager w' where
  paths id path hpath := by
    have hshift := hmove.shift hfiles id
    generalize hview : w.view manager id = view at hshift
    generalize w'.view manager id = view' at hshift hpath
    cases hshift with
    | refl => exact hfiles.paths id path (hview ▸ hpath)
    | spill => cases hpath; rfl
    | unload | stray | promote => cases hpath
  owned path hpath := by
    cases hmove with
    | tick | publish | touch | unload => exact hfiles.owned path hpath
    | spill | stray => exact setObject_owned hfiles _ _ path hpath
    | promote =>
      have hbefore := eraseIf_owned hpath
      exact hfiles.owned path hbefore

theorem eraseIf_nextId (gone : Bool) (path : String) : (w.eraseIf gone path).nextId = w.nextId := by
  cases gone with
  | false | true => rfl

theorem Move.nextId (hmove : Move manager faulty w w') : w'.nextId = w.nextId := by
  cases hmove with
  | promote => exact eraseIf_nextId _ _
  | _ => rfl

/-! ## The map -/

/-- **What the manager is for**: the batches under their ids, with the inserts that have an
id and wait.  All ids ever given out and all those taken out are kept for the record. -/
structure Registry where
  nextId : ℕ
  waiting : List (ℕ × Arrival)
  batches : ℕ → Option RecordBatch
  allocated : List (ℕ × Arrival)
  removed : List ℕ

namespace Registry

/-- An empty map. -/
def new : Registry := ⟨1, [], fun _ => none, [], []⟩

/-- An event as the map sees it. -/
def step (registry : Registry) : Event → Registry
  | .arrive arrival =>
    { registry with
      nextId := registry.nextId + 1
      waiting := (registry.nextId, arrival) :: registry.waiting
      allocated := (registry.nextId, arrival) :: registry.allocated }
  | .insert id _ =>
    match registry.waiting.lookup id with
    | none => registry
    | some arrival =>
      { registry with
        waiting := others registry.waiting id
        batches := update registry.batches id (some arrival.batch) }
  | .abandon id => { registry with waiting := others registry.waiting id }
  | .get _ _ => registry
  | .remove id _ =>
    if (registry.batches id).isSome then
      { registry with
        batches := update registry.batches id none
        removed := id :: registry.removed }
    else registry

/-- The map after a run. -/
def run (events : List Event) : Registry := events.foldl step new

/-- The map is fed by inserts, each id once: what waits or was taken out is not in it. -/
structure Sound (registry : Registry) : Prop where
  nodup : (registry.allocated.map Prod.fst).Nodup
  bounded : ∀ call ∈ registry.allocated, call.1 < registry.nextId
  waiting : ∀ call ∈ registry.waiting, call ∈ registry.allocated ∧
    registry.batches call.1 = none ∧ call.1 ∉ registry.removed
  batches : ∀ id batch, registry.batches id = some batch →
    ∃ arrival, (id, arrival) ∈ registry.allocated ∧ arrival.batch = batch
  removed : ∀ id ∈ registry.removed, registry.batches id = none ∧
    ∃ arrival, (id, arrival) ∈ registry.allocated

theorem sound_new : Sound new := ⟨nodup_nil, nofun, nofun, nofun, nofun⟩

variable {waiting : List (ℕ × Arrival)}

theorem mem_others {call : ℕ × Arrival}
    (h : call ∈ others waiting id) : call ∈ waiting ∧ call.1 ≠ id := by
  obtain ⟨hmem, hne⟩ := mem_filter.mp h
  exact ⟨hmem, of_decide_eq_true hne⟩

theorem mem_of_lookup {arrival : Arrival}
    (h : waiting.lookup id = some arrival) : (id, arrival) ∈ waiting := by
  induction waiting with
  | nil => cases h
  | cons call rest ih =>
    rw [lookup_cons] at h
    split at h
    · next heq =>
      cases h
      obtain rfl := beq_iff_eq.mp heq
      exact mem_cons_self
    · exact mem_cons_of_mem _ (ih h)

variable {registry : Registry}

theorem Sound.arrive (h : Sound registry) (arrival : Arrival) :
    Sound (registry.step (.arrive arrival)) := by
  have hfresh : ∀ arrival', (registry.nextId, arrival') ∉ registry.allocated :=
    fun _ hmem => absurd (h.bounded _ hmem) (Nat.lt_irrefl _)
  refine ⟨?_, ?_, ?_, ?_, ?_⟩
  · refine nodup_cons.mpr ⟨fun hmem => ?_, h.nodup⟩
    obtain ⟨⟨_, arrival'⟩, hcall, rfl⟩ := mem_map.mp hmem
    exact hfresh arrival' hcall
  · intro call hcall
    rcases mem_cons.mp hcall with rfl | hcall
    · exact Nat.lt_succ_self _
    · exact Nat.lt_succ_of_lt (h.bounded call hcall)
  · intro call hcall
    rcases mem_cons.mp hcall with rfl | hcall
    · refine ⟨mem_cons_self, ?_, fun hmem => ?_⟩
      · by_contra hne
        obtain ⟨batch, hbatch⟩ := Option.ne_none_iff_exists'.mp hne
        obtain ⟨arrival', hmem, -⟩ := h.batches _ _ hbatch
        exact hfresh arrival' hmem
      · obtain ⟨-, arrival', hcall⟩ := h.removed _ hmem
        exact hfresh arrival' hcall
    · obtain ⟨hmem, hrest⟩ := h.waiting call hcall
      exact ⟨mem_cons_of_mem _ hmem, hrest⟩
  · intro id batch hbatch
    obtain ⟨arrival', hmem, hsame⟩ := h.batches id batch hbatch
    exact ⟨arrival', mem_cons_of_mem _ hmem, hsame⟩
  · intro id hid
    obtain ⟨hnone, arrival', hmem⟩ := h.removed id hid
    exact ⟨hnone, arrival', mem_cons_of_mem _ hmem⟩

/-- A waiting insert enters. -/
theorem Sound.enter (h : Sound registry) {arrival : Arrival}
    (hlookup : registry.waiting.lookup id = some arrival) :
    Sound { registry with
      waiting := others registry.waiting id
      batches := update registry.batches id (some arrival.batch) } := by
  obtain ⟨hallocated, -, hkept⟩ := h.waiting _ (mem_of_lookup hlookup)
  refine ⟨h.nodup, h.bounded, ?_, ?_, ?_⟩
  · intro call hcall
    obtain ⟨hmem, hne⟩ := mem_others hcall
    obtain ⟨hin, hnone, hnot⟩ := h.waiting call hmem
    exact ⟨hin, (update_of_ne hne _ _).trans hnone, hnot⟩
  · intro other batch hbatch
    by_cases hother : other = id
    · subst hother
      have hsame := (update_self other _ registry.batches).symm.trans hbatch
      obtain rfl := Option.some.inj hsame
      exact ⟨arrival, hallocated, rfl⟩
    · exact h.batches other batch ((update_of_ne hother _ _).symm.trans hbatch)
  · intro other hother
    obtain ⟨hnone, hin⟩ := h.removed other hother
    have hne : other ≠ id := fun heq => hkept (heq ▸ hother)
    exact ⟨(update_of_ne hne _ _).trans hnone, hin⟩

/-- An entry is removed. -/
theorem Sound.drop (h : Sound registry) {batch : RecordBatch}
    (hbatch : registry.batches id = some batch) :
    Sound { registry with
      batches := update registry.batches id none
      removed := id :: registry.removed } := by
  refine ⟨h.nodup, h.bounded, ?_, ?_, ?_⟩
  · intro call hcall
    obtain ⟨hin, hnone, hnot⟩ := h.waiting call hcall
    have hne : call.1 ≠ id := by
      rintro rfl
      rw [hnone] at hbatch
      cases hbatch
    refine ⟨hin, (update_of_ne hne _ _).trans hnone, fun hmem => ?_⟩
    rcases mem_cons.mp hmem with heq | hmem
    · exact hne heq
    · exact hnot hmem
  · intro other batch' hbatch'
    have hne : other ≠ id := by
      rintro rfl
      cases (update_self _ _ _).symm.trans hbatch'
    exact h.batches other batch' ((update_of_ne hne _ _).symm.trans hbatch')
  · intro other hother
    by_cases heq : other = id
    · subst heq
      obtain ⟨arrival, hmem, -⟩ := h.batches other batch hbatch
      exact ⟨update_self _ _ _, arrival, hmem⟩
    · obtain ⟨hnone, hin⟩ := h.removed other ((mem_cons.mp hother).resolve_left heq)
      exact ⟨(update_of_ne heq _ _).trans hnone, hin⟩

/-- **One event** keeps the registry. -/
theorem Sound.step (h : Sound registry) (event : Event) : Sound (registry.step event) := by
  cases event with
  | arrive arrival => exact h.arrive arrival
  | insert id outside =>
    cases hlookup : registry.waiting.lookup id with
    | none => simpa only [Registry.step, hlookup] using h
    | some arrival => simpa only [Registry.step, hlookup] using h.enter hlookup
  | abandon id =>
    exact ⟨h.nodup, h.bounded, fun call hcall => h.waiting call (mem_others hcall).1, h.batches,
      h.removed⟩
  | get id outside => exact h
  | remove id outside =>
    cases hbatch : registry.batches id with
    | none =>
      simpa only [Registry.step, hbatch, Option.isSome_none, Bool.false_eq_true, if_false]
        using h
    | some batch =>
      simpa only [Registry.step, hbatch, Option.isSome_some, if_true] using h.drop hbatch

/-- **A run** keeps the map sound. -/
theorem run_sound (events : List Event) : Sound (run events) := by
  have hfold : ∀ registry, Sound registry → Sound (events.foldl step registry) := by
    induction events with
    | nil => exact fun _ h => h
    | cons event events ih => exact fun registry h => ih _ (h.step event)
  exact hfold new sound_new

end Registry

/-! ## The manager refines the map -/

/-- The codec keeps a batch: what an encoding of it decodes as is the batch again. -/
def Ipc.Preserves (ipc : Ipc) (batch : RecordBatch) : Prop :=
  ∀ original : HostBatch, original.batch = batch →
    ∃ bytes copy, ipc.encode original = .ok bytes ∧ ipc.decode bytes = .ok copy ∧ copy.batch = batch

variable (manager) in
/-- A batch can be read back from a payload and its file. -/
def View.Keeps (view : View) (batch : RecordBatch) : Prop :=
  match view.payload with
  | none => False
  | some (.host stored) => stored.batch = batch
  | some (.device resident) => resident.contents.batch = batch
  | some (.disk _) => ∃ bytes copy, view.object = some bytes ∧ manager.ipc.decode bytes = .ok copy ∧
      copy.batch = batch

variable (manager faulty) in
/-- What one id has fits its binding: there is an entry if there is a binding, the batch can
be read back, and without faults there is a file exactly for a batch on disk. -/
structure View.Fits (binding : Option RecordBatch) (view : View) : Prop where
  known : view.payload.isSome = binding.isSome
  keeps : ∀ batch, binding = some batch → manager.ipc.Preserves batch → view.Keeps manager batch
  exact : ¬ faulty → (view.object ≠ none ↔ ∃ path, view.payload = some (.disk path))

variable {binding : Option RecordBatch}

/-- **A step of a batch's life** does not change what it fits. -/
theorem View.Fits.shift {view view' : View}
    (h : view.Fits manager faulty binding) (hshift : Shift manager faulty id view view') :
    view'.Fits manager faulty binding := by
  cases hshift with
  | refl => exact h
  | unload resident object =>
    refine ⟨h.known, h.keeps, fun hok => ?_⟩
    simpa using h.exact hok
  | @spill batch bytes hencode object =>
    refine ⟨h.known, fun kept hkept hipc => ?_, fun _ => by simp⟩
    obtain ⟨bytes', copy, hencode', hdecode, hcopy⟩ := hipc batch (h.keeps kept hkept hipc)
    obtain rfl := Except.ok.inj (hencode.symm.trans hencode')
    exact ⟨bytes, copy, rfl, hdecode, hcopy⟩
  | stray hfaulty hencode object =>
    exact ⟨h.known, h.keeps, fun hok => absurd hfaulty hok⟩
  | @promote batch bytes gone hdecode hgone =>
    refine ⟨h.known, fun kept hkept hipc => ?_, fun hok => ?_⟩
    · obtain ⟨bytes', copy, hobject, hdecode', hcopy⟩ := h.keeps kept hkept hipc
      obtain rfl := Option.some.inj hobject
      obtain rfl := Except.ok.inj (hdecode.symm.trans hdecode')
      exact hcopy
    · have hdeleted : gone = true := by
        by_contra hnot
        exact hok (hgone (Bool.eq_false_of_not_eq_true hnot))
      simp [hdeleted]

variable (manager faulty) in
/-- A world refines the bindings of a map. -/
structure Refines (w : World) (nextId : ℕ) (batches : ℕ → Option RecordBatch) : Prop where
  accounts : Accounts w
  files : Files manager w
  nextId : w.nextId = nextId
  views : ∀ id, (w.view manager id).Fits manager faulty (batches id)

variable {nextId : ℕ} {batches : ℕ → Option RecordBatch}

theorem refines_new : Refines manager faulty .new 1 fun _ => none where
  accounts := accounts_new
  files := ⟨nofun, fun _ h => absurd rfl h⟩
  nextId := rfl
  views _ := ⟨rfl, nofun, fun _ => ⟨fun h => absurd rfl h, nofun⟩⟩

section

variable (h : Refines manager faulty w nextId batches)
include h

/-- Demotions and promotions are invisible. -/
theorem Refines.moves
    (hmoves : Moves manager faulty w w') : Refines manager faulty w' nextId batches := by
  induction hmoves with
  | refl => exact h
  | tail _ hmove ih =>
    exact ⟨ih.accounts.move hmove, ih.files.move hmove, hmove.nextId.trans ih.nextId,
      fun id => (ih.views id).shift (hmove.shift ih.files id)⟩

theorem Refines.get?_isSome (id : ℕ) :
    (w.entries.get? id).isSome = (batches id).isSome := by
  have hknown := (h.views id).known
  rwa [World.view, Option.isSome_map] at hknown

theorem Refines.get?_eq_none (hnone : batches id = none) : w.entries.get? id = none := by
  have hsome := h.get?_isSome id
  rw [hnone] at hsome
  exact Option.not_isSome_iff_eq_none.mp (by simp [hsome])

end

theorem view_enter_self (id : ℕ) (arrival : Arrival) :
    (w.enter id arrival).view manager id =
      ⟨some (arrival.entry (w.clock + 1)).payload, w.objects (spillPath manager id)⟩ :=
  view_of_get (get?_insert_self _ _ _)

theorem view_enter_of_ne {other : ℕ} (hne : other ≠ id) (arrival : Arrival) :
    (w.enter id arrival).view manager other = w.view manager other := by
  have hget : (w.enter id arrival).entries.get? other = w.entries.get? other :=
    get?_insert_of_ne _ hne _
  rw [World.view, hget]
  rfl

/-- An entry under a fresh id adds its batch to the map. -/
theorem Refines.enter (h : Refines manager faulty w nextId batches) (hnone : batches id = none)
    (arrival : Arrival) :
    Refines manager faulty (w.enter id arrival) nextId
      (update batches id (some arrival.batch)) where
  accounts := h.accounts.enter (h.get?_eq_none hnone) arrival
  files := by
    refine ⟨fun other path hpath => ?_, h.files.owned⟩
    by_cases hother : other = id
    · rw [hother, view_enter_self] at hpath
      cases arrival with
      | host batch | device resident schema => cases hpath
    · rw [view_enter_of_ne hother] at hpath
      exact h.files.paths other path hpath
  nextId := h.nextId
  views other := by
    by_cases hother : other = id
    · subst hother
      rw [view_enter_self, update_self]
      refine ⟨rfl, fun batch hbatch _ => ?_, fun hok => ?_⟩
      · cases hbatch
        cases arrival with
        | host batch | device resident schema => exact rfl
      · have hobject := (h.views other).exact hok
        rw [World.view, h.get?_eq_none hnone] at hobject
        cases arrival with
        | host batch | device resident schema => simpa [Arrival.entry] using hobject
    · rw [view_enter_of_ne hother, update_of_ne hother]
      exact h.views other

theorem Forgotten.view_of_ne {other : ℕ} (hne : other ≠ id) (hget : w.entries.get? id = some entry)
    (hfiles : Files manager w) (h : Forgotten faulty w id entry w') :
    w'.view manager other = w.view manager other := by
  have herased : (w.entries.erase id).get? other = w.entries.get? other :=
    get?_erase_of_ne _ hne
  cases h with
  | memory _ =>
    show (⟨((w.entries.erase id).get? other).map _, _⟩ : View) = _
    rw [herased]
    rfl
  | @file path gone hpayload _ =>
    have hpath := hfiles.paths id path (by rw [view_of_get hget, hpayload])
    have hne' : spillPath manager other ≠ path := fun heq =>
      hne (spillPath_injective (heq.trans hpath))
    rw [World.view, eraseIf_entries, eraseIf_objects_of_ne _ hne']
    show (⟨((w.entries.erase id).get? other).map _, _⟩ : View) = _
    rw [herased]
    rfl

section

variable (h : Forgotten faulty w id entry w')
include h

theorem Forgotten.payload_self :
    (w'.view manager id).payload = none := by
  have herased : (w.entries.erase id).get? id = none := get?_erase_self _ _
  cases h with
  | memory _ =>
    show ((w.entries.erase id).get? id).map _ = none
    rw [herased]
    rfl
  | file _ _ =>
    rw [World.view, eraseIf_entries]
    show ((w.entries.erase id).get? id).map _ = none
    rw [herased]
    rfl

theorem Forgotten.object_self (hget : w.entries.get? id = some entry) (hfiles : Files manager w)
    (hfits : (w.view manager id).Fits manager faulty binding) (hok : ¬ faulty) :
    (w'.view manager id).object = none := by
  cases h with
  | memory hpayload =>
    have hexact := hfits.exact hok
    rw [view_of_get hget] at hexact
    by_contra hsome
    obtain ⟨path, hpath⟩ := hexact.mp hsome
    rw [Option.some.inj hpath] at hpayload
    exact hpayload rfl
  | @file path gone hpayload hgone =>
    have hpath := hfiles.paths id path (by rw [view_of_get hget, hpayload])
    have hdeleted : gone = true := by
      by_contra hnot
      exact hok (hgone (Bool.eq_false_of_not_eq_true hnot))
    show (World.eraseIf _ gone path).objects (spillPath manager id) = none
    rw [← hpath, eraseIf_objects_self, if_pos hdeleted]

theorem Forgotten.nextId_eq :
    w'.nextId = w.nextId := by
  cases h with
  | memory _ => rfl
  | file _ _ => exact eraseIf_nextId _ _

theorem Forgotten.objects (hpath : w'.objects path ≠ none) :
    w.objects path ≠ none := by
  cases h with
  | memory _ => exact hpath
  | file _ _ =>
    have hbefore := eraseIf_owned hpath
    exact hbefore

end

/-- An entry that is gone is gone from the map. -/
theorem Refines.forgotten (h : Refines manager faulty w nextId batches)
    (hget : w.entries.get? id = some entry) (hforgotten : Forgotten faulty w id entry w') :
    Refines manager faulty w' nextId (update batches id none) where
  accounts := h.accounts.forgotten hget hforgotten
  files := by
    refine ⟨fun other path hpath => ?_, fun path hpath => h.files.owned path
      (hforgotten.objects hpath)⟩
    by_cases hother : other = id
    · rw [hother, hforgotten.payload_self] at hpath
      cases hpath
    · rw [hforgotten.view_of_ne hother hget h.files] at hpath
      exact h.files.paths other path hpath
  nextId := hforgotten.nextId_eq.trans h.nextId
  views other := by
    by_cases hother : other = id
    · subst hother
      have hpayload : (w'.view manager other).payload = none := hforgotten.payload_self
      rw [update_self]
      refine ⟨by rw [hpayload]; rfl, nofun, fun hok => ?_⟩
      rw [hpayload, hforgotten.object_self hget h.files (h.views other) hok]
      exact ⟨fun hne => absurd rfl hne, nofun⟩
    · rw [hforgotten.view_of_ne hother hget h.files, update_of_ne hother]
      exact h.views other

/-! ## Runs -/

theorem at_start (hstore : ∀ r ∈ outside.store, r ≠ .ok → faulty)
    (hdownloads : ∀ d ∈ outside.downloads, d ≠ none → flaky) :
    At faulty flaky w (w, outside) := ⟨rfl, hstore, hdownloads⟩

section Calls

variable {outside : Outside} (hstore : ∀ r ∈ outside.store, r ≠ .ok → faulty)

include hstore

section

variable (h : Refines manager faulty w nextId batches)
include h

/-- An insert, whatever its loops do. -/
theorem Refines.insert (hnone : batches id = none) (arrival : Arrival) :
    Refines manager faulty (arrival.insert manager id (w, outside)).2.1 nextId
      (update batches id (some arrival.batch)) := by
  obtain ⟨r, hsettles, hrun⟩ :=
    insert_settles manager h.accounts (h.get?_eq_none hnone) arrival outside
  have hat : At faulty True (w.enter id arrival) (w.enter id arrival, outside) :=
    at_start hstore fun _ _ _ => trivial
  rw [hrun]
  exact (h.enter hnone arrival).moves (moves_finish id (hsettles.moves hat))

/-- A `get` leaves the map alone. -/
theorem Refines.get (id : ℕ) :
    Refines manager faulty (get manager id (w, outside)).2.1 nextId batches := by
  cases hget : w.entries.get? id with
  | none =>
    rw [get_unknown hget]
    exact h.moves (.single (.tick w))
  | some entry =>
    have hat : At faulty True w (w, outside) := at_start hstore fun _ _ _ => trivial
    exact h.moves (get_ends h.accounts hget hat).moves

/-- A `remove`. -/
theorem Refines.remove (id : ℕ) :
    Refines manager faulty (remove id (w, outside)).2.1 nextId
      (update batches id none) := by
  cases hget : w.entries.get? id with
  | none =>
    have hnone : batches id = none := by
      have hsome := h.get?_isSome id
      rw [hget] at hsome
      exact Option.not_isSome_iff_eq_none.mp (by simp [← hsome])
    rw [remove_unknown hget, ← hnone, update_eq_self]
    exact h
  | some entry =>
    have hat : At faulty True w (w, outside) := at_start hstore fun _ _ _ => trivial
    obtain ⟨w', hforgotten, hmoves⟩ := remove_forgets hget hat
    exact (h.forgotten hget hforgotten).moves hmoves

end

end Calls

variable (manager faulty) in
/-- The manager and its callers refine the map. -/
structure Tracks (system : System) (registry : Registry) : Prop where
  world : Refines manager faulty system.world registry.nextId registry.batches
  waiting : system.waiting = registry.waiting

/-- **One event**: the system follows the registry. -/
theorem Tracks.step {system : System} {registry : Registry}
    (h : Tracks manager faulty system registry) (hsound : registry.Sound) (event : Event)
    (hstore : ∀ r ∈ event.outside.store, r ≠ .ok → faulty) :
    Tracks manager faulty (system.step manager event) (registry.step event) := by
  cases event with
  | arrive arrival =>
    have hnext := h.world.nextId
    refine ⟨⟨h.world.accounts.congr rfl rfl rfl, ⟨h.world.files.paths, h.world.files.owned⟩,
      congrArg (· + 1) hnext, h.world.views⟩, ?_⟩
    show (system.world.nextId, arrival) :: system.waiting = _ :: registry.waiting
    rw [hnext, h.waiting]
  | insert id outside =>
    cases hlookup : registry.waiting.lookup id with
    | none => simpa only [System.step, Registry.step, h.waiting, hlookup] using h
    | some arrival =>
      simp only [System.step, Registry.step, h.waiting, hlookup]
      have hnone := (hsound.waiting _ (Registry.mem_of_lookup hlookup)).2.1
      exact ⟨h.world.insert hstore hnone arrival, rfl⟩
  | abandon id => exact ⟨h.world, congrArg (others · id) h.waiting⟩
  | get id outside => exact ⟨h.world.get hstore id, h.waiting⟩
  | remove id outside =>
    have hremoved := h.world.remove hstore id
    cases hbatch : registry.batches id with
    | none =>
      rw [← hbatch, update_eq_self] at hremoved
      simp only [Registry.step, hbatch, Option.isSome_none, Bool.false_eq_true, if_false]
      exact ⟨hremoved, h.waiting⟩
    | some batch =>
      simp only [Registry.step, hbatch, Option.isSome_some, if_true]
      exact ⟨hremoved, h.waiting⟩

variable {events : List Event}

/-- **A run** keeps the refinement. -/
theorem tracks_run (hstore : ∀ event ∈ events, ∀ r ∈ event.outside.store, r ≠ .ok → faulty) :
    Tracks manager faulty (System.run manager events) (Registry.run events) := by
  have hfold : ∀ system registry, Tracks manager faulty system registry → registry.Sound →
      Tracks manager faulty (events.foldl (System.step manager) system)
        (events.foldl Registry.step registry) := by
    induction events with
    | nil => exact fun _ _ h _ => h
    | cons event events ih =>
      intro system registry h hsound
      exact ih (fun event' hmem => hstore event' (mem_cons_of_mem _ hmem)) _ _
        (h.step hsound event (hstore event mem_cons_self)) (hsound.step event)
  exact hfold .new .new ⟨refines_new, rfl⟩ Registry.sound_new

/-- A run with any failures. -/
theorem tracks_any (manager : SpillManager) (events : List Event) :
    Tracks manager True (System.run manager events) (Registry.run events) :=
  tracks_run fun _ _ _ _ _ => trivial

theorem accounts_run (events : List Event) : Accounts (System.run manager events).world :=
  (tracks_any manager events).world.accounts

/-- **Spill accounting is exact**: whenever the lock is free every counter is the sum of the
recorded bytes of its tier and every tier is that of its payload, no subtraction has
saturated, and no loop has given up a tier over its budget. -/
theorem run_accounts (manager : SpillManager) (events : List Event) :
    let w := (System.run manager events).world
    (∀ tier, w.used tier = w.entries.total fun entry =>
      if entry.tier = tier then entry.bytes else 0) ∧
    (∀ id entry, w.entries.get? id = some entry → entry.tier = entry.payload.tier) ∧
    w.incidents = [] :=
  ⟨(accounts_run events).used, (accounts_run events).tiers, (accounts_run events).incidents⟩

/-! ## Reading back -/

theorem Move.mono {faulty' : Prop} (himp : faulty → faulty') (h : Move manager faulty w w') :
    Move manager faulty' w w' := by
  cases h with
  | tick => exact .tick w
  | publish => exact .publish w
  | touch touch hget => exact .touch touch hget
  | unload hget hpayload => exact .unload hget hpayload
  | spill hget hpayload hencode => exact .spill hget hpayload hencode
  | stray hfaulty hget hpayload hencode => exact .stray (himp hfaulty) hget hpayload hencode
  | promote hget hpayload hobject hdecode hgone =>
    exact .promote hget hpayload hobject hdecode fun h => himp (hgone h)

/-- An entry keeps the batch it yields. -/
theorem keeps_iff_yields (hget : w.entries.get? id = some entry) (hfiles : Files manager w)
    (kept : RecordBatch) :
    (w.view manager id).Keeps manager kept ↔
      ∃ batch, entry.Yields manager w batch ∧ batch.batch = kept := by
  rw [view_of_get hget]
  unfold View.Keeps Entry.Yields
  cases hpayload : entry.payload with
  | host stored | device resident => simp
  | disk path =>
    have hpath := hfiles.paths id path (by rw [view_of_get hget, hpayload])
    subst hpath
    constructor
    · rintro ⟨bytes, copy, hobject, hdecode, hcopy⟩
      exact ⟨copy, ⟨bytes, hobject, hdecode⟩, hcopy⟩
    · rintro ⟨copy, ⟨bytes, hobject, hdecode⟩, hcopy⟩
      exact ⟨bytes, copy, hobject, hdecode, hcopy⟩

theorem yields_unique {batch batch' : HostBatch} (h : entry.Yields manager w batch)
    (h' : entry.Yields manager w batch') : batch = batch' := by
  unfold Entry.Yields at h h'
  cases hpayload : entry.payload with
  | host stored | device resident =>
    simp only [hpayload] at h h'
    rw [h, h']
  | disk path =>
    simp only [hpayload] at h h'
    obtain ⟨bytes, hobject, hdecode⟩ := h
    obtain ⟨bytes', hobject', hdecode'⟩ := h'
    obtain rfl := Option.some.inj (hobject.symm.trans hobject')
    exact Except.ok.inj (hdecode.symm.trans hdecode')

theorem Refines.bound (h : Refines manager faulty w nextId batches)
    (hget : w.entries.get? id = some entry) :
    ∃ kept, batches id = some kept ∧ (manager.ipc.Preserves kept →
      ∃ batch, entry.Yields manager w batch ∧ batch.batch = kept) := by
  have hsome := h.get?_isSome id
  rw [hget] at hsome
  obtain ⟨kept, hkept⟩ := Option.isSome_iff_exists.mp hsome.symm
  exact ⟨kept, hkept, fun hipc => (keeps_iff_yields hget h.files kept).mp
    ((h.views id).keeps kept hkept hipc)⟩

/-- **A `get` returns the batch of its id.** -/
theorem Refines.get_done (h : Refines manager True w nextId batches) {batch : HostBatch}
    {s : World × Outside} (hrun : Spill.get manager id (w, outside) = (.done batch, s)) :
    ∃ kept, batches id = some kept ∧ (manager.ipc.Preserves kept → batch.batch = kept) := by
  cases hget : w.entries.get? id with
  | none =>
    rw [get_unknown hget] at hrun
    cases hrun
  | some entry =>
    obtain ⟨kept, hkept, hbound⟩ := h.bound hget
    refine ⟨kept, hkept, fun hipc => ?_⟩
    obtain ⟨batch', hyields, hbatch⟩ := hbound hipc
    have hat : At True True w (w, outside) :=
      at_start (fun _ _ _ => trivial) fun _ _ _ => trivial
    have hdone := (get_ends h.accounts hget hat).value batch (congrArg Prod.fst hrun)
    rw [yields_unique hdone hyields, hbatch]

/-- **A `get` of a registered id** returns once nothing fails any more. -/
theorem Refines.get_returns (h : Refines manager True w nextId batches)
    (hipc : ∀ id batch, batches id = some batch → manager.ipc.Preserves batch)
    (hget : w.entries.get? id = some entry) (hstore : ∀ r ∈ outside.store, r = .ok)
    (hdownloads : ∀ d ∈ outside.downloads, d = none) :
    ∃ batch s, Spill.get manager id (w, outside) = (.done batch, s) := by
  -- every batch in host memory is a bound one, so it can be written
  have hwritable : Writable manager False w := by
    intro w' hmoves victim other batch hget' hpayload
    have hmoves : Moves manager True w w' :=
      hmoves.lift (fun v => v) fun _ _ hmove => hmove.mono fun _ => trivial
    obtain ⟨kept, hkept, hbound⟩ := (h.moves hmoves).bound hget'
    obtain ⟨stored, hyields, hstored⟩ := hbound (hipc victim kept hkept)
    rw [Entry.Yields, hpayload] at hyields
    obtain ⟨bytes, -, hencode, -⟩ := hipc victim kept hkept batch (hyields ▸ hstored)
    exact ⟨bytes, hencode⟩
  have hat : At False False w (w, outside) :=
    at_start (fun r hr hne => hne (hstore r hr)) fun d hd hne => hne (hdownloads d hd)
  obtain ⟨kept, hkept, hbound⟩ := h.bound hget
  obtain ⟨batch, hyields, -⟩ := hbound (hipc id kept hkept)
  by_contra hnot
  have hfails := (get_ends h.accounts hget hat).early
    (fun batch hdone => hnot ⟨batch, _, Prod.ext hdone rfl⟩) hwritable ⟨batch, hyields⟩
  exact hfails.elim False.elim False.elim

theorem Refines.objects_iff (h : Refines manager False w nextId batches) (path : String) :
    w.objects path ≠ none ↔ ∃ id entry, w.entries.get? id = some entry ∧ entry.tier = .disk ∧
      entry.payload = .disk path := by
  constructor
  · intro hobject
    obtain ⟨id, rfl⟩ := h.files.owned path hobject
    obtain ⟨path, hpath⟩ := ((h.views id).exact not_false).mp hobject
    obtain rfl := h.files.paths id path hpath
    obtain ⟨entry, hget, hpayload⟩ := Option.map_eq_some_iff.mp hpath
    refine ⟨id, entry, hget, ?_, hpayload⟩
    rw [h.accounts.tiers id entry hget, hpayload]
    rfl
  · rintro ⟨id, entry, hget, -, hpayload⟩
    have hview : (w.view manager id).payload = some (.disk path) := by
      rw [view_of_get hget, hpayload]
    obtain rfl := h.files.paths id path hview
    exact ((h.views id).exact not_false).mpr ⟨_, hview⟩

theorem arrive_mem_of_allocated :
    ∀ call ∈ (Registry.run events).allocated, Event.arrive call.2 ∈ events := by
  have hfold : ∀ registry : Registry, ∀ call ∈ (events.foldl Registry.step registry).allocated,
      call ∈ registry.allocated ∨ Event.arrive call.2 ∈ events := by
    induction events with
    | nil => exact fun _ _ h => .inl h
    | cons event events ih =>
      intro registry call hcall
      rcases ih _ call hcall with hbefore | hlater
      · cases event with
        | arrive arrival =>
          rcases mem_cons.mp hbefore with rfl | hbefore
          · exact .inr mem_cons_self
          · exact .inl hbefore
        | insert id outside =>
          left
          cases hlookup : registry.waiting.lookup id with
          | none | some arrival => simpa only [Registry.step, hlookup] using hbefore
        | abandon id | get id outside => exact .inl hbefore
        | remove id outside =>
          left
          unfold Registry.step at hbefore
          dsimp only at hbefore
          split at hbefore
          · exact hbefore
          · exact hbefore
      · exact .inr (mem_cons_of_mem _ hlater)
  exact fun call hcall => (hfold .new call hcall).resolve_left not_mem_nil

/-! ## Ids -/

variable (manager) in
/-- What the events of a run add to a record, each in the system it finds, the last one first. -/
def recorded (record : System → Event → List ℕ) (events : List Event) : List ℕ :=
  (events.foldl (fun run event => (run.1.step manager event, record run.1 event ++ run.2))
    (System.new, [])).2

theorem recorded_append (record : System → Event → List ℕ) (events : List Event) (event : Event) :
    recorded manager record (events ++ [event]) =
      record (System.run manager events) event ++ recorded manager record events := by
  have hfold : ∀ run : System × List ℕ, (events.foldl (fun run event =>
      (run.1.step manager event, record run.1 event ++ run.2)) run).1 =
        events.foldl (System.step manager) run.1 := by
    induction events with
    | nil => exact fun _ => rfl
    | cons event events ih => exact fun run => ih _
  rw [recorded, foldl_append, foldl_cons, foldl_nil, hfold]
  rfl

variable (manager) in
/-- The id an insert that gets the lock returns, if it does. -/
def System.returns (system : System) : Event → List ℕ
  | .insert id outside =>
    match system.waiting.lookup id with
    | none => []
    | some arrival =>
      match (arrival.insert manager id (system.world, outside)).1 with
      | .done returned => [returned]
      | _ => []
  | _ => []

variable (manager) in
/-- The ids the inserts of a run return, the last one first. -/
def returned (events : List Event) : List ℕ := recorded manager (System.returns manager) events

variable (manager) in
/-- What an insert returns is the id it has waited with. -/
theorem System.waits_of_returns {event : Event}
    (h : id ∈ (System.run manager events).returns manager event) :
    (System.run manager events).returns manager event = [id] ∧
      ∃ outside arrival, event = .insert id outside ∧
        (Registry.run events).waiting.lookup id = some arrival := by
  have htracks := tracks_any manager events
  cases event with
  | insert id' outside =>
    rw [System.returns] at h ⊢
    rw [htracks.waiting] at h ⊢
    split at h
    · cases h
    · next arrival hwaits =>
      have hnone := ((Registry.run_sound events).waiting _ (Registry.mem_of_lookup hwaits)).2.1
      obtain ⟨r, -, hrun⟩ := insert_settles manager htracks.world.accounts
        (htracks.world.get?_eq_none hnone) arrival outside
      split at h
      · next returned hreturned =>
        obtain rfl := mem_singleton.mp h
        have hdone : finish id' r = (.done id, (finish id' r).2) :=
          Prod.ext (hrun ▸ hreturned) rfl
        obtain rfl := (finish_done hdone).1
        exact ⟨rfl, outside, arrival, rfl, hwaits⟩
      · cases h
  | _ => cases h

/-- An id that was taken stays taken. -/
theorem Registry.taken_step {registry : Registry} (event : Event)
    (h : (registry.batches id).isSome ∨ id ∈ registry.removed) :
    ((registry.step event).batches id).isSome ∨ id ∈ (registry.step event).removed := by
  cases event with
  | insert id' outside =>
    rw [step]
    split
    · exact h
    · refine h.imp_left fun hsome => ?_
      by_cases hid : id = id'
      · subst hid
        simp
      · simpa [update_of_ne hid] using hsome
  | remove id' outside =>
    rw [step]
    split
    · by_cases hid : id = id'
      · exact .inr (hid ▸ mem_cons_self)
      · refine h.imp (fun hsome => ?_) (mem_cons_of_mem _)
        simpa [update_of_ne hid] using hsome
    · exact h
  | _ => exact h

variable (manager) in
/-- **No insert returns an id that another has returned.** -/
theorem returned_nodup (events : List Event) :
    (returned manager events).Nodup ∧ ∀ id ∈ returned manager events,
      ((Registry.run events).batches id).isSome ∨ id ∈ (Registry.run events).removed := by
  induction events using reverseRecOn with
  | nil => exact ⟨nodup_nil, nofun⟩
  | append_singleton events event ih =>
    have hrun : Registry.run (events ++ [event]) = (Registry.run events).step event := by
      rw [Registry.run, foldl_append]
      rfl
    rw [returned, recorded_append, hrun]
    obtain ⟨hnodup, htaken⟩ := ih
    rcases hreturns : (System.run manager events).returns manager event with _ | ⟨id, rest⟩
    · exact ⟨hnodup, fun id hid => Registry.taken_step event (htaken id hid)⟩
    · obtain ⟨hsame, outside, arrival, rfl, hwaits⟩ := System.waits_of_returns
        manager (hreturns ▸ mem_cons_self)
      obtain rfl : rest = [] := (cons.inj (hreturns.symm.trans hsame)).2
      obtain ⟨-, hnone, hnot⟩ :=
        (Registry.run_sound events).waiting _ (Registry.mem_of_lookup hwaits)
      constructor
      · refine nodup_cons.mpr ⟨fun hid => ?_, hnodup⟩
        rcases htaken id hid with hsome | hremoved
        · rw [hnone] at hsome
          cases hsome
        · exact hnot hremoved
      · intro other hother
        rcases mem_cons.mp hother with rfl | hother
        · left
          rw [Registry.step, hwaits]
          simp
        · exact Registry.taken_step _ (htaken other hother)

/-- **The spill manager is a map from ids to batches**, whatever the budgets and whatever fails.
No id is given out twice, and no two inserts return one.  A `get` that returns, returns the batch
inserted under its id; it fails for an id that no insert was given or that was taken out, and once
nothing fails any more it returns for every id that is registered.  If no store request ever fails
or is cut off, the files are those of the batches on disk. -/
theorem run_isMap (manager : SpillManager) (events : List Event)
    (hipc : ∀ arrival, Event.arrive arrival ∈ events → manager.ipc.Preserves arrival.batch) :
    let w := (System.run manager events).world
    let registry := Registry.run events
    (registry.allocated.map Prod.fst).Nodup ∧
    ((returned manager events).Nodup ∧
      ∀ id ∈ returned manager events, id ∈ registry.allocated.map Prod.fst) ∧
    (∀ id outside batch s, get manager id (w, outside) = (.done batch, s) →
      ∃ arrival, (id, arrival) ∈ registry.allocated ∧ batch.batch = arrival.batch) ∧
    (∀ id outside, id ∉ registry.allocated.map Prod.fst ∨ id ∈ registry.removed →
      ∃ e s, get manager id (w, outside) = (.failed e, s)) ∧
    (∀ id, (w.entries.get? id).isSome = (registry.batches id).isSome) ∧
    (∀ id outside, (w.entries.get? id).isSome → (∀ r ∈ outside.store, r = .ok) →
      (∀ d ∈ outside.downloads, d = none) →
      ∃ batch s, get manager id (w, outside) = (.done batch, s)) ∧
    ((∀ event ∈ events, ∀ r ∈ event.outside.store, r = .ok) → ∀ path, w.objects path ≠ none ↔
      ∃ id entry, w.entries.get? id = some entry ∧ entry.tier = .disk ∧
        entry.payload = .disk path) := by
  intro w registry
  have hsound : registry.Sound := Registry.run_sound events
  have htracks := tracks_any manager events
  have hpreserves : ∀ id batch, registry.batches id = some batch →
      manager.ipc.Preserves batch := by
    intro id batch hbatch
    obtain ⟨arrival, hmem, rfl⟩ := hsound.batches id batch hbatch
    exact hipc arrival (arrive_mem_of_allocated _ hmem)
  obtain ⟨hreturned, htaken⟩ := returned_nodup manager events
  refine ⟨hsound.nodup, ⟨hreturned, fun id hid => ?_⟩, ?_, ?_, htracks.world.get?_isSome, ?_, ?_⟩
  · rcases htaken id hid with hsome | hremoved
    · obtain ⟨batch, hbatch⟩ := Option.isSome_iff_exists.mp hsome
      obtain ⟨arrival, hmem, -⟩ := hsound.batches id batch hbatch
      exact mem_map_of_mem hmem
    · obtain ⟨-, arrival, hmem⟩ := hsound.removed id hremoved
      exact mem_map_of_mem hmem
  · intro id outside batch s hrun
    obtain ⟨kept, hkept, hbatch⟩ := htracks.world.get_done hrun
    obtain ⟨arrival, hmem, rfl⟩ := hsound.batches id kept hkept
    exact ⟨arrival, hmem, hbatch (hpreserves id _ hkept)⟩
  · intro id outside hid
    have hnone : registry.batches id = none := by
      rcases hid with hunknown | hremoved
      · by_contra hne
        obtain ⟨batch, hbatch⟩ := Option.ne_none_iff_exists'.mp hne
        obtain ⟨arrival, hmem, -⟩ := hsound.batches id batch hbatch
        exact hunknown (mem_map.mpr ⟨_, hmem, rfl⟩)
      · exact (hsound.removed id hremoved).1
    exact ⟨_, _, get_unknown (htracks.world.get?_eq_none hnone) outside⟩
  · intro id outside hsome hstore hdownloads
    obtain ⟨entry, hget⟩ := Option.isSome_iff_exists.mp hsome
    exact htracks.world.get_returns hpreserves hget hstore hdownloads
  · intro hstore path
    have hclean : Tracks manager False (System.run manager events) registry :=
      tracks_run fun event hevent r hr hne => hne (hstore event hevent r hr)
    exact hclean.world.objects_iff path

/-- Rows of no columns. -/
def rowsOnly (numRows : UInt8) : RecordBatch := .ofEntries [] numRows nofun

/-- A codec that writes down the number of rows. -/
def rowCodec : Ipc where
  encode batch := .ok [UInt8.ofNat batch.batch.numRows]
  decode
    | [numRows] => .ok ⟨rowsOnly numRows, 8⟩
    | _ => .error (.format "not a row count")

theorem rowCodec_preserves (numRows : UInt8) : rowCodec.Preserves (rowsOnly numRows) := by
  intro original horiginal
  refine ⟨_, _, rfl, rfl, ?_⟩
  rw [horiginal]
  exact congrArg rowsOnly UInt8.ofNat_toNat

/-- A manager without any memory for batches. -/
def diskOnly : SpillManager where
  budget := ⟨0, 0⟩
  spillPrefix := "spill"
  ipc := rowCodec

/-- Two batches are inserted, the second to come first, and go to disk at once. -/
def twoInserts : List Event :=
  [.arrive (.host ⟨rowsOnly 3, 24⟩), .arrive (.host ⟨rowsOnly 5, 40⟩), .insert 2 {}, .insert 1 {}]

theorem run_isMap_twoInserts :
    let w := (System.run diskOnly twoInserts).world
    returned diskOnly twoInserts = [1, 2] ∧
    w.objects (spillPath diskOnly 1) ≠ none ∧ w.objects (spillPath diskOnly 2) ≠ none ∧
    (∃ batch s, get diskOnly 1 (w, {}) = (.done batch, s) ∧ batch.batch = rowsOnly 3) ∧
    ∃ batch s, get diskOnly 2 (w, {}) = (.done batch, s) ∧ batch.batch = rowsOnly 5 := by
  intro w
  obtain ⟨-, -, hbatch, -, -, hreturns, hobjects⟩ := run_isMap diskOnly twoInserts (by
    intro arrival hmem
    obtain rfl | rfl : arrival = .host ⟨rowsOnly 3, 24⟩ ∨ arrival = .host ⟨rowsOnly 5, 40⟩ := by
      simpa [twoInserts] using hmem
    · exact rowCodec_preserves 3
    · exact rowCodec_preserves 5)
  have hclean : ∀ event ∈ twoInserts, event.outside.store = [] := by
    simp [twoInserts, Event.outside]
  have hobject := hobjects (fun event hevent r hr => by simp [hclean event hevent] at hr)
  have hallocated : (Registry.run twoInserts).allocated =
      [(2, .host ⟨rowsOnly 5, 40⟩), (1, .host ⟨rowsOnly 3, 24⟩)] := rfl
  rw [hallocated] at hbatch
  have hfirst : w.entries.get? 1 =
      some ⟨.disk, 1, 24, 2, (rowsOnly 3).schema, .disk (spillPath diskOnly 1)⟩ := rfl
  have hsecond : w.entries.get? 2 =
      some ⟨.disk, 1, 40, 1, (rowsOnly 5).schema, .disk (spillPath diskOnly 2)⟩ := rfl
  refine ⟨rfl, (hobject _).mpr ⟨1, _, hfirst, rfl, rfl⟩,
    (hobject _).mpr ⟨2, _, hsecond, rfl, rfl⟩, ?_, ?_⟩
  · obtain ⟨batch, s, hget⟩ := hreturns 1 {} (by rw [hfirst]; rfl) nofun nofun
    obtain ⟨arrival, hmem, hsame⟩ := hbatch 1 {} batch s hget
    obtain rfl : arrival = .host ⟨rowsOnly 3, 24⟩ := by simpa using hmem
    exact ⟨batch, s, hget, hsame⟩
  · obtain ⟨batch, s, hget⟩ := hreturns 2 {} (by rw [hsecond]; rfl) nofun nofun
    obtain ⟨arrival, hmem, hsame⟩ := hbatch 2 {} batch s hget
    obtain rfl : arrival = .host ⟨rowsOnly 5, 40⟩ := by simpa using hmem
    exact ⟨batch, s, hget, hsame⟩

/-! ## Reachable worlds -/

theorem run_waiting_fresh {arrival : Arrival}
    (hwaits : (System.run manager events).waiting.lookup id = some arrival) :
    (System.run manager events).world.entries.get? id = none := by
  have htracks := tracks_any manager events
  rw [htracks.waiting] at hwaits
  have hsound := Registry.run_sound events
  exact htracks.world.get?_eq_none (hsound.waiting _ (Registry.mem_of_lookup hwaits)).2.1

variable (manager) in
/-- The worlds a call can be in: it has made moves since it got the lock or, an insert, since
it registered its entry. -/
inductive Passes (system : System) : World → Prop
  | call {w : World} (hmoves : Moves manager True system.world w) : Passes system w
  | insert {id : ℕ} {arrival : Arrival} {w : World}
      (hwaits : system.waiting.lookup id = some arrival)
      (hmoves : Moves manager True (system.world.enter id arrival) w) : Passes system w

theorem Passes.accounts (h : Passes manager (System.run manager events) w) :
    Accounts w := by
  cases h with
  | call hmoves => exact (accounts_run events).moves hmoves
  | insert hwaits hmoves =>
    exact ((accounts_run events).enter (run_waiting_fresh hwaits) _).moves hmoves

/-! ## Budgets -/

/-- A loop comes to its end within some rounds: with more of them it does the same, and with
these it does not run out. -/
def EndsWithin (loop : ℕ → Call Unit) (rounds : ℕ) (s : World × Outside) : Prop :=
  (∀ fuel, rounds ≤ fuel → loop fuel s = loop rounds s) ∧ (loop rounds s).2.1.incidents = []

theorem IsLoop.endsWithin {tier : Tier} {round : Call Unit → Call Unit} {loop : ℕ → Call Unit}
    (h : IsLoop manager tier limit loop round) (haccounts : Accounts s.1) :
    EndsWithin loop (s.1.entries.total (Entry.countIn tier)) s := by
  refine ⟨fun fuel hfuel => h.eq _ fuel s haccounts (Nat.le_refl _) hfuel, ?_⟩
  exact ((h.drain _ s haccounts (Nat.le_refl _)).accounts haccounts).incidents

/-- **Budgets hold and enforcement terminates**: wherever a call of a run has got to, both
loops end within as many rounds as there are entries in their tier; an insert that returns
`Ok`, and a `get` that returns `Ok` from disk, leave host memory within its budget, and an
insert into device memory leaves that within its budget too. -/
theorem run_within_budgets (manager : SpillManager) (events : List Event) :
    let system := System.run manager events
    (∀ w, Passes manager system w → ∀ outside,
      EndsWithin (enforceDeviceLoop manager) (w.entries.total (Entry.countIn .device))
        (w, outside) ∧
      EndsWithin (enforceHostLoop manager) (w.entries.total (Entry.countIn .host)) (w, outside)) ∧
    (∀ id arrival outside id' s, system.waiting.lookup id = some arrival →
      arrival.insert manager id (system.world, outside) = (.done id', s) →
      s.1.used .host ≤ manager.budget.hostBytes ∧
      (arrival.tier = .device → s.1.used .device ≤ manager.budget.deviceBytes)) ∧
    (∀ id entry outside batch s, system.world.entries.get? id = some entry → entry.tier = .disk →
      get manager id (system.world, outside) = (.done batch, s) →
      s.1.used .host ≤ manager.budget.hostBytes) := by
  intro system
  refine ⟨fun w hpasses outside => ?_, ?_, ?_⟩
  · have haccounts : Accounts (w, outside).1 := hpasses.accounts
    exact ⟨enforceDeviceLoop_isLoop.endsWithin haccounts,
      enforceHostLoop_isLoop.endsWithin haccounts⟩
  · intro id arrival outside id' s hwaits hdone
    obtain ⟨r, hsettles, hrun⟩ := insert_settles manager (accounts_run events)
      (run_waiting_fresh hwaits) arrival outside
    obtain ⟨-, hr, rfl⟩ := finish_done (hrun.symm.trans hdone)
    exact hsettles.within hr
  · intro id entry outside batch s hget htier hdone
    have haccounts : Accounts system.world := accounts_run events
    have hgets := get_gets manager haccounts hget outside
    rw [haccounts.tiers id entry hget] at htier
    rw [hdone] at hgets
    generalize hresult : (Outcome.done batch, s) = result at hgets
    cases hgets with
    | touched _ hdisk => exact absurd (Prod.mk.inj hresult).1.symm (hdisk htier batch)
    | dropped => cases hresult
    | settled _ _ _ _ hsettles =>
      obtain ⟨-, hr, rfl⟩ := finish_done hresult.symm
      exact (hsettles.within hr).1

theorem run_within_budgets_oneInsert :
    ∃ s, Arrival.insert diskOnly 1 (.host ⟨rowsOnly 3, 24⟩)
        ((System.run diskOnly [.arrive (.host ⟨rowsOnly 3, 24⟩)]).world, {}) = (.done 1, s) ∧
      s.1.used .host ≤ diskOnly.budget.hostBytes :=
  ⟨_, rfl, ((run_within_budgets diskOnly [.arrive (.host ⟨rowsOnly 3, 24⟩)]).2.1 1 _ {} 1 _ rfl
    rfl).1⟩

end Spill

end OxideLake
