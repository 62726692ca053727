import OxideLake.Memory.SpillAccounting

/-!
# How the calls of the spill manager end

An insert registers its entry and then brings the tiers within their budgets; a `get` from
disk does the same with the batch it promotes.  Either publishes the gauges last, and only if
nothing failed (`finish`).  The calls are evaluated here on any world with exact accounts, in
terms of what the store and the device reply.

From there on a call is a sequence of moves, and what it returns is what the entry yields.
-/

namespace OxideLake

namespace Spill

open Interruptible Relation

variable {manager : SpillManager} {w : World} {outside : Outside}

variable {id limit : ℕ} {entry : Entry} {s : World × Outside}
  {r : CallResult Unit} {path : String}

/-- The world with its gauges published. -/
def World.withGauges (w : World) : World := { w with published := w.used }

/-- The end of a call after its loops: the gauges are published unless something failed. -/
def finish {α : Type} (value : α) :
    CallResult Unit → CallResult α
  | (.done _, s) => (.done value, (s.1.withGauges, s.2))
  | (.failed e, s) => (.failed e, s)
  | (.cancelled, s) => (.cancelled, s)

variable {α : Type}

theorem publish_bind (c : Call Unit) (value : α) (s : World × Outside) :
    (c >>= fun _ => publish >>= fun _ => pure value) s = finish value (c s) := by
  rcases hc : c s with ⟨u | e | _, s'⟩
  · rw [bind_of_done hc]
    rfl
  · rw [bind_of_failed hc]
    rfl
  · rw [bind_of_cancelled hc]
    rfl

theorem finish_done {value value' : α} (h : finish value r = (.done value', s)) :
    value = value' ∧ r.1 = .done () ∧ s = (r.2.1.withGauges, r.2.2) := by
  rcases r with ⟨⟨⟩ | e | _, s'⟩
  · obtain ⟨hvalue, rfl⟩ := Prod.mk.inj h
    exact ⟨Outcome.done.inj hvalue, rfl, rfl⟩
  · cases h
  · cases h

theorem finish_of_done {value : α} {u : Unit} (h : r.1 = .done u) :
    (finish value r).1 = .done value := by
  rcases r with ⟨⟨⟩ | e | _, s'⟩
  · rfl
  · cases h
  · cases h

/-! ## The loops of a call -/

variable (manager) in
/-- The loops that follow a batch that comes into host memory, or into device memory. -/
inductive Settles : Tier → World × Outside → CallResult Unit → Prop
  | host {s : World × Outside} {r : CallResult Unit}
      (hhost : Drain manager .host manager.budget.hostBytes s r) : Settles .host s r
  | stopped {s : World × Outside} {r : CallResult Unit}
      (hdevice : Drain manager .device manager.budget.deviceBytes s r)
      (hnot : ∀ u, r.1 ≠ .done u) : Settles .device s r
  | device {s s' : World × Outside} {r : CallResult Unit}
      (hdevice : Drain manager .device manager.budget.deviceBytes s (.done (), s'))
      (hhost : Drain manager .host manager.budget.hostBytes s' r) : Settles .device s r

/-- The tier an insert call registers its batch in. -/
def Arrival.tier : Arrival → Tier
  | .host _ => .host
  | .device _ _ => .device

variable {tier : Tier}

/-- The loops keep the accounts. -/
theorem Drain.accounts (h : Drain manager tier limit s r) (haccounts : Accounts s.1) :
    Accounts r.2.1 := by
  induction h with
  | within _ => exact haccounts
  | stop _ hstops =>
    cases hstops with
    | undelivered | unwritable | refused => exact haccounts
    | @dropped _ _ _ _ _ _ _ effective =>
      cases effective with
      | false => exact haccounts
      | true => exact haccounts.congr rfl rfl rfl
  | demote _ hdemotes _ ih => exact ih (hdemotes.accounts haccounts)

/-- A loop that ends well ends within its budget. -/
theorem Drain.within_of_done (h : Drain manager tier limit s r)
    (hdone : r.1 = .done ()) : r.2.1.used tier ≤ limit := by
  induction h with
  | within hwithin => exact hwithin
  | stop _ hstops => cases hstops <;> cases hdone
  | demote _ _ _ ih => exact ih hdone

theorem Drain.device_eq (h : Drain manager .host limit s r) :
    r.2.1.used .device = s.1.used .device := by
  induction h with
  | within _ => rfl
  | stop _ hstops =>
    cases hstops with
    | unwritable | refused => rfl
    | @dropped _ _ _ _ _ _ _ effective => cases effective <;> rfl
  | demote _ hdemotes _ ih =>
    refine ih.trans ?_
    cases hdemotes with
    | spill _ _ _ _ => rfl

/-- The loops of a call that get to their end leave the host tier within its budget, and the
device tier too if that is where the batch came in. -/
theorem Settles.within (h : Settles manager tier s r) (hdone : r.1 = .done ()) :
    r.2.1.used .host ≤ manager.budget.hostBytes ∧
      (tier = .device → r.2.1.used .device ≤ manager.budget.deviceBytes) := by
  cases h with
  | host hhost => exact ⟨hhost.within_of_done hdone, nofun⟩
  | stopped _ hnot => exact absurd hdone (hnot ())
  | device hdevice hhost =>
    refine ⟨hhost.within_of_done hdone, fun _ => ?_⟩
    rw [hhost.device_eq]
    exact hdevice.within_of_done rfl

/-! ## The calls -/

variable (manager) in
/-- An insert is a new entry and the loops. -/
theorem insert_settles (haccounts : Accounts w) {id : ℕ} (hfresh : w.entries.get? id = none)
    (arrival : Arrival) (outside : Outside) :
    ∃ r, Settles manager arrival.tier (w.enter id arrival, outside) r ∧
      arrival.insert manager id (w, outside) = finish id r := by
  have henter := haccounts.enter hfresh arrival
  cases arrival with
  | host batch =>
    exact ⟨_, .host (enforceHost_drain henter), publish_bind (enforceHost manager) id _⟩
  | device resident schema =>
    have hdevice : Drain manager .device manager.budget.deviceBytes
        (w.enter id (.device resident schema), outside) _ := enforceDevice_drain henter
    have hrun : Arrival.insert manager id (.device resident schema) (w, outside) =
        (enforceDevice manager >>= fun _ => enforceHost manager >>= fun _ =>
          publish >>= fun _ => pure id) (w.enter id (.device resident schema), outside) := rfl
    rcases hresult : enforceDevice manager (w.enter id (.device resident schema), outside) with
      ⟨⟨⟩ | e | _, s'⟩
    · rw [hresult] at hdevice
      refine ⟨_, .device hdevice (enforceHost_drain (hdevice.accounts henter)), ?_⟩
      rw [hrun, bind_of_done hresult]
      exact publish_bind (enforceHost manager) id _
    · rw [hresult] at hdevice
      refine ⟨_, .stopped hdevice nofun, ?_⟩
      rw [hrun, bind_of_failed hresult]
      rfl
    · rw [hresult] at hdevice
      refine ⟨_, .stopped hdevice nofun, ?_⟩
      rw [hrun, bind_of_cancelled hresult]
      rfl

/-- The world once a `get` has touched its entry. -/
def World.touch (w : World) (id : ℕ) : World :=
  { w with clock := w.clock + 1 }.modifyEntry id (Entry.touched (w.clock + 1))

/-- The world once a `get` has brought its batch back from disk. -/
def World.reload (w : World) (id : ℕ) (entry : Entry) (batch : HostBatch) : World :=
  (w.touch id).promote id entry.bytes (entry.promotedBytes batch) batch

theorem match_found {found : Option Entry} (h : found = some entry) {absent : Call α}
    {present : Entry → Call α} :
    (match found with | none => absent | some entry => present entry) s = present entry s := by
  rw [h]

theorem get_host {batch : HostBatch} (hget : w.entries.get? id = some entry)
    (hpayload : entry.payload = .host batch) :
    get manager id (w, outside) = (.done batch, (w.touch id, outside)) := by
  refine (match_found hget).trans ?_
  rw [hpayload]
  rfl

theorem get_device {resident : Resident} (hget : w.entries.get? id = some entry)
    (hpayload : entry.payload = .device resident) :
    get manager id (w, outside) = toHost resident (w.touch id, outside) := by
  refine (match_found hget).trans ?_
  rw [hpayload]
  rfl

variable (manager) in
theorem readSpill_ok (path : String) (outside' : Outside) : (do
    let bytes ← (match w.objects path with
      | some bytes => pure bytes
      | none => fail (.io true (path ++ " not found")) : Call (List UInt8))
    ofExcept (manager.ipc.decode bytes) : Call HostBatch) (w, outside') =
      match w.objects path with
      | none => (.failed (.io true (path ++ " not found")), (w, outside'))
      | some bytes =>
        match manager.ipc.decode bytes with
        | .error e => (.failed e, (w, outside'))
        | .ok batch => (.done batch, (w, outside')) := by
  cases w.objects path with
  | none => rfl
  | some bytes =>
    refine (bind_of_done rfl).trans ?_
    dsimp only
    cases manager.ipc.decode bytes with
    | error e | ok batch => rfl

variable (manager) in
theorem readSpill_apply (path : String) (outside : Outside) :
    readSpill manager path (w, outside) =
      match outside.takeReply with
      | (.cancelled _, outside') => (.cancelled, (w, outside'))
      | (.fail detail, outside') => (.failed (.io false detail), (w, outside'))
      | (.ok, outside') =>
        match w.objects path with
        | none => (.failed (.io true (path ++ " not found")), (w, outside'))
        | some bytes =>
          match manager.ipc.decode bytes with
          | .error e => (.failed e, (w, outside'))
          | .ok batch => (.done batch, (w, outside')) := by
  obtain ⟨_ | ⟨_ | detail | _, rest⟩, downloads⟩ := outside
  · exact readSpill_ok manager path _
  · exact readSpill_ok manager path _
  · rfl
  · rfl

/-- A deletion of an object that is not there leaves the world as one of an object that is. -/
theorem eraseIf_of_none (hobject : w.objects path = none) :
    w.eraseIf true path = w := by
  show { w with objects := Function.update w.objects path none } = w
  rw [← hobject, Function.update_eq_self]

theorem delete_ok (path : String) :
    ∃ deletion : Deletion, (∀ detail, deletion ≠ .failed detail) ∧ ∀ outside', (do
      match w.objects path with
      | some _ => do
          change fun w => w.eraseObject path
          pure .deleted
      | none => pure .notFound : Call Deletion) (w, outside') =
        (.done deletion, (w.eraseIf true path, outside')) := by
  cases hobject : w.objects path with
  | some bytes => exact ⟨.deleted, nofun, fun _ => rfl⟩
  | none =>
    rw [eraseIf_of_none hobject]
    exact ⟨.notFound, nofun, fun _ => rfl⟩

theorem delete_apply (path : String) (outside : Outside) :
    ∃ deletion : Deletion, (∀ detail, deletion ≠ .failed detail) ∧
      delete path (w, outside) =
        match outside.takeReply with
        | (.cancelled effective, outside') => (.cancelled, (w.eraseIf effective path, outside'))
        | (.fail detail, outside') => (.done (.failed detail), (w, outside'))
        | (.ok, outside') => (.done deletion, (w.eraseIf true path, outside')) := by
  obtain ⟨deletion, hdeletion, hfound⟩ := delete_ok (w := w) path
  refine ⟨deletion, hdeletion, ?_⟩
  obtain ⟨_ | ⟨_ | detail | _ | _, rest⟩, downloads⟩ := outside
  · exact hfound _
  · exact hfound _
  · rfl
  · rfl
  · rfl

/-- **A `get` of a batch on disk**: it reads and decodes the file, promotes the batch, deletes
the file and runs the loop of the host tier. -/
theorem get_disk (haccounts : Accounts w) (hget : w.entries.get? id = some entry)
    (hpayload : entry.payload = .disk path) :
    get manager id (w, outside) =
      match readSpill manager path (w.touch id, outside) with
      | (.failed e, s) => (.failed e, s)
      | (.cancelled, s) => (.cancelled, s)
      | (.done batch, s) =>
        match delete path (w.reload id entry batch, s.2) with
        | (.failed e, s) => (.failed e, s)
        | (.cancelled, s) => (.cancelled, s)
        | (.done _, s) => finish batch (enforceHost manager s) := by
  have htier : ¬ entry.tier ≠ .disk := by
    rw [haccounts.tiers id entry hget, hpayload]
    exact fun h => h rfl
  refine (match_found hget).trans ?_
  rw [hpayload]
  simp only [if_neg htier]
  show (readSpill manager path >>= _ : Call HostBatch) (w.touch id, outside) = _
  have hread := readSpill_apply manager (w := w.touch id) path outside
  have hworld : (readSpill manager path (w.touch id, outside)).2.1 = w.touch id := by
    rw [hread]
    rcases outside.takeReply with ⟨_ | _ | _, _⟩
    · cases (w.touch id).objects path with
      | none => rfl
      | some bytes =>
        simp only
        cases manager.ipc.decode bytes <;> rfl
    · rfl
    · rfl
  rcases hresult : readSpill manager path (w.touch id, outside) with ⟨batch | e | _, w', outside'⟩
  · rw [hresult] at hworld
    subst hworld
    rw [bind_of_done hresult]
    show (delete path >>= fun _ => enforceHost manager >>= fun _ => publish >>= fun _ =>
      pure batch : Call HostBatch) (w.reload id entry batch, outside') = _
    rcases hdelete : delete path (w.reload id entry batch, outside') with ⟨_ | _ | _, s⟩
    · rw [bind_of_done hdelete, publish_bind]
      simp only [hdelete]
    · rw [bind_of_failed hdelete]
      simp only [hdelete]
    · rw [bind_of_cancelled hdelete]
      simp only [hdelete]
  · rw [bind_of_failed hresult]
  · rw [bind_of_cancelled hresult]

variable (manager w) in
/-- How a `get` of a registered entry ends, for the entries: the batch is only touched, or it
is promoted and either the call is dropped there or the loop of the host tier follows. -/
inductive Gets (id : ℕ) (entry : Entry) :
    CallResult HostBatch → Prop
  | touched {outcome : Outcome EngineError HostBatch} (outside' : Outside)
      (hdisk : entry.payload.tier = .disk → ∀ batch, outcome ≠ .done batch) :
      Gets id entry (outcome, (w.touch id, outside'))
  | dropped {path : String} {bytes : List UInt8} {batch : HostBatch} (gone : Bool)
      (outside' : Outside) (hpayload : entry.payload = .disk path)
      (hobject : w.objects path = some bytes) (hdecode : manager.ipc.decode bytes = .ok batch) :
      Gets id entry (.cancelled, ((w.reload id entry batch).eraseIf gone path, outside'))
  | settled {path : String} {bytes : List UInt8} {batch : HostBatch} (gone : Bool)
      {outside' : Outside} {r : CallResult Unit}
      (hpayload : entry.payload = .disk path) (hobject : w.objects path = some bytes)
      (hdecode : manager.ipc.decode bytes = .ok batch)
      (hsettles : Settles manager .host ((w.reload id entry batch).eraseIf gone path, outside') r) :
      Gets id entry (finish batch r)

theorem toHost_world (resident : Resident) (s : World × Outside) :
    ∃ outcome outside', toHost resident s = (outcome, (s.1, outside')) := by
  obtain ⟨w, outside⟩ := s
  rw [toHost_apply]
  rcases outside.takeDownload with ⟨_ | detail, outside'⟩
  · exact ⟨_, _, rfl⟩
  · exact ⟨_, _, rfl⟩

theorem Accounts.reload (haccounts : Accounts w) (hget : w.entries.get? id = some entry)
    (hpayload : entry.payload = .disk path) (batch : HostBatch) :
    Accounts (w.reload id entry batch) := by
  have hticked : Accounts { w with clock := w.clock + 1 } := haccounts.congr rfl rfl rfl
  have htouched : Accounts (w.touch id) := hticked.modifyEntry hget rfl rfl rfl
  have hentry : (w.touch id).entries.get? id = some (entry.touched (w.clock + 1)) := by
    show (w.entries.modify id _).get? id = _
    rw [Ledger.get?_modify_of_some hget, if_pos rfl]
  have htier : entry.tier = .disk := by
    rw [haccounts.tiers id entry hget, hpayload]
    rfl
  have := htouched.shift hentry (fun old => { old with
    tier := .host, bytes := entry.promotedBytes batch, payload := .host batch }) rfl
    (by simp [Entry.touched, htier])
  rw [show (entry.touched (w.clock + 1)).tier = .disk from htier] at this
  exact this

variable (manager) in
/-- What a `get` leaves behind. -/
theorem get_gets (haccounts : Accounts w) (hget : w.entries.get? id = some entry)
    (outside : Outside) :
    Gets manager w id entry (get manager id (w, outside)) := by
  cases hpayload : entry.payload with
  | host batch =>
    rw [get_host hget hpayload]
    exact .touched outside (by rw [hpayload]; exact nofun)
  | device resident =>
    rw [get_device hget hpayload]
    obtain ⟨outcome, outside', hrun⟩ := toHost_world resident (w.touch id, outside)
    rw [hrun]
    exact .touched outside' (by rw [hpayload]; exact nofun)
  | disk path =>
    rw [get_disk haccounts hget hpayload, readSpill_apply]
    rcases outside.takeReply with ⟨_ | detail | effective, outside'⟩
    · cases hobject : (w.touch id).objects path with
      | none => exact .touched outside' fun _ => nofun
      | some bytes =>
        cases hdecode : manager.ipc.decode bytes with
        | error e =>
          simp only [hdecode]
          exact .touched outside' fun _ => nofun
        | ok batch =>
          simp only [hdecode]
          have hreload := haccounts.reload hget hpayload batch
          obtain ⟨deletion, -, hdelete⟩ :=
            delete_apply (w := w.reload id entry batch) path outside'
          rw [hdelete]
          rcases outside'.takeReply with ⟨_ | detail | effective, outside''⟩
          · exact .settled true hpayload hobject hdecode
              (.host (enforceHost_drain (hreload.eraseIf true path)))
          · exact .settled false hpayload hobject hdecode
              (.host (enforceHost_drain hreload))
          · exact .dropped effective outside'' hpayload hobject hdecode
    · exact .touched outside' fun _ => nofun
    · exact .touched outside' fun _ => nofun

theorem remove_memory (hget : w.entries.get? id = some entry)
    (hpayload : entry.payload.tier ≠ .disk) :
    remove id (w, outside) = (.done true, ((w.forget id entry).withGauges, outside)) := by
  refine (match_found hget).trans ?_
  cases hentry : entry.payload with
  | host batch | device resident => rfl
  | disk path =>
    rw [hentry] at hpayload
    exact absurd rfl hpayload

/-- A `remove` of a batch on disk: the entry is forgotten before the file is deleted. -/
theorem remove_disk (hget : w.entries.get? id = some entry)
    (hpayload : entry.payload = .disk path) :
    remove id (w, outside) =
      match outside.takeReply with
      | (.cancelled effective, outside') =>
        (.cancelled, ((w.forget id entry).eraseIf effective path, outside'))
      | (.fail detail, outside') => (.failed (.io false detail), (w.forget id entry, outside'))
      | (.ok, outside') =>
        (.done true, (((w.forget id entry).eraseIf true path).withGauges, outside')) := by
  refine (match_found hget).trans ?_
  rw [hpayload]
  show (delete path >>= _ : Call Bool) (w.forget id entry, outside) = _
  obtain ⟨deletion, hdeletion, hdelete⟩ := delete_apply (w := w.forget id entry) path outside
  rcases htake : outside.takeReply with ⟨_ | detail | effective, outside'⟩
  · rw [htake] at hdelete
    rw [bind_of_done hdelete]
    cases deletion with
    | deleted | notFound => rfl
    | failed detail => exact absurd rfl (hdeletion detail)
  · rw [htake] at hdelete
    rw [bind_of_done hdelete]
    rfl
  · rw [htake] at hdelete
    rw [bind_of_cancelled hdelete]

theorem remove_entries (hget : w.entries.get? id = some entry) (outside : Outside) :
    (remove id (w, outside)).2.1.entries = w.entries.erase id ∧
      (remove id (w, outside)).2.1.clock = w.clock := by
  cases hpayload : entry.payload with
  | host batch | device resident =>
    rw [remove_memory hget (by rw [hpayload]; exact nofun)]
    exact ⟨rfl, rfl⟩
  | disk path =>
    rw [remove_disk hget hpayload]
    rcases outside.takeReply with ⟨_ | detail | effective, outside'⟩
    · exact ⟨rfl, rfl⟩
    · exact ⟨rfl, rfl⟩
    · cases effective <;> exact ⟨rfl, rfl⟩

/-! ## What the calls do to the world -/

variable {faulty flaky : Prop}

/-- A loop is a chain of moves. -/
theorem Drain.reached (h : Drain manager tier limit s r) (hat : At faulty flaky s.1 s) :
    Moves manager faulty s.1 r.2.1 ∧ At faulty flaky r.2.1 r.2 := by
  obtain ⟨hdone, hearly⟩ := h.moves .refl hat
  by_cases hends : ∃ u, r.1 = .done u
  · obtain ⟨u, hu⟩ := hends
    obtain ⟨w', hmoves, -, rfl, hs⟩ := hdone u hu
    exact ⟨hmoves, rfl, hs⟩
  · obtain ⟨⟨w', hmoves, rfl, hs⟩, -⟩ := hearly fun u hu => hends ⟨u, hu⟩
    exact ⟨hmoves, rfl, hs⟩

theorem Settles.moves (h : Settles manager tier s r)
    (hat : At faulty flaky s.1 s) : Moves manager faulty s.1 r.2.1 := by
  cases h with
  | host hhost => exact (hhost.reached hat).1
  | stopped hdevice _ => exact (hdevice.reached hat).1
  | device hdevice hhost =>
    obtain ⟨hmoves, hat'⟩ := hdevice.reached hat
    exact hmoves.trans (hhost.reached hat').1

theorem moves_finish {start : World} (value : α) (hmoves : Moves manager faulty start r.2.1) :
    Moves manager faulty start (finish value r).2.1 := by
  rcases r with ⟨⟨⟩ | e | _, s'⟩
  · exact hmoves.tail (.publish _)
  · exact hmoves
  · exact hmoves

variable (manager faulty flaky) in
/-- **How a `get` of a registered entry ends**: it has made moves, a batch it returns is what
the entry yields, and it does return one unless something fails. -/
structure Returns (w : World) (entry : Entry)
    (result : CallResult HostBatch) : Prop where
  moves : Moves manager faulty w result.2.1
  value : ∀ batch, result.1 = .done batch → entry.Yields manager w batch
  early : (∀ batch, result.1 ≠ .done batch) → Writable manager faulty w →
    (∃ batch, entry.Yields manager w batch) → faulty ∨ flaky

/-- How a `get` ends, by what failed outside. -/
theorem get_ends (haccounts : Accounts w) (hget : w.entries.get? id = some entry)
    (hat : At faulty flaky w (w, outside)) :
    Returns manager faulty flaky w entry (get manager id (w, outside)) := by
  have htouched : Moves manager faulty w (w.touch id) :=
    (ReflTransGen.single (.tick w)).tail (.touch (w.clock + 1) hget)
  cases hpayload : entry.payload with
  | host batch =>
    rw [get_host hget hpayload]
    refine ⟨htouched, ?_, fun h => absurd rfl (h batch)⟩
    rintro _ ⟨⟩
    rw [Entry.Yields, hpayload]
  | device resident =>
    rw [get_device hget hpayload, toHost_apply]
    rcases htake : outside.takeDownload with ⟨_ | detail, outside'⟩
    · refine ⟨htouched, ?_, fun h => absurd rfl (h resident.contents)⟩
      rintro _ ⟨⟩
      rw [Entry.Yields, hpayload]
    · exact ⟨htouched, nofun, fun _ _ _ => .inr ((hat.takeDownload htake).1 nofun)⟩
  | disk path =>
    have hyields : ∀ batch, entry.Yields manager w batch ↔
        ∃ bytes, w.objects path = some bytes ∧ manager.ipc.decode bytes = .ok batch := by
      intro batch
      rw [Entry.Yields, hpayload]
    rw [get_disk haccounts hget hpayload, readSpill_apply]
    rcases htake : outside.takeReply with ⟨_ | detail | effective, outside'⟩
    · cases hobject : (w.touch id).objects path with
      | none =>
        refine ⟨htouched, nofun, fun _ _ ⟨batch, hbatch⟩ => ?_⟩
        obtain ⟨bytes, hsome, -⟩ := (hyields batch).mp hbatch
        cases hobject.symm.trans hsome
      | some bytes =>
        cases hdecode : manager.ipc.decode bytes with
        | error e =>
          simp only [hdecode]
          refine ⟨htouched, nofun, fun _ _ ⟨batch, hbatch⟩ => ?_⟩
          obtain ⟨bytes', hsome, hok⟩ := (hyields batch).mp hbatch
          cases hobject.symm.trans hsome
          cases hdecode.symm.trans hok
        | ok batch =>
          simp only [hdecode]
          -- the touched entry is what is promoted
          have hentry : (w.touch id).entries.get? id =
              some (entry.touched (w.clock + 1)) := by
            show (w.entries.modify id _).get? id = _
            rw [Ledger.get?_modify, if_pos rfl, hget, Option.map_some]
          have hpromoted {gone : Bool} (hgone : gone = false → faulty) :
              Moves manager faulty w ((w.reload id entry batch).eraseIf gone path) := by
            have hmove := Move.promote hentry hpayload hobject hdecode hgone
            exact htouched.tail hmove
          have hsettled : ∀ gone outside'', (gone = false → faulty) →
              (∀ w'', At faulty flaky w'' (w'', outside'')) →
              Returns manager faulty flaky w entry (finish batch (enforceHost manager
                ((w.reload id entry batch).eraseIf gone path, outside''))) := by
            intro gone outside'' hgone hat''
            have hmoves := hpromoted hgone
            have hdrain : Drain manager .host manager.budget.hostBytes _ _ :=
              enforceHost_drain (s := ((w.reload id entry batch).eraseIf gone path, outside''))
                (haccounts.moves hmoves)
            refine ⟨moves_finish batch (hmoves.trans (hdrain.reached (hat'' _)).1), ?_, ?_⟩
            · intro batch' hdone
              obtain ⟨rfl, -⟩ := finish_done (Prod.ext hdone rfl)
              exact (hyields batch).mpr ⟨bytes, hobject, hdecode⟩
            · intro hnot hwritable _
              exact ((hdrain.moves hmoves (hat'' _)).2
                fun u hu => hnot batch (finish_of_done hu)).2 hwritable
          obtain ⟨deletion, -, hdelete⟩ :=
            delete_apply (w := w.reload id entry batch) path outside'
          rw [hdelete]
          have hat' := (hat.takeReply htake).2 w
          rcases htake' : outside'.takeReply with ⟨_ | detail | effective, outside''⟩
          · exact hsettled true outside'' nofun (hat'.takeReply htake').2
          · exact hsettled false outside'' (fun _ => (hat'.takeReply htake').1 nofun)
              (hat'.takeReply htake').2
          · have hfaulty := (hat'.takeReply htake').1 nofun
            exact ⟨hpromoted fun _ => hfaulty, nofun, fun _ _ _ => .inl hfaulty⟩
    · exact ⟨htouched, nofun, fun _ _ _ => .inl ((hat.takeReply htake).1 nofun)⟩
    · exact ⟨htouched, nofun, fun _ _ _ => .inl ((hat.takeReply htake).1 nofun)⟩

theorem remove_forgets (hget : w.entries.get? id = some entry)
    (hat : At faulty flaky w (w, outside)) :
    ∃ w', Forgotten faulty w id entry w' ∧
      Moves manager faulty w' (remove id (w, outside)).2.1 := by
  by_cases htier : entry.payload.tier = .disk
  · cases hpayload : entry.payload with
    | host batch | device resident => rw [hpayload] at htier; cases htier
    | disk path =>
      rw [remove_disk hget hpayload]
      rcases htake : outside.takeReply with ⟨_ | detail | effective, outside'⟩
      · have hgone : true = false → faulty := nofun
        exact ⟨_, .file hpayload hgone, .single (.publish _)⟩
      · have hgone : false = false → faulty := fun _ => (hat.takeReply htake).1 nofun
        exact ⟨_, .file hpayload hgone, .refl⟩
      · exact ⟨_, .file hpayload fun _ => (hat.takeReply htake).1 nofun, .refl⟩
  · rw [remove_memory hget htier]
    exact ⟨_, .memory htier, .single (.publish _)⟩

end Spill

end OxideLake
