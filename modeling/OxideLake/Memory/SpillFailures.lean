import OxideLake.Memory.SpillEviction

/-!
# Failed calls of the spill manager

An insert registers its batch before the loops, and nothing takes the entry back when one of
them fails; a `remove` forgets its entry before it deletes the file; and whatever fails after
the counters have changed leaves the gauges as they were.  Which calls fail can be told from
the state before: the batches that have to go are the oldest of a tier, as many as it takes
(`World.surplus`), so what the store and the device reply decides the rest.
-/

namespace OxideLake

namespace Spill

open Interruptible Relation

/-! ## What has to go -/

/-- The first rows of a tier, until the rest of it is within the limit. -/
def surplus (limit : ℕ) : ℕ → List (ℕ × Entry) → List (ℕ × Entry)
  | _, [] => []
  | used, row :: rows => if used ≤ limit then [] else row :: surplus limit (used - row.2.bytes) rows

/-- The entries of a tier that have to go, the oldest first. -/
def World.surplus (w : World) (tier : Tier) (limit : ℕ) : List (ℕ × Entry) :=
  Spill.surplus limit (w.used tier)
    (w.entries.ranked (fun entry => entry.tier == tier) Entry.lastTouch)

variable {manager : SpillManager} {history : List ℕ} {w : World} {tier : Tier} {limit : ℕ}

theorem surplus_of_within (h : w.used tier ≤ limit) : w.surplus tier limit = [] := by
  rw [World.surplus]
  cases w.entries.ranked (fun entry => entry.tier == tier) Entry.lastTouch with
  | nil => rfl
  | cons row rows => exact if_pos h

/-- The victim is the first to go, and what is left to go is what has to go without it. -/
theorem Victim.surplus {id : ℕ} {entry : Entry} (h : Victim w tier id entry)
    (hrecent : Recent history w) (hover : limit < w.used tier) {f : Entry → Entry}
    (hleaves : (f entry).tier ≠ tier) :
    w.surplus tier limit = (id, entry) :: Spill.surplus limit (w.used tier - entry.bytes)
      ((w.entries.modify id f).ranked (fun entry => entry.tier == tier) Entry.lastTouch) := by
  have hranked := Ledger.ranked_modify h.coldest h.found (fun k v k' v' hget hget' htouch => by
    rw [hrecent.touches k v hget, hrecent.touches k' v' hget'] at htouch
    exact lastUse_injective (hrecent.mem k v hget) htouch) (f := f)
    (beq_eq_false_iff_ne.mpr hleaves)
  rw [World.surplus, hranked]
  exact if_neg (Nat.not_le.mpr hover)

/-- An entry that has left memory. -/
def toDiskTier (entry : Entry) : Entry := { entry with tier := .disk }

theorem Demotes.surplus {s s' : World × Outside} (h : Demotes manager tier s s')
    (hrecent : Recent history s.1) (hover : limit < s.1.used tier) {id : ℕ} {entry : Entry}
    (hvictim : Victim s.1 tier id entry) :
    s.1.surplus tier limit = (id, entry) :: s'.1.surplus tier limit := by
  cases h with
  | @unload w _ _ id' entry' resident hvictim' _ _ =>
    obtain rfl : id = id' := Option.some.inj (hvictim.coldest.symm.trans hvictim'.coldest)
    obtain rfl : entry = entry' := Option.some.inj (hvictim.found.symm.trans hvictim'.found)
    exact hvictim.surplus hrecent hover nofun
  | @spill w _ _ id' entry' batch bytes hvictim' _ _ _ =>
    obtain rfl : id = id' := Option.some.inj (hvictim.coldest.symm.trans hvictim'.coldest)
    obtain rfl : entry = entry' := Option.some.inj (hvictim.found.symm.trans hvictim'.found)
    exact hvictim.surplus hrecent hover nofun

/-! ## How the loops end -/

/-- How a call ends, whatever it returns. -/
inductive Ending where
  | returned
  | failed
  | dropped
  deriving DecidableEq

def ending {α : Type} : Outcome EngineError α → Ending
  | .done _ => .returned
  | .failed _ => .failed
  | .cancelled => .dropped

/-- How the writes of some batches go: the end they come to, and for each batch written its
bytes in host memory and on disk. -/
def written (ipc : Ipc) : List (ℕ × Entry) → Outside → Ending × List (ℕ × ℕ)
  | [], _ => (.returned, [])
  | (_, entry) :: rows, outside =>
    match entry.payload with
    | .host batch =>
      match ipc.encode batch with
      | .error _ => (.failed, [])
      | .ok bytes =>
        match outside.takeReply with
        | (.fail _, _) => (.failed, [])
        | (.cancelled _, _) => (.dropped, [])
        | (.ok, outside') =>
          ((written ipc rows outside').1,
            (entry.bytes, bytes.length) :: (written ipc rows outside').2)
    | _ => (.returned, [])

/-- The world once some batches are unloaded, if every download succeeds. -/
def unloaded : List (ℕ × Entry) → World × Outside → Option (World × Outside)
  | [], s => some s
  | (id, entry) :: rows, (w, outside) =>
    match entry.payload, outside.takeDownload with
    | .device resident, (none, outside') =>
      unloaded rows (w.unload id entry.bytes resident.contents, outside')
    | _, _ => none

section Drain

variable {s : World × Outside} {r : CallResult Unit}

theorem Stops.written (h : Stops manager .host s r) (hrecent : Recent history s.1)
    (hover : limit < s.1.used .host) :
    written manager.ipc (s.1.surplus .host limit) s.2 = (ending r.1, []) := by
  cases h with
  | unwritable hvictim hpayload hencode =>
    rw [hvictim.surplus hrecent hover (f := toDiskTier) nofun]
    simp only [Spill.written, hpayload, hencode, ending]
  | refused hvictim hpayload hencode hreply | dropped hvictim hpayload hencode hreply =>
    rw [hvictim.surplus hrecent hover (f := toDiskTier) nofun]
    simp only [Spill.written, hpayload, hencode, hreply, ending]

/-- **How the loop of the host tier ends**, and what it has done to the counters by then. -/
theorem Drain.written (h : Drain manager .host limit s r) (haccounts : Accounts s.1)
    (hrecent : Recent history s.1) :
    let done := written manager.ipc (s.1.surplus .host limit) s.2
    ending r.1 = done.1 ∧ r.2.1.published = s.1.published ∧
    r.2.1.used .device = s.1.used .device ∧
    r.2.1.used .host + (done.2.map Prod.fst).sum = s.1.used .host ∧
    r.2.1.used .disk = s.1.used .disk + (done.2.map Prod.snd).sum := by
  induction h with
  | within hwithin =>
    rw [surplus_of_within hwithin]
    exact ⟨rfl, rfl, rfl, rfl, rfl⟩
  | stop hover hstops =>
    obtain ⟨-, -, hused, hpublished⟩ := hstops.entries
    rw [hstops.written hrecent hover, hused]
    exact ⟨rfl, hpublished, rfl, rfl, rfl⟩
  | demote hover hdemotes _ ih =>
    have hrest := ih (hdemotes.accounts haccounts) (hdemotes.recent hrecent)
    cases hdemotes with
    | @spill w outside outside' id entry batch bytes hvictim hpayload hencode hreply =>
      have hdemotes := Demotes.spill hvictim hpayload hencode hreply
      rw [hdemotes.surplus hrecent hover hvictim]
      simp only [Spill.written, hpayload, hencode, hreply]
      obtain ⟨hending, hpublished, hdevice, hhost, hdisk⟩ := hrest
      have hle : entry.bytes ≤ w.used .host := hvictim.tier_eq ▸ haccounts.bytes_le hvictim.found
      refine ⟨hending, hpublished, hdevice, ?_, ?_⟩
      · rw [List.map_cons, List.sum_cons, Nat.add_left_comm, hhost]
        show entry.bytes + (w.used .host - entry.bytes) = w.used .host
        omega
      · rw [hdisk, List.map_cons, List.sum_cons, ← Nat.add_assoc]
        rfl

/-- **How the loop of the device tier ends**: all that has to go is unloaded, or a download
fails. -/
theorem Drain.unloaded (h : Drain manager .device limit s r) (hrecent : Recent history s.1) :
    (r.1 = .done () ∧ unloaded (s.1.surplus .device limit) s = some r.2) ∨
      (ending r.1 = .failed ∧ unloaded (s.1.surplus .device limit) s = none) := by
  induction h with
  | within hwithin =>
    rw [surplus_of_within hwithin]
    exact .inl ⟨rfl, rfl⟩
  | stop hover hstops =>
    cases hstops with
    | undelivered hvictim hpayload hdownload =>
      refine .inr ⟨rfl, ?_⟩
      rw [hvictim.surplus hrecent hover (f := toDiskTier) nofun]
      simp only [Spill.unloaded, hpayload, hdownload]
  | demote hover hdemotes _ ih =>
    have hrest := ih (hdemotes.recent hrecent)
    cases hdemotes with
    | unload hvictim hpayload hdownload =>
      have hdemotes : Demotes manager .device _ _ := .unload hvictim hpayload hdownload
      rw [hdemotes.surplus hrecent hover hvictim]
      simp only [Spill.unloaded, hpayload, hdownload]
      exact hrest

variable (manager) in
/-- How the loops of a call end, from what has to go and the replies. -/
def settled (tier : Tier) (s : World × Outside) : Ending :=
  match tier with
  | .device =>
    match unloaded (s.1.surplus .device manager.budget.deviceBytes) s with
    | none => .failed
    | some s' => (Spill.written manager.ipc (s'.1.surplus .host manager.budget.hostBytes) s'.2).1
  | _ => (Spill.written manager.ipc (s.1.surplus .host manager.budget.hostBytes) s.2).1

/-- How the loops end, from the store's answers. -/
theorem Settles.ending (h : Settles manager tier s r) (haccounts : Accounts s.1)
    (hrecent : Recent history s.1) : ending r.1 = settled manager tier s := by
  cases h with
  | host hhost => exact (hhost.written haccounts hrecent).1
  | stopped hdevice hnot =>
    obtain ⟨hdone, -⟩ | ⟨hfailed, hnone⟩ := hdevice.unloaded hrecent
    · exact absurd hdone (hnot ())
    · simp only [settled, hnone]
      exact hfailed
  | device hdevice hhost =>
    obtain ⟨-, hsome⟩ | ⟨hfailed, -⟩ := hdevice.unloaded hrecent
    · simp only [settled, hsome]
      exact (hhost.written (hdevice.accounts haccounts) (hdevice.recent hrecent)).1
    · cases hfailed

theorem Drain.isSome (h : Drain manager tier limit s r) (id : ℕ) :
    (r.2.1.entries.get? id).isSome = (s.1.entries.get? id).isSome := by
  induction h with
  | within _ => rfl
  | stop _ hstops => rw [hstops.entries.1]
  | demote _ hdemotes _ ih =>
    obtain ⟨victim, old, new, hvictim, -, -, hentries, -⟩ := hdemotes.entries
    rw [ih, hentries]
    split
    · next heq => rw [heq, hvictim.found]; rfl
    · rfl

theorem Settles.isSome (h : Settles manager tier s r) (id : ℕ) :
    (r.2.1.entries.get? id).isSome = (s.1.entries.get? id).isSome := by
  cases h with
  | host hhost => exact hhost.isSome id
  | stopped hdevice _ => exact hdevice.isSome id
  | device hdevice hhost => rw [hhost.isSome, hdevice.isSome]

end Drain

/-! ## Half done or not -/

/-- A call is not half done: if it fails the registered ids are those before it, and if it
returns at all the gauges are the counters. -/
def Intact {α : Type} (w : World) (result : CallResult α) : Prop :=
  ((∃ e, result.1 = .failed e) →
    ∀ id, (result.2.1.entries.get? id).isSome = (w.entries.get? id).isSome) ∧
  (result.1 ≠ .cancelled → result.2.1.published = result.2.1.used)

theorem intact_cancelled {α : Type} (s : World × Outside) :
    Intact w ((.cancelled, s) : CallResult α) :=
  ⟨nofun, fun h => absurd rfl h⟩

theorem intact_iff_of_used {α : Type} {result : CallResult α} (hreturns : result.1 ≠ .cancelled)
    (hused : result.2.1.used = w.used) (hpublished : result.2.1.published = w.published)
    (hids : ∀ id, (result.2.1.entries.get? id).isSome = (w.entries.get? id).isSome) :
    Intact w result ↔ w.published = w.used := by
  rw [← hused, ← hpublished]
  exact ⟨fun h => h.2 hreturns, fun h => ⟨fun _ => hids, fun _ => h⟩⟩

section Insert

variable {id : ℕ} {arrival : Arrival}

/-- **An insert** is half done exactly when its loops fail: nothing takes the entry back. -/
theorem insert_intact_iff (haccounts : Accounts w) (hrecent : Recent history w)
    (hfresh : w.entries.get? id = none) (outside : Outside) :
    Intact w (arrival.insert manager id (w, outside)) ↔
      settled manager arrival.tier (w.enter id arrival, outside) ≠ .failed := by
  obtain ⟨r, hsettles, hrun⟩ := insert_settles manager haccounts hfresh arrival outside
  have hending := hsettles.ending (haccounts.enter hfresh arrival) (hrecent.enter id arrival)
  rw [hrun, ← hending]
  rcases r with ⟨_ | e | _, s⟩
  · exact ⟨fun _ => nofun, fun _ => ⟨nofun, fun _ => rfl⟩⟩
  · refine ⟨fun hintact => ?_, fun h => absurd rfl h⟩
    have hregistered := hsettles.isSome id
    rw [enter_entries, if_pos rfl] at hregistered
    have hsame := hintact.1 ⟨e, rfl⟩ id
    rw [hfresh] at hsame
    exact absurd (hsame.symm.trans hregistered) nofun
  · exact ⟨fun _ => nofun, fun _ => intact_cancelled s⟩

end Insert

/-- What keeps a `remove` from being half done: the gauges are right if there is nothing to
remove, and the store does not fail the deletion of a file. -/
def RemoveIntact (w : World) (id : ℕ) (outside : Outside) : Prop :=
  match w.entries.get? id with
  | none => w.published = w.used
  | some entry => ¬ (entry.tier = .disk ∧ ∃ detail, outside.takeReply.1 = .fail detail)

/-- When a `remove` leaves the map intact. -/
theorem remove_intact_iff (haccounts : Accounts w) (id : ℕ) (outside : Outside) :
    Intact w (remove id (w, outside)) ↔ RemoveIntact w id outside := by
  unfold RemoveIntact
  cases hget : w.entries.get? id with
  | none =>
    rw [remove_unknown hget]
    exact intact_iff_of_used nofun rfl rfl fun _ => rfl
  | some entry =>
    have htier := haccounts.tiers id entry hget
    by_cases hdisk : entry.payload.tier = .disk
    · obtain ⟨path, hpayload⟩ : ∃ path, entry.payload = .disk path := by
        cases hpayload : entry.payload with
        | disk path => exact ⟨path, rfl⟩
        | host batch | device resident => rw [hpayload] at hdisk; cases hdisk
      rw [remove_disk hget hpayload]
      rcases outside.takeReply with ⟨_ | detail | effective, outside'⟩
      · exact ⟨fun _ => nofun, fun _ => ⟨nofun, fun _ => rfl⟩⟩
      · refine ⟨fun hintact => ?_, fun h => absurd ⟨htier.trans hdisk, detail, rfl⟩ h⟩
        have hsame := hintact.1 ⟨_, rfl⟩ id
        rw [hget] at hsame
        have hgone : (w.forget id entry).entries.get? id = none := Ledger.get?_erase_self _ _
        rw [hgone] at hsame
        cases hsame
      · exact ⟨fun _ => nofun, fun _ => intact_cancelled _⟩
    · rw [remove_memory hget hdisk]
      exact ⟨fun _ h => hdisk (htier.symm.trans h.1), fun _ => ⟨nofun, fun _ => rfl⟩⟩

variable (manager) in
/-- What keeps a `get` from being half done.  It publishes after its loop only, so a call that
comes to no loop needs gauges that are right before it, and so does one whose loop fails,
unless what the loop wrote by then makes up for the promotion. -/
def GetIntact (w : World) (id : ℕ) (outside : Outside) : Prop :=
  match w.entries.get? id with
  | none => w.published = w.used
  | some entry =>
    match entry.payload with
    | .disk path =>
      match outside.takeReply with
      | (.cancelled _, _) => True
      | (.fail _, _) => w.published = w.used
      | (.ok, outside') =>
        match w.objects path with
        | none => w.published = w.used
        | some bytes =>
          match manager.ipc.decode bytes with
          | .error _ => w.published = w.used
          | .ok batch =>
            match outside'.takeReply with
            | (.cancelled _, _) => True
            | (_, outside'') =>
              let done := written manager.ipc ((w.reload id entry batch).surplus .host
                manager.budget.hostBytes) outside''
              done.1 = .failed → w.published .device = w.used .device ∧
                w.published .host + (done.2.map Prod.fst).sum =
                  w.used .host + entry.promotedBytes batch ∧
                w.published .disk + entry.bytes =
                  w.used .disk + (done.2.map Prod.snd).sum
    | _ => w.published = w.used

section Get

variable {id : ℕ} {entry : Entry}

theorem touch_isSome (w : World) (id other : ℕ) :
    ((w.touch id).entries.get? other).isSome = (w.entries.get? other).isSome := by
  rw [touch_entries]
  split
  · rw [Option.isSome_map]
  · rfl

theorem intact_touch_iff {α : Type} {outcome : Outcome EngineError α} {outside : Outside}
    (hreturns : outcome ≠ .cancelled) :
    Intact w (outcome, (w.touch id, outside)) ↔ w.published = w.used :=
  intact_iff_of_used hreturns rfl rfl (touch_isSome w id)

/-- When a reload leaves the map intact. -/
theorem intact_reload_iff (haccounts : Accounts w) (hrecent : Recent history w)
    (hget : w.entries.get? id = some entry) {path : String} (hpayload : entry.payload = .disk path)
    (batch : HostBatch) (gone : Bool) (outside : Outside) :
    let done := written manager.ipc ((w.reload id entry batch).surplus .host
      manager.budget.hostBytes) outside
    Intact w (finish batch (enforceHost manager
        ((w.reload id entry batch).eraseIf gone path, outside))) ↔
      (done.1 = .failed → w.published .device = w.used .device ∧
        w.published .host + (done.2.map Prod.fst).sum = w.used .host + entry.promotedBytes batch ∧
        w.published .disk + entry.bytes = w.used .disk + (done.2.map Prod.snd).sum) := by
  intro done
  have hreload := (haccounts.reload hget hpayload batch).eraseIf gone path
  have hdrain : Drain manager .host manager.budget.hostBytes
      ((w.reload id entry batch).eraseIf gone path, outside) _ := enforceHost_drain hreload
  have hsurplus : ((w.reload id entry batch).eraseIf gone path).surplus .host
      manager.budget.hostBytes = (w.reload id entry batch).surplus .host
        manager.budget.hostBytes := by
    cases gone <;> rfl
  have hcounters : ((w.reload id entry batch).eraseIf gone path).used =
    (w.reload id entry batch).used
      ∧ ((w.reload id entry batch).eraseIf gone path).published = w.published := by
    cases gone <;> exact ⟨rfl, rfl⟩
  obtain ⟨hending, hpublished, hdevice, hhost, hdisk⟩ := hdrain.written hreload
    ((hrecent.reload id entry batch).eraseIf gone path)
  rw [hsurplus] at hending hhost hdisk
  rw [hcounters.1] at hdevice hhost hdisk
  rw [hcounters.2] at hpublished
  have hids := fun other => hdrain.isSome other
  generalize enforceHost manager ((w.reload id entry batch).eraseIf gone path, outside) = r at *
  rw [← hending]
  rcases r with ⟨_ | e | _, s⟩
  · exact ⟨fun _ => nofun, fun _ => ⟨nofun, fun _ => rfl⟩⟩
  · have hdevice : s.1.used .device = w.used .device := hdevice
    have hhost : s.1.used .host + (done.2.map Prod.fst).sum =
      w.used .host + entry.promotedBytes batch := hhost
    have hdisk : s.1.used .disk = w.used .disk - entry.bytes + (done.2.map Prod.snd).sum := hdisk
    have htier : entry.tier = .disk := by
      rw [haccounts.tiers id entry hget, hpayload]
      rfl
    have hle : entry.bytes ≤ w.used .disk := htier ▸ haccounts.bytes_le hget
    refine ⟨fun hintact _ => ?_, fun h => ⟨fun _ other => ?_, fun _ => ?_⟩⟩
    · have hgauges : s.1.published = s.1.used := hintact.2 nofun
      rw [← hpublished, hgauges]
      omega
    · refine (hids other).trans ?_
      rw [reload_entries hget]
      split
      · next heq => rw [heq, hget]; rfl
      · rfl
    · obtain ⟨hdevice', hhost', hdisk'⟩ := h rfl
      show s.1.published = s.1.used
      rw [hpublished]
      funext tier
      cases tier with
      | device | host | disk => omega
  · exact ⟨fun _ => nofun, fun _ => intact_cancelled s⟩

/-- **A `get`** is half done exactly when the gauges do not show what it did. -/
theorem get_intact_iff (haccounts : Accounts w) (hrecent : Recent history w) (id : ℕ)
    (outside : Outside) :
    Intact w (get manager id (w, outside)) ↔ GetIntact manager w id outside := by
  unfold GetIntact
  cases hget : w.entries.get? id with
  | none =>
    rw [get_unknown hget]
    exact intact_iff_of_used (by rintro ⟨⟩) rfl rfl fun _ => rfl
  | some entry =>
    cases hpayload : entry.payload with
    | host batch =>
      rw [get_host hget hpayload]
      simp only [hpayload]
      exact intact_touch_iff (by rintro ⟨⟩)
    | device resident =>
      rw [get_device hget hpayload, toHost_apply]
      simp only [hpayload]
      rcases outside.takeDownload with ⟨_ | detail, outside'⟩
      · exact intact_touch_iff (by rintro ⟨⟩)
      · exact intact_touch_iff (by rintro ⟨⟩)
    | disk path =>
      rw [get_disk haccounts hget hpayload, readSpill_apply]
      rcases outside.takeReply with ⟨_ | detail | effective, outside'⟩
      · have hobjects : (w.touch id).objects path = w.objects path := rfl
        simp only [hobjects, hpayload]
        cases hobject : w.objects path with
        | none => exact intact_touch_iff (by rintro ⟨⟩)
        | some bytes =>
          cases hdecode : manager.ipc.decode bytes with
          | error e =>
            simp only [hdecode]
            exact intact_touch_iff (by rintro ⟨⟩)
          | ok batch =>
            simp only [hdecode]
            obtain ⟨deletion, -, hdelete⟩ :=
              delete_apply (w := w.reload id entry batch) path outside'
            rw [hdelete]
            rcases outside'.takeReply with ⟨_ | detail | effective, outside''⟩
            · exact intact_reload_iff haccounts hrecent hget hpayload batch true outside''
            · exact intact_reload_iff haccounts hrecent hget hpayload batch false outside''
            · exact ⟨fun _ => trivial, fun _ => intact_cancelled _⟩
      · simp only [hpayload]
        exact intact_touch_iff (by rintro ⟨⟩)
      · simp only [hpayload]
        exact ⟨fun _ => trivial, fun _ => intact_cancelled _⟩

end Get

/-- **When a spill operation is not half done.**  From every reachable state and for whatever
the store and the device reply, an insert is not half done exactly when none of the downloads
and writes its loops need fails; a `remove` exactly when the store does not fail the deletion
of its file, the gauges being right if there is nothing to remove; and a `get` exactly when its
loop does not fail after a promotion the gauges do not show, or when the gauges were right and
it comes to no loop. -/
theorem run_intact_iff (manager : SpillManager) (events : List Event) :
    let system := System.run manager events
    let w := system.world
    (∀ id arrival outside, system.waiting.lookup id = some arrival →
      (Intact w (arrival.insert manager id (w, outside)) ↔
        settled manager arrival.tier (w.enter id arrival, outside) ≠ .failed)) ∧
    (∀ id outside, Intact w (remove id (w, outside)) ↔ RemoveIntact w id outside) ∧
    ∀ id outside, Intact w (get manager id (w, outside)) ↔ GetIntact manager w id outside := by
  intro system w
  have haccounts : Accounts w := accounts_run events
  have hrecent : Recent (uses manager events) w := recent_run events
  exact ⟨fun id arrival outside hwaits =>
      insert_intact_iff haccounts hrecent (run_waiting_fresh hwaits) outside,
    remove_intact_iff haccounts, get_intact_iff haccounts hrecent⟩

/-- A store that fails the one write an insert needs: the insert returns an error, and the
batch stays registered under the id its caller never got, in tiers the gauges do not show. -/
theorem insert_leaves_registered :
    let w := (System.run diskOnly [.arrive (.host ⟨rowsOnly 3, 24⟩)]).world
    let result := Arrival.insert diskOnly 1 (.host ⟨rowsOnly 3, 24⟩) (w, ⟨[.fail "full"], []⟩)
    result.1 = .failed (.io false "full") ∧ w.entries.get? 1 = none ∧
      (result.2.1.entries.get? 1).isSome = true ∧
      result.2.1.used .host = 24 ∧ result.2.1.published .host = 0 :=
  ⟨rfl, rfl, rfl, rfl, rfl⟩

end Spill

end OxideLake
