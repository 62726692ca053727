import OxideLake.Memory.SpillMap

/-!
# Eviction is least recently used

The history of a run is the list of the ids its inserts and its `get`s name, the last one
first.  A touch is the place of an id in that list (`Recent`), so the coldest entry of a tier
is the one whose last use is oldest.  A batch keeps its touch through the tiers: one that was
unloaded from the device competes in host memory with its old one.
-/

namespace OxideLake

namespace Spill

open Interruptible Relation Ledger

variable {id limit : ℕ} {entry entry' : Entry} {s s' : World × Outside}
  {r : CallResult Unit}

/-! ## Histories -/

/-- The time of the last use of an id in a history, the last use first; zero if there is none. -/
def lastUse : List ℕ → ℕ → ℕ
  | [], _ => 0
  | used :: history, id => if used = id then history.length + 1 else lastUse history id

theorem lastUse_le (history : List ℕ) (id : ℕ) : lastUse history id ≤ history.length := by
  induction history with
  | nil => exact Nat.le_refl 0
  | cons used history ih =>
    rw [lastUse, List.length_cons]
    split
    · exact Nat.le_refl _
    · exact Nat.le_succ_of_le ih

theorem lastUse_cons_self (history : List ℕ) (id : ℕ) :
    lastUse (id :: history) id = history.length + 1 := if_pos rfl

theorem lastUse_cons_of_ne (history : List ℕ) {used : ℕ} (hne : id ≠ used) :
    lastUse (used :: history) id = lastUse history id := if_neg (Ne.symm hne)

theorem lastUse_injective {history : List ℕ} {id' : ℕ} (hmem : id ∈ history)
    (heq : lastUse history id = lastUse history id') : id = id' := by
  induction history with
  | nil => cases hmem
  | cons used history ih =>
    have hle := lastUse_le history id
    have hle' := lastUse_le history id'
    by_cases hid : id = used
    · by_cases hid' : id' = used
      · exact hid.trans hid'.symm
      · rw [hid, lastUse_cons_self, lastUse_cons_of_ne _ hid'] at heq
        omega
    · rw [lastUse_cons_of_ne _ hid] at heq
      by_cases hid' : id' = used
      · rw [hid', lastUse_cons_self] at heq
        omega
      · rw [lastUse_cons_of_ne _ hid'] at heq
        exact ih ((List.mem_cons.mp hmem).resolve_left hid) heq

/-- The touches are the times of the last uses. -/
structure Recent (history : List ℕ) (w : World) : Prop where
  clock : w.clock = history.length
  touches : ∀ id entry, w.entries.get? id = some entry → entry.lastTouch = lastUse history id
  mem : ∀ id entry, w.entries.get? id = some entry → id ∈ history

variable {manager : SpillManager} {history : List ℕ} {w w' : World}

theorem recent_new : Recent [] .new where
  clock := rfl
  touches id entry h := by
    have h : (empty : Ledger Entry).get? id = some entry := h
    rw [get?_empty] at h
    cases h
  mem id entry h := by
    have h : (empty : Ledger Entry).get? id = some entry := h
    rw [get?_empty] at h
    cases h

theorem Recent.congr (h : Recent history w) (hclock : w'.clock = w.clock)
    (hentries : ∀ id entry', w'.entries.get? id = some entry' →
      ∃ entry, w.entries.get? id = some entry ∧ entry'.lastTouch = entry.lastTouch) :
    Recent history w' where
  clock := hclock.trans h.clock
  touches id entry' hget := by
    obtain ⟨entry, hentry, htouch⟩ := hentries id entry' hget
    rw [htouch, h.touches id entry hentry]
  mem id entry' hget := by
    obtain ⟨entry, hentry, -⟩ := hentries id entry' hget
    exact h.mem id entry hentry

theorem Recent.modify (h : Recent history w) {f : Entry → Entry}
    (htouch : ∀ entry, (f entry).lastTouch = entry.lastTouch) (hclock : w'.clock = w.clock)
    (hentries : w'.entries = w.entries.modify id f) : Recent history w' := by
  refine h.congr hclock fun other entry' hget => ?_
  rw [hentries, get?_modify] at hget
  split at hget
  · obtain ⟨entry, hentry, rfl⟩ := Option.map_eq_some_iff.mp hget
    exact ⟨entry, hentry, htouch entry⟩
  · exact ⟨entry', hget, rfl⟩

theorem Recent.use (h : Recent history w) (hclock : w'.clock = w.clock + 1)
    (hself : ∀ entry, w'.entries.get? id = some entry → entry.lastTouch = w.clock + 1)
    (hothers : ∀ other, other ≠ id → w'.entries.get? other = w.entries.get? other) :
    Recent (id :: history) w' where
  clock := by rw [hclock, h.clock, List.length_cons]
  touches other entry hget := by
    by_cases hother : other = id
    · subst hother
      rw [hself entry hget, lastUse_cons_self, h.clock]
    · rw [hothers other hother] at hget
      rw [lastUse_cons_of_ne _ hother, h.touches other entry hget]
  mem other entry hget := by
    by_cases hother : other = id
    · exact hother ▸ List.mem_cons_self
    · rw [hothers other hother] at hget
      exact List.mem_cons_of_mem _ (h.mem other entry hget)

/-- An insert is the latest use. -/
theorem Recent.enter (h : Recent history w) (id : ℕ) (arrival : Arrival) :
    Recent (id :: history) (w.enter id arrival) := by
  refine h.use rfl (fun entry hget => ?_) fun other hother => get?_insert_of_ne _ hother _
  have hget : (w.entries.insert id (arrival.entry (w.clock + 1))).get? id = some entry := hget
  rw [get?_insert_self] at hget
  cases hget
  cases arrival with
  | host batch | device resident schema => rfl

theorem touch_entries (w : World) (id other : ℕ) :
    (w.touch id).entries.get? other =
      if other = id then (w.entries.get? other).map (Entry.touched (w.clock + 1))
      else w.entries.get? other :=
  get?_modify _ _ _ _

theorem Recent.touch (h : Recent history w) (id : ℕ) : Recent (id :: history) (w.touch id) := by
  refine h.use rfl (fun entry hget => ?_) fun other hother => ?_
  · rw [touch_entries, if_pos rfl] at hget
    obtain ⟨entry, -, rfl⟩ := Option.map_eq_some_iff.mp hget
    rfl
  · rw [touch_entries, if_neg hother]

theorem Recent.eraseIf (h : Recent history w) (gone : Bool) (path : String) :
    Recent history (w.eraseIf gone path) := by
  cases gone with
  | false => exact h
  | true => exact h.congr rfl fun id entry hget => ⟨entry, hget, rfl⟩

theorem Recent.reload (h : Recent history w) (id : ℕ) (entry : Entry) (batch : HostBatch) :
    Recent (id :: history) (w.reload id entry batch) :=
  (h.touch id).modify (f := fun old => { old with
    tier := .host, bytes := entry.promotedBytes batch, payload := .host batch })
    (fun _ => rfl) rfl rfl

/-! ## The oldest of a tier -/

/-- The last use of an id is older than that of any other of its tier. -/
structure Oldest (history : List ℕ) (w : World) (tier : Tier) (id : ℕ) : Prop where
  held : ∃ entry, w.entries.get? id = some entry ∧ entry.tier = tier
  older : ∀ other entry, w.entries.get? other = some entry → entry.tier = tier → other ≠ id →
    lastUse history id < lastUse history other

theorem Victim.oldest {tier : Tier} (h : Victim w tier id entry) (hrecent : Recent history w) :
    Oldest history w tier id where
  held := ⟨entry, h.found, h.tier_eq⟩
  older other entry' hget htier hne := by
    have hle := argmin_le h.coldest h.found hget (beq_iff_eq.mpr htier)
    rw [hrecent.touches _ _ h.found, hrecent.touches _ _ hget] at hle
    refine Nat.lt_of_le_of_ne hle fun heq => hne ?_
    exact (lastUse_injective (hrecent.mem _ _ h.found) heq).symm

/-- What a demotion does to the entries: the victim goes down one tier with its touch, and
nothing else changes. -/
theorem Demotes.entries {tier : Tier} (h : Demotes manager tier s s') :
    ∃ id entry entry', Victim s.1 tier id entry ∧ entry'.lastTouch = entry.lastTouch ∧
      s'.1.clock = s.1.clock ∧
      (∀ other, s'.1.entries.get? other =
        if other = id then some entry' else s.1.entries.get? other) ∧
      ((tier = .device ∧ entry'.tier = .host ∧ ∃ resident, entry.payload = .device resident ∧
        entry'.bytes = resident.contents.memorySize) ∨ (tier = .host ∧ entry'.tier = .disk)) := by
  cases h with
  | @unload w _ _ id entry resident hvictim hpayload _ =>
    refine ⟨id, entry, { entry with
      tier := .host, bytes := resident.contents.memorySize,
      hostBytes := resident.contents.memorySize, payload := .host resident.contents }, hvictim,
      rfl, rfl, ?_, .inl ⟨rfl, rfl, _, hpayload, rfl⟩⟩
    exact get?_modify_of_some hvictim.found _
  | @spill w _ _ id entry batch bytes hvictim _ _ _ =>
    refine ⟨id, entry, { entry with
      tier := .disk, bytes := bytes.length, payload := .disk (spillPath manager id) }, hvictim,
      rfl, rfl, ?_, .inr ⟨rfl, rfl⟩⟩
    exact get?_modify_of_some hvictim.found _

theorem Demotes.recent {tier : Tier} (h : Demotes manager tier s s')
    (hrecent : Recent history s.1) :
    Recent history s'.1 := by
  obtain ⟨id, entry, entry', hvictim, htouch, hclock, hentries, -⟩ := h.entries
  refine hrecent.congr hclock fun other entry'' hget => ?_
  rw [hentries] at hget
  split at hget
  · next heq =>
    cases hget
    exact ⟨entry, heq ▸ hvictim.found, htouch⟩
  · exact ⟨entry'', hget, rfl⟩

variable (manager) in
/-- In every state that rounds of the loops lead to from a world, the batch of a tier that goes
next is the oldest one there. -/
def TakesOldest (history : List ℕ) (w : World) : Prop :=
  ∀ outside s tier id entry,
    ReflTransGen (fun s s' => ∃ tier, Demotes manager tier s s') (w, outside) s →
    Victim s.1 tier id entry → Oldest history s.1 tier id

/-- **The loops take batches down in the order of their last uses.** -/
theorem Recent.takesOldest (hrecent : Recent history w) : TakesOldest manager history w := by
  intro outside s tier id entry hrounds hvictim
  refine hvictim.oldest ?_
  clear hvictim
  induction hrounds with
  | refl => exact hrecent
  | tail _ hround ih =>
    obtain ⟨_, hdemotes⟩ := hround
    exact hdemotes.recent ih

/-- A round that ends the call moves nothing. -/
theorem Stops.entries {tier : Tier} (h : Stops manager tier s r) :
    r.2.1.entries = s.1.entries ∧ r.2.1.clock = s.1.clock ∧ r.2.1.used = s.1.used ∧
      r.2.1.published = s.1.published := by
  cases h with
  | undelivered | unwritable | refused => exact ⟨rfl, rfl, rfl, rfl⟩
  | @dropped _ _ _ _ _ _ _ effective => cases effective <;> exact ⟨rfl, rfl, rfl, rfl⟩

section Drain

variable {tier : Tier} {limit : ℕ} {s : World × Outside}
  {r : CallResult Unit}

/-- The loops use nothing. -/
theorem Drain.recent (h : Drain manager tier limit s r) (hrecent : Recent history s.1) :
    Recent history r.2.1 := by
  induction h with
  | within _ => exact hrecent
  | stop _ hstops =>
    obtain ⟨hentries, hclock, -⟩ := hstops.entries
    exact hrecent.congr hclock fun id entry hget => ⟨entry, hentries ▸ hget, rfl⟩
  | demote _ hdemotes _ ih => exact ih (hdemotes.recent hrecent)

/-- An entry that is not where the batches of a drained tier go was there before. -/
theorem Drain.kept (h : Drain manager tier limit s r) (hget : r.2.1.entries.get? id = some entry')
    (hhost : tier = .device → entry'.tier ≠ .host) (hdisk : tier = .host → entry'.tier ≠ .disk) :
    s.1.entries.get? id = some entry' := by
  induction h with
  | within _ => exact hget
  | stop _ hstops => exact hstops.entries.1 ▸ hget
  | demote _ hdemotes _ ih =>
    obtain ⟨victim, old, new, hvictim, -, -, hentries, hnew⟩ := hdemotes.entries
    have hmid := ih hget
    rw [hentries] at hmid
    split at hmid
    · cases hmid
      obtain ⟨htier, hnew, -⟩ | ⟨htier, hnew⟩ := hnew
      · exact absurd hnew (hhost htier)
      · exact absurd hnew (hdisk htier)
    · exact hmid

theorem Drain.disk_of_disk (h : Drain manager .device limit s r)
    (hget : r.2.1.entries.get? id = some entry') (htier : entry'.tier = .disk) :
    s.1.entries.get? id = some entry' :=
  h.kept hget (fun _ hhost => nomatch htier.symm.trans hhost) nofun

/-- What is in host memory was used after what has come to disk. -/
def LeavesNewer (history : List ℕ) (w w' : World) : Prop :=
  ∀ left gone entry entry', w'.entries.get? left = some entry → entry.tier = .host →
    w'.entries.get? gone = some entry' → entry'.tier = .disk →
    (∀ old, w.entries.get? gone = some old → old.tier ≠ .disk) →
    lastUse history gone < lastUse history left

/-- **What a drain of host memory leaves there** was used after whatever it demoted. -/
theorem Drain.leavesNewer (h : Drain manager .host limit s r) (hrecent : Recent history s.1) :
    LeavesNewer history s.1 r.2.1 := by
  intro left gone entry entry' hleft hhost hgone hdisk hbefore
  induction h with
  | within _ => exact absurd hdisk (hbefore _ hgone)
  | stop _ hstops => exact absurd hdisk (hbefore _ (hstops.entries.1 ▸ hgone))
  | demote _ hdemotes hrest ih =>
    obtain ⟨victim, old, new, hvictim, -, -, hentries, hnew⟩ := hdemotes.entries
    by_cases hvictim' : gone = victim
    · -- what is left at the end is in host memory now, and not the victim
      subst hvictim'
      have hmid := hrest.kept hleft nofun fun _ h => nomatch hhost.symm.trans h
      rw [hentries] at hmid
      split at hmid
      · cases hmid
        obtain ⟨htier', -, -⟩ | ⟨-, hdown⟩ := hnew
        · cases htier'
        · rw [hdown] at hhost
          cases hhost
      · next hne => exact (hvictim.oldest hrecent).older left entry hmid hhost hne
    · refine ih (hdemotes.recent hrecent) hleft hgone fun old' hold => hbefore old' ?_
      rwa [hentries, if_neg hvictim'] at hold

end Drain

/-! ## The newest stays -/

theorem Accounts.used_of_only (h : Accounts w) {tier : Tier} (hget : w.entries.get? id = some entry)
    (htier : entry.tier = tier)
    (honly : ∀ other entry', w.entries.get? other = some entry' → entry'.tier = tier → other = id) :
    w.used tier = entry.bytes := by
  rw [h.used, total_eq_weight _ hget, Entry.bytesIn, if_pos htier]
  intro other entry' hne hget'
  rw [Entry.bytesIn, if_neg fun htier' => hne (honly other entry' hget' htier')]

/-- A batch that fits host memory is there, or on the device if it may be. -/
def Fits (device : Prop) (limit : ℕ) (w : World) (id : ℕ) : Prop :=
  ∃ entry, w.entries.get? id = some entry ∧
    ((entry.tier = .host ∧ entry.bytes ≤ limit) ∨
      (device ∧ entry.tier = .device ∧ ∃ resident, entry.payload = .device resident ∧
        resident.contents.memorySize ≤ limit))

variable {device : Prop}

theorem Oldest.alone {tier : Tier} (h : Oldest (id :: history) w tier id) {other : ℕ}
    (hget : w.entries.get? other = some entry) (htier : entry.tier = tier) :
    other = id := by
  by_contra hne
  have hless := h.older other entry hget htier hne
  have hle := lastUse_le (id :: history) other
  rw [lastUse_cons_self] at hless
  rw [List.length_cons] at hle
  omega

/-- **The batch used last stays in memory** if host memory has the room. -/
theorem Demotes.fits {tier : Tier} (h : Demotes manager tier s s') (haccounts : Accounts s.1)
    (hrecent : Recent (id :: history) s.1) (hover : tier = .host → limit < s.1.used .host)
    (hfits : Fits device limit s.1 id) :
    Fits device limit s'.1 id := by
  obtain ⟨entry, hget, hentry⟩ := hfits
  obtain ⟨victim, old, new, hvictim, -, -, hentries, hnew⟩ := h.entries
  by_cases hid : id = victim
  · subst hid
    obtain rfl : old = entry := Option.some.inj (hvictim.found.symm.trans hget)
    obtain ⟨htier, hhost, resident, hpayload, hbytes⟩ | ⟨htier, -⟩ := hnew
    · -- it comes down from the device, with the size it has in host memory
      refine ⟨new, (hentries id).trans (if_pos rfl), .inl ⟨hhost, ?_⟩⟩
      rw [hbytes]
      obtain ⟨hhost', -⟩ | ⟨-, -, resident', hpayload', hfits⟩ := hentry
      · rw [hvictim.tier_eq, htier] at hhost'
        cases hhost'
      · rw [hpayload] at hpayload'
        cases hpayload'
        exact hfits
    · -- alone in host memory, it would be within the budget
      have holdest := hvictim.oldest hrecent
      have hused := haccounts.used_of_only hget hvictim.tier_eq fun _ _ => holdest.alone
      have hover := hover htier
      rw [← htier, hused] at hover
      obtain ⟨-, hle⟩ | ⟨-, hdevice, -⟩ := hentry
      · omega
      · rw [hvictim.tier_eq, htier] at hdevice
        cases hdevice
  · exact ⟨entry, by rw [hentries, if_neg hid, hget], hentry⟩

theorem Drain.fits {tier : Tier} {budget : ℕ} (h : Drain manager tier limit s r)
    (haccounts : Accounts s.1) (hrecent : Recent (id :: history) s.1)
    (hlimit : tier = .host → limit = budget) (hfits : Fits device budget s.1 id) :
    Fits device budget r.2.1 id := by
  induction h with
  | within _ => exact hfits
  | stop _ hstops =>
    obtain ⟨entry, hget, hentry⟩ := hfits
    exact ⟨entry, hstops.entries.1 ▸ hget, hentry⟩
  | demote hover hdemotes _ ih =>
    refine ih (hdemotes.accounts haccounts) (hdemotes.recent hrecent)
      (hdemotes.fits haccounts hrecent (fun htier => ?_) hfits)
    rw [← hlimit htier, ← htier]
    exact hover

/-! ## The loops of a call -/

section Settles

variable {tier : Tier} {s : World × Outside} {r : CallResult Unit}

theorem Settles.recent (h : Settles manager tier s r) (hrecent : Recent history s.1) :
    Recent history r.2.1 := by
  cases h with
  | host hhost => exact hhost.recent hrecent
  | stopped hdevice _ => exact hdevice.recent hrecent
  | device hdevice hhost => exact hhost.recent (hdevice.recent hrecent)

/-- **What the loops of a call leave in host memory** was used after whatever they demoted. -/
theorem Settles.leavesNewer (h : Settles manager tier s r) (hrecent : Recent history s.1) :
    LeavesNewer history s.1 r.2.1 := by
  cases h with
  | host h => exact h.leavesNewer hrecent
  | stopped h _ =>
    intro left gone _ _ _ _ hgone hdisk hbefore
    exact absurd hdisk (hbefore _ (h.disk_of_disk hgone hdisk))
  | device h h' =>
    intro left gone _ _ hleft hhost hgone hdisk hbefore
    refine h'.leavesNewer (h.recent hrecent) _ _ _ _ hleft hhost hgone hdisk fun old hold
      hold' => ?_
    exact absurd hold' (hbefore _ (h.disk_of_disk hold hold'))

/-- The batch in use stays where it fits. -/
theorem Settles.fits (h : Settles manager tier s r) (haccounts : Accounts s.1)
    (hrecent : Recent (id :: history) s.1) (hfits : Fits device manager.budget.hostBytes s.1 id) :
    Fits device manager.budget.hostBytes r.2.1 id := by
  cases h with
  | host h => exact h.fits haccounts hrecent (fun _ => rfl) hfits
  | stopped h _ => exact h.fits haccounts hrecent nofun hfits
  | device h h' =>
    exact h'.fits (h.accounts haccounts) (h.recent hrecent) (fun _ => rfl)
      (h.fits haccounts hrecent nofun hfits)

end Settles

/-! ## The calls -/

section Finish

variable {α : Type} (value : α) {r : CallResult Unit}

theorem finish_entries : (finish value r).2.1.entries = r.2.1.entries ∧
    (finish value r).2.1.clock = r.2.1.clock := by
  rcases r with ⟨_ | _ | _, s⟩ <;> exact ⟨rfl, rfl⟩

theorem finish_recent (h : Recent history r.2.1) : Recent history (finish value r).2.1 := by
  obtain ⟨hentries, hclock⟩ := finish_entries value (r := r)
  exact h.congr hclock fun id entry hget => ⟨entry, hentries ▸ hget, rfl⟩

end Finish

/-- The batches a call leaves in host memory were used after those it took from there to disk:
those on disk now that were not before, or that the call itself has brought from there. -/
def LeavesNewest (history : List ℕ) (w w' : World) (id : ℕ) : Prop :=
  ∀ left gone entry entry', w'.entries.get? left = some entry → entry.tier = .host →
    w'.entries.get? gone = some entry' → entry'.tier = .disk →
    (gone = id ∨ ∀ old, w.entries.get? gone = some old → old.tier ≠ .disk) →
    lastUse history gone < lastUse history left

theorem Fits.tier (h : Fits device limit w id) :
    ∃ entry, w.entries.get? id = some entry ∧
      (entry.tier = .host ∨ device ∧ entry.tier = .device) := by
  obtain ⟨entry, hget, ⟨htier, -⟩ | ⟨hdevice, htier, -⟩⟩ := h
  · exact ⟨entry, hget, .inl htier⟩
  · exact ⟨entry, hget, .inr ⟨hdevice, htier⟩⟩

/-- The bytes an inserted batch has in host memory. -/
def Arrival.hostSize : Arrival → ℕ
  | .host batch => batch.memorySize
  | .device resident _ => resident.contents.memorySize

theorem enter_entries (w : World) (id : ℕ) (arrival : Arrival) (other : ℕ) :
    (w.enter id arrival).entries.get? other =
      if other = id then some (arrival.entry (w.clock + 1)) else w.entries.get? other := by
  show (w.entries.insert id _).get? other = _
  split
  · next heq => rw [heq, get?_insert_self]
  · next hne => exact get?_insert_of_ne _ hne _

theorem Arrival.entry_tier (arrival : Arrival) (touch : ℕ) :
    (arrival.entry touch).tier = arrival.tier := by
  cases arrival with
  | host batch | device resident schema => rfl

theorem fits_enter {arrival : Arrival} (hsize : arrival.hostSize ≤ limit) :
    Fits (arrival.tier = .device) limit (w.enter id arrival) id := by
  refine ⟨_, (enter_entries w id arrival id).trans (if_pos rfl), ?_⟩
  cases arrival with
  | host batch => exact .inl ⟨rfl, hsize⟩
  | device resident schema => exact .inr ⟨rfl, rfl, resident, rfl, hsize⟩

section Insert

variable {id : ℕ} {arrival : Arrival} (outside : Outside)

theorem Recent.insert (haccounts : Accounts w) (hrecent : Recent history w)
    (hfresh : w.entries.get? id = none) :
    Recent (id :: history) (arrival.insert manager id (w, outside)).2.1 := by
  obtain ⟨r, hsettles, hrun⟩ := insert_settles manager haccounts hfresh arrival outside
  rw [hrun]
  exact finish_recent id (hsettles.recent (hrecent.enter id arrival))

/-- **An insert that returns** leaves the newest batches in host memory, its own among them if
it fits there and is not on the device. -/
theorem insert_leavesNewest (haccounts : Accounts w) (hrecent : Recent history w)
    (hfresh : w.entries.get? id = none) {id' : ℕ} {s : World × Outside}
    (hdone : arrival.insert manager id (w, outside) = (.done id', s)) :
    LeavesNewest (id :: history) w s.1 id ∧
      (arrival.hostSize ≤ manager.budget.hostBytes →
        ∃ entry, s.1.entries.get? id = some entry ∧
          (entry.tier = .host ∨ arrival.tier = .device ∧ entry.tier = .device)) := by
  obtain ⟨r, hsettles, hrun⟩ := insert_settles manager haccounts hfresh arrival outside
  obtain ⟨-, -, rfl⟩ := finish_done (hrun.symm.trans hdone)
  have henter := hrecent.enter id arrival
  refine ⟨fun left gone entry entry' hleft hhost hgone hdisk hbefore => ?_, fun hsize => ?_⟩
  · refine hsettles.leavesNewer henter _ _ _ _ hleft hhost hgone hdisk fun old hold => ?_
    rw [enter_entries] at hold
    split at hold
    · cases hold
      rw [arrival.entry_tier]
      cases arrival with
      | host batch | device resident schema => exact nofun
    · next hne => exact (hbefore.resolve_left hne) old hold
  · exact (hsettles.fits (haccounts.enter hfresh arrival) henter (fits_enter hsize)).tier

end Insert

section Get

variable {id : ℕ} {entry : Entry} (outside : Outside)

theorem reload_entries (hget : w.entries.get? id = some entry) (batch : HostBatch) (gone : Bool)
    (path : String) (other : ℕ) :
    ((w.reload id entry batch).eraseIf gone path).entries.get? other =
      if other = id then some { entry.touched (w.clock + 1) with
        tier := .host, bytes := entry.promotedBytes batch, payload := .host batch }
      else w.entries.get? other := by
  rw [eraseIf_entries]
  show ((w.touch id).entries.modify id _).get? other = _
  rw [get?_modify, touch_entries]
  split
  · next heq => rw [heq, hget]; rfl
  · rfl

theorem Recent.get (haccounts : Accounts w) (hrecent : Recent history w) (id : ℕ) :
    Recent (id :: history) (get manager id (w, outside)).2.1 := by
  cases hget : w.entries.get? id with
  | none =>
    rw [get_unknown hget]
    refine hrecent.use rfl (fun entry hentry => ?_) fun _ _ => rfl
    rw [hget] at hentry
    cases hentry
  | some entry =>
    generalize hresult : Spill.get manager id (w, outside) = result
    have hgets := get_gets manager haccounts hget outside
    rw [hresult] at hgets
    cases hgets with
    | touched _ _ => exact hrecent.touch id
    | @dropped path _ batch gone _ _ _ _ => exact (hrecent.reload id entry batch).eraseIf gone path
    | @settled path _ batch gone _ _ _ _ _ hsettles =>
      have hreload := (hrecent.reload id entry batch).eraseIf gone path
      exact finish_recent batch (hsettles.recent hreload)

/-- **A `get` that returns** leaves the newest batches in host memory, the one it returns among
them if it fits there and is not on the device. -/
theorem get_leavesNewest (haccounts : Accounts w) (hrecent : Recent history w)
    (hget : w.entries.get? id = some entry) {batch : HostBatch} {s : World × Outside}
    (hdone : get manager id (w, outside) = (.done batch, s)) :
    LeavesNewest (id :: history) w s.1 id ∧
      (entry.promotedBytes batch ≤ manager.budget.hostBytes →
        ∃ entry', s.1.entries.get? id = some entry' ∧
          (entry'.tier = .host ∨ entry.tier = .device ∧ entry'.tier = .device)) := by
  have hgets := get_gets manager haccounts hget outside
  rw [hdone] at hgets
  generalize hresult : (Outcome.done batch, s) = result at hgets
  cases hgets with
  | dropped => cases hresult
  | touched _ hnot =>
    -- nothing has moved, and the batch is not on disk
    obtain ⟨rfl, rfl⟩ := Prod.mk.inj hresult
    have htier : entry.tier ≠ .disk := fun h =>
      hnot ((haccounts.tiers id entry hget).symm.trans h) batch rfl
    have hself : (w.touch id).entries.get? id = some (entry.touched (w.clock + 1)) := by
      rw [touch_entries, if_pos rfl, hget, Option.map_some]
    refine ⟨fun left gone _ entry' _ _ hgone hdisk hbefore => ?_, fun _ => ⟨_, hself, ?_⟩⟩
    · rw [touch_entries] at hgone
      split at hgone
      · next heq =>
        rw [heq, hget] at hgone
        cases hgone
        exact absurd hdisk htier
      · next hne => exact absurd hdisk (hbefore.resolve_left hne entry' hgone)
    · show entry.tier = .host ∨ entry.tier = .device ∧ entry.tier = .device
      cases htier' : entry.tier with
      | device => exact .inr ⟨rfl, rfl⟩
      | host => exact .inl rfl
      | disk => exact absurd htier' htier
  | @settled path bytes batch' gone outside' r hpayload hobject hdecode hsettles =>
    obtain ⟨rfl, -, rfl⟩ := finish_done hresult.symm
    have hreload := (hrecent.reload id entry batch').eraseIf gone path
    refine ⟨fun left gone' _ entry' hleft hhost hgone hdisk hbefore => ?_, fun hsize => ?_⟩
    · refine hsettles.leavesNewer hreload _ _ _ _ hleft hhost hgone hdisk fun old hold => ?_
      rw [reload_entries hget] at hold
      split at hold
      · cases hold
        exact nofun
      · next hne => exact hbefore.resolve_left hne old hold
    · have hstart : Fits False manager.budget.hostBytes
          ((w.reload id entry batch').eraseIf gone path) id :=
        ⟨_, (reload_entries hget batch' gone path id).trans (if_pos rfl), .inl ⟨rfl, hsize⟩⟩
      obtain ⟨entry', hentry', htier⟩ := (hsettles.fits
        ((haccounts.reload hget hpayload batch').eraseIf gone path) hreload hstart).tier
      exact ⟨entry', hentry', .inl (htier.resolve_right fun h => h.1)⟩

end Get

theorem remove_keeps (id : ℕ) (outside : Outside) {other : ℕ}
    (hget : (remove id (w, outside)).2.1.entries.get? other = some entry) :
    w.entries.get? other = some entry := by
  cases hself : w.entries.get? id with
  | none =>
    rw [remove_unknown hself] at hget
    exact hget
  | some old =>
    rw [(remove_entries hself outside).1] at hget
    by_cases hother : other = id
    · rw [hother, get?_erase_self] at hget
      cases hget
    · rwa [get?_erase_of_ne _ hother] at hget

theorem Recent.remove (hrecent : Recent history w) (id : ℕ) (outside : Outside) :
    Recent history (remove id (w, outside)).2.1 := by
  refine hrecent.congr ?_ fun other entry hget => ⟨entry, remove_keeps id outside hget, rfl⟩
  cases hself : w.entries.get? id with
  | none => rw [remove_unknown hself]
  | some old => exact (remove_entries hself outside).2

/-! ## Runs -/

/-- The id an event uses: that of an insert that gets the lock, or of a `get`. -/
def System.uses (system : System) : Event → List ℕ
  | .insert id _ => if (system.waiting.lookup id).isSome then [id] else []
  | .get id _ => [id]
  | .arrive _ | .abandon _ | .remove _ _ => []

variable (manager) in
/-- **The history of a run**: the ids its inserts and `get`s use, the last one first. -/
def uses (events : List Event) : List ℕ := recorded manager System.uses events

/-- **One event**, with the ids it uses. -/
theorem Recent.step {system : System} (haccounts : Accounts system.world)
    (hfresh : ∀ id arrival, system.waiting.lookup id = some arrival →
      system.world.entries.get? id = none)
    (hrecent : Recent history system.world) (event : Event) :
    Recent (system.uses event ++ history) (system.step manager event).world := by
  cases event with
  | arrive arrival => exact ⟨hrecent.clock, hrecent.touches, hrecent.mem⟩
  | insert id outside =>
    simp only [System.uses, System.step]
    cases hwaits : system.waiting.lookup id with
    | none => exact hrecent
    | some arrival => exact hrecent.insert outside haccounts (hfresh id arrival hwaits)
  | abandon id => exact hrecent
  | get id outside => exact hrecent.get outside haccounts id
  | remove id outside => exact hrecent.remove id outside

/-- **Along a run** the touches are the times of the last uses. -/
theorem recent_run (events : List Event) :
    Recent (uses manager events) (System.run manager events).world := by
  induction events using List.reverseRecOn with
  | nil => exact recent_new
  | append_singleton events event ih =>
    have hrun : System.run manager (events ++ [event]) =
        (System.run manager events).step manager event := by
      rw [System.run, List.foldl_append]
      rfl
    rw [uses, recorded_append, hrun]
    exact ih.step (accounts_run events) (fun _ _ h => run_waiting_fresh h) event

/-- **Eviction is least recently used.**  An insert registers its batch and runs its loops; a
`get` touches the batch, and if it brings it from disk runs the loop over host memory.  The
batch that a round of these loops takes down a tier is the oldest one there, and a `remove`
moves nothing.  After an insert or a `get` that returns, the batches in host memory were used
after those the call took from there; the batch just inserted or returned, if host memory has
the room, is in host memory, or in device memory if that is where it was inserted or found. -/
theorem run_evicts_oldest (manager : SpillManager) (events : List Event) :
    let system := System.run manager events
    let w := system.world
    (∀ id arrival outside, system.waiting.lookup id = some arrival →
      let history := id :: uses manager events
      (∃ r, Settles manager arrival.tier (w.enter id arrival, outside) r ∧
        arrival.insert manager id (w, outside) = finish id r) ∧
      TakesOldest manager history (w.enter id arrival) ∧
      ∀ id' s, arrival.insert manager id (w, outside) = (.done id', s) →
        LeavesNewest history w s.1 id ∧
        (arrival.hostSize ≤ manager.budget.hostBytes →
          ∃ entry, s.1.entries.get? id = some entry ∧
            (entry.tier = .host ∨ arrival.tier = .device ∧ entry.tier = .device))) ∧
    (∀ id outside,
      let history := id :: uses manager events
      (w.entries.get? id = none →
        (get manager id (w, outside)).2.1 = { w with clock := w.clock + 1 }) ∧
      ∀ entry, w.entries.get? id = some entry →
        Gets manager w id entry (get manager id (w, outside)) ∧
        (∀ batch gone path,
          TakesOldest manager history ((w.reload id entry batch).eraseIf gone path)) ∧
        ∀ batch s, get manager id (w, outside) = (.done batch, s) →
          LeavesNewest history w s.1 id ∧
          (entry.promotedBytes batch ≤ manager.budget.hostBytes →
            ∃ entry', s.1.entries.get? id = some entry' ∧
              (entry'.tier = .host ∨ entry.tier = .device ∧ entry'.tier = .device))) ∧
    ∀ id outside other entry, (remove id (w, outside)).2.1.entries.get? other = some entry →
      w.entries.get? other = some entry := by
  intro system w
  have haccounts : Accounts w := accounts_run events
  have hrecent : Recent (uses manager events) w := recent_run events
  refine ⟨fun id arrival outside hwaits => ?_, fun id outside => ?_, fun id outside _ _ =>
    remove_keeps id outside⟩
  · have hfresh : w.entries.get? id = none := run_waiting_fresh hwaits
    exact ⟨insert_settles manager haccounts hfresh arrival outside,
      (hrecent.enter id arrival).takesOldest,
      fun id' s hdone => insert_leavesNewest outside haccounts hrecent hfresh hdone⟩
  · refine ⟨fun hnone => by rw [get_unknown hnone], fun entry hget => ?_⟩
    exact ⟨get_gets manager haccounts hget outside,
      fun batch gone path => ((hrecent.reload id entry batch).eraseIf gone path).takesOldest,
      fun batch s hdone => get_leavesNewest outside haccounts hrecent hget hdone⟩

/-- A manager with room for two batches on each tier. -/
def roomy : SpillManager where
  budget := ⟨50, 50⟩
  spillPrefix := "spill"
  ipc := rowCodec

/-- Three batches come, of which two are inserted; the first is used again. -/
def firstAgain : List Event :=
  [.arrive (.host ⟨rowsOnly 3, 24⟩), .arrive (.host ⟨rowsOnly 4, 24⟩),
    .arrive (.host ⟨rowsOnly 5, 24⟩), .insert 1 {}, .insert 2 {}, .get 1 {}]

/-- The third insert takes the second batch to disk, which the first is older than but was
used after. -/
theorem run_evicts_oldest_firstAgain :
    let w := (System.run roomy firstAgain).world
    ∃ s, Arrival.insert roomy 3 (.host ⟨rowsOnly 5, 24⟩) (w, {}) = (.done 3, s) ∧
      (w.entries.get? 2).map Entry.tier = some .host ∧
      (s.1.entries.get? 2).map Entry.tier = some .disk ∧
      (s.1.entries.get? 1).map Entry.tier = some .host ∧
      lastUse (3 :: uses roomy firstAgain) 2 < lastUse (3 :: uses roomy firstAgain) 1 ∧
      ∃ entry, s.1.entries.get? 3 = some entry ∧ entry.tier = .host := by
  intro w
  have hold : w.entries.get? 2 =
      some ⟨.host, 24, 24, 2, (rowsOnly 4).schema, .host ⟨rowsOnly 4, 24⟩⟩ := rfl
  obtain ⟨-, -, hdone⟩ := (run_evicts_oldest roomy firstAgain).1 3 (.host ⟨rowsOnly 5, 24⟩) {} rfl
  obtain ⟨hnewest, hfits⟩ := hdone 3 _ rfl
  obtain ⟨entry, hentry, htier⟩ := hfits (by decide)
  refine ⟨_, rfl, rfl, rfl, rfl, hnewest 1 2 _ _ rfl rfl rfl rfl (.inr ?_), entry, hentry, ?_⟩
  · rw [hold]
    rintro _ ⟨⟩
    exact nofun
  · exact htier.resolve_right fun h => nomatch h.1

/-- A batch on the device. -/
def oneResident : List Event :=
  [.arrive (.device ⟨16, ⟨rowsOnly 3, 24⟩⟩ (rowsOnly 3).schema), .insert 1 {}]

/-- A batch on the device that is returned by `get` and fits host memory is not there: `get`
hands out a copy. -/
theorem get_leaves_on_device :
    ∃ entry batch s, (System.run roomy oneResident).world.entries.get? 1 = some entry ∧
      get roomy 1 ((System.run roomy oneResident).world, {}) = (.done batch, s) ∧
      entry.promotedBytes batch ≤ roomy.budget.hostBytes ∧
      (s.1.entries.get? 1).map Entry.tier = some .device := by
  have hget : (System.run roomy oneResident).world.entries.get? 1 =
      some ⟨.device, 16, 0, 1, (rowsOnly 3).schema, .device ⟨16, ⟨rowsOnly 3, 24⟩⟩⟩ := rfl
  exact ⟨_, _, _, hget, get_device hget rfl, by decide, rfl⟩

end Spill

end OxideLake
