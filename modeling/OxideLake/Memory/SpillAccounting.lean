import OxideLake.Memory.Spill
import Mathlib

/-!
# Spill accounting is exact

Besides the entry it registers or forgets, a call under the lock changes the world in a few
ways only (`Move`): it touches an entry, moves one between two tiers, writes or deletes the
file of one, ticks and publishes.  Every call, however it ends, is a sequence of such moves,
and each move keeps `used[t]` the sum of the recorded bytes of the entries of tier `t`.

With exact accounts the loops have what they look for: a tier over its budget has an entry,
whose payload is of that tier and whose bytes `used` covers.
-/

namespace OxideLake

namespace Spill

open Interruptible Relation Function Ledger

variable {tier : Tier} {s s' : World × Outside} {w' : World}

/-- The bytes an entry has in a tier. -/
def Entry.bytesIn (tier : Tier) (entry : Entry) : ℕ := if entry.tier = tier then entry.bytes else 0

/-- **Exact accounts**: every counter is the sum of the bytes recorded for its tier, every
entry's tier is that of its payload, and nothing happened that must not. -/
structure Accounts (w : World) : Prop where
  used : ∀ tier, w.used tier = w.entries.total (Entry.bytesIn tier)
  tiers : ∀ id entry, w.entries.get? id = some entry → entry.tier = entry.payload.tier
  incidents : w.incidents = []

theorem accounts_new : Accounts .new where
  used _ := rfl
  tiers id entry h := by
    have h : (empty : Ledger Entry).get? id = some entry := h
    rw [get?_empty] at h
    cases h
  incidents := rfl

theorem Accounts.congr {w : World} (h : Accounts w) (hentries : w'.entries = w.entries)
    (hused : w'.used = w.used) (hincidents : w'.incidents = w.incidents) : Accounts w' where
  used tier := by rw [hused, hentries, h.used]
  tiers id entry hget := h.tiers id entry (hentries ▸ hget)
  incidents := hincidents.trans h.incidents

variable {id : ℕ}

theorem Accounts.bytes_le {w : World} (h : Accounts w) {entry : Entry}
    (hget : w.entries.get? id = some entry) : entry.bytes ≤ w.used entry.tier := by
  have hle := weight_le_total (Entry.bytesIn entry.tier) hget
  rwa [Entry.bytesIn, if_pos rfl, ← h.used] at hle

theorem Accounts.modifyEntry {w : World} (h : Accounts w) {entry : Entry}
    (hget : w.entries.get? id = some entry) {f : Entry → Entry}
    (htier : (f entry).tier = entry.tier) (hbytes : (f entry).bytes = entry.bytes)
    (hpayload : (f entry).payload = entry.payload) :
    Accounts (w.modifyEntry id f) where
  used tier := by
    have htotal := total_modify (Entry.bytesIn tier) hget f
    have hsame : (f entry).bytesIn tier = entry.bytesIn tier := by
      rw [Entry.bytesIn, Entry.bytesIn, htier, hbytes]
    rw [hsame] at htotal
    exact (h.used tier).trans (Nat.add_right_cancel htotal).symm
  tiers other other' hother := by
    have hother : (w.entries.modify id f).get? other = some other' := hother
    rw [get?_modify] at hother
    split at hother
    · next heq =>
      rw [heq, hget] at hother
      cases hother
      rw [htier, hpayload]
      exact h.tiers id entry hget
    · exact h.tiers other other' hother
  incidents := h.incidents

/-- An entry changes tier with its bytes. -/
theorem Accounts.shift {w : World} (h : Accounts w) {entry : Entry}
    (hget : w.entries.get? id = some entry) (f : Entry → Entry)
    (htier : (f entry).tier = (f entry).payload.tier) (hmoves : (f entry).tier ≠ entry.tier) :
    Accounts (((w.modifyEntry id f).release entry.tier entry.bytes).charge (f entry).tier
      (f entry).bytes) where
  used tier := by
    have htotal := total_modify (Entry.bytesIn tier) hget f
    rw [← h.used tier, Entry.bytesIn, Entry.bytesIn] at htotal
    show update (update w.used entry.tier (w.used entry.tier - entry.bytes))
      (f entry).tier
      (update w.used entry.tier (w.used entry.tier - entry.bytes) (f entry).tier +
        (f entry).bytes) tier = (w.entries.modify id f).total _
    rw [update_of_ne hmoves]
    by_cases hto : (f entry).tier = tier
    · subst hto
      rw [if_neg (Ne.symm hmoves), if_pos rfl] at htotal
      rw [update_self]
      omega
    · rw [update_of_ne (Ne.symm hto)]
      rw [if_neg hto] at htotal
      by_cases hfrom : entry.tier = tier
      · subst hfrom
        rw [if_pos rfl] at htotal
        rw [update_self]
        omega
      · rw [if_neg hfrom] at htotal
        rw [update_of_ne (Ne.symm hfrom)]
        omega
  tiers other other' hother := by
    have hother : (w.entries.modify id f).get? other = some other' := hother
    rw [get?_modify] at hother
    split at hother
    · next heq =>
      rw [heq, hget] at hother
      cases hother
      exact htier
    · exact h.tiers other other' hother
  incidents := by
    have hle := h.bytes_le hget
    show (if w.used entry.tier < entry.bytes then _ else w.incidents) = []
    rw [if_neg (by omega), h.incidents]

theorem Accounts.register {w : World} (h : Accounts w) {entry : Entry}
    (hfresh : w.entries.get? id = none) (htier : entry.tier = entry.payload.tier) :
    Accounts (w.register id entry) where
  used tier := by
    show update w.used entry.tier (w.used entry.tier + entry.bytes) tier =
      (w.entries.insert id entry).total _
    rw [total_insert _ hfresh, ← h.used tier, Entry.bytesIn]
    by_cases htier' : entry.tier = tier
    · subst htier'
      rw [update_self, if_pos rfl, Nat.add_comm]
    · rw [update_of_ne (Ne.symm htier'), if_neg htier', Nat.zero_add]
  tiers other other' hother := by
    have hother : (w.entries.insert id entry).get? other = some other' := hother
    by_cases heq : other = id
    · rw [heq, get?_insert_self] at hother
      cases hother
      exact htier
    · rw [get?_insert_of_ne _ heq] at hother
      exact h.tiers other other' hother
  incidents := h.incidents

theorem Accounts.forget {w : World} (h : Accounts w) {entry : Entry}
    (hget : w.entries.get? id = some entry) : Accounts (w.forget id entry) where
  used tier := by
    have htotal := total_erase (Entry.bytesIn tier) hget
    rw [← h.used tier, Entry.bytesIn] at htotal
    show update w.used entry.tier (w.used entry.tier - entry.bytes) tier =
      (w.entries.erase id).total _
    by_cases htier : entry.tier = tier
    · subst htier
      rw [if_pos rfl] at htotal
      rw [update_self]
      omega
    · rw [if_neg htier] at htotal
      rw [update_of_ne (Ne.symm htier)]
      omega
  tiers other other' hother := by
    have hother : (w.entries.erase id).get? other = some other' := hother
    by_cases heq : other = id
    · rw [heq, get?_erase_self] at hother
      cases hother
    · rw [get?_erase_of_ne _ heq] at hother
      exact h.tiers other other' hother
  incidents := by
    have hle := h.bytes_le hget
    show (if w.used entry.tier < entry.bytes then _ else w.incidents) = []
    rw [if_neg (by omega), h.incidents]

/-! ## Moves -/

/-- A file is deleted, or its deletion did not happen. -/
def World.eraseIf (w : World) (gone : Bool) (path : String) : World :=
  if gone then w.eraseObject path else w

/-- An entry with a new time of its last use. -/
def Entry.touched (touch : ℕ) (entry : Entry) : Entry := { entry with lastTouch := touch }

/-- The host bytes of a promoted batch. -/
def Entry.promotedBytes (entry : Entry) (batch : HostBatch) : ℕ :=
  if 0 < entry.hostBytes then entry.hostBytes else batch.memorySize

variable (manager : SpillManager) (faulty flaky : Prop)

/-- What a call does to the world, piece by piece, apart from the one entry an insert
registers or a `remove` forgets.  `faulty` allows what only happens when a store request
fails or is cut off. -/
inductive Move : World → World → Prop
  | tick (w : World) : Move w { w with clock := w.clock + 1 }
  | publish (w : World) : Move w { w with published := w.used }
  | touch {w : World} {id : ℕ} {entry : Entry} (touch : ℕ)
      (hget : w.entries.get? id = some entry) :
      Move w (w.modifyEntry id (Entry.touched touch))
  | unload {w : World} {id : ℕ} {entry : Entry} {resident : Resident}
      (hget : w.entries.get? id = some entry) (hpayload : entry.payload = .device resident) :
      Move w (w.unload id entry.bytes resident.contents)
  | spill {w : World} {id : ℕ} {entry : Entry} {batch : HostBatch} {bytes : List UInt8}
      (hget : w.entries.get? id = some entry) (hpayload : entry.payload = .host batch)
      (hencode : manager.ipc.encode batch = .ok bytes) :
      Move w ((w.setObject (spillPath manager id) bytes).toDisk id entry.bytes bytes.length
        (spillPath manager id))
  | stray {w : World} {id : ℕ} {entry : Entry} {batch : HostBatch} {bytes : List UInt8}
      (hfaulty : faulty) (hget : w.entries.get? id = some entry)
      (hpayload : entry.payload = .host batch)
      (hencode : manager.ipc.encode batch = .ok bytes) :
      Move w (w.setObject (spillPath manager id) bytes)
  | promote {w : World} {id : ℕ} {entry : Entry} {path : String} {bytes : List UInt8}
      {batch : HostBatch} {gone : Bool} (hget : w.entries.get? id = some entry)
      (hpayload : entry.payload = .disk path) (hobject : w.objects path = some bytes)
      (hdecode : manager.ipc.decode bytes = .ok batch) (hgone : gone = false → faulty) :
      Move w ((w.promote id entry.bytes (entry.promotedBytes batch) batch).eraseIf gone path)

/-- A sequence of moves. -/
abbrev Moves : World → World → Prop := ReflTransGen (Move manager faulty)

variable {manager faulty flaky}

theorem Accounts.eraseIf {w : World} (h : Accounts w) (gone : Bool) (path : String) :
    Accounts (w.eraseIf gone path) := by
  cases gone with
  | false => exact h
  | true => exact h.congr rfl rfl rfl

/-- **A move** keeps the accounts. -/
theorem Accounts.move {w : World} (h : Accounts w) (hmove : Move manager faulty w w') :
    Accounts w' := by
  cases hmove with
  | tick | publish => exact h.congr rfl rfl rfl
  | touch touch hget => exact h.modifyEntry hget rfl rfl rfl
  | @unload id entry resident hget hpayload =>
    have htier := h.tiers _ _ hget
    rw [hpayload] at htier
    have := h.shift hget (fun entry => { entry with
      tier := .host, bytes := resident.contents.memorySize,
      hostBytes := resident.contents.memorySize, payload := .host resident.contents }) rfl
        (by simp [htier, Payload.tier])
    rw [htier] at this
    exact this
  | @spill id entry batch bytes hget hpayload _ =>
    have htier := h.tiers _ _ hget
    rw [hpayload] at htier
    have hput : Accounts (w.setObject (spillPath manager id) bytes) := h.congr rfl rfl rfl
    have := hput.shift hget (fun entry => { entry with
      tier := .disk, bytes := bytes.length, payload := .disk (spillPath manager id) }) rfl
        (by simp [htier, Payload.tier])
    rw [htier] at this
    exact this
  | stray => exact h.congr rfl rfl rfl
  | @promote id entry path bytes batch gone hget hpayload _ _ _ =>
    have htier := h.tiers _ _ hget
    rw [hpayload] at htier
    have := h.shift hget (fun old => { old with
      tier := .host, bytes := entry.promotedBytes batch, payload := .host batch }) rfl
        (by simp [htier, Payload.tier])
    rw [htier] at this
    exact this.eraseIf _ _

theorem Accounts.moves {w : World} (h : Accounts w) (hmoves : Moves manager faulty w w') :
    Accounts w' := by
  induction hmoves with
  | refl => exact h
  | tail _ hmove ih => exact ih.move hmove

/-! ## Requests -/

/-- The world is `w`, and what is still to come is in order unless the store is `faulty` or
the device `flaky`. -/
def At (faulty flaky : Prop) (w : World) (s : World × Outside) : Prop :=
  s.1 = w ∧ (∀ r ∈ s.2.store, r ≠ .ok → faulty) ∧ ∀ d ∈ s.2.downloads, d ≠ none → flaky

variable {w : World}

/-! ## The loops -/

variable (manager faulty) in
/-- Every batch that may be written has an encoding. -/
def Writable (start : World) : Prop :=
  ∀ w, Moves manager faulty start w → ∀ id entry batch, w.entries.get? id = some entry →
    entry.payload = .host batch → ∃ bytes, manager.ipc.encode batch = .ok bytes

variable (manager faulty flaky) in
/-- A world reached by moves. -/
def Reached (start : World) (s : World × Outside) : Prop :=
  ∃ w, Moves manager faulty start w ∧ At faulty flaky w s

variable (manager faulty flaky) in
/-- A call that ends early has still only made moves, and something failed. -/
def Early (start : World) (s : World × Outside) : Prop :=
  Reached manager faulty flaky start s ∧ (Writable manager faulty start → faulty ∨ flaky)

/-- One for each entry of a tier. -/
def Entry.countIn (tier : Tier) (entry : Entry) : ℕ := if entry.tier = tier then 1 else 0

/-- **A tier over its budget has a victim**, which is of that tier in every respect. -/
theorem Accounts.coldest (h : Accounts w) (hover : 0 < w.used tier) :
    ∃ victim entry, w.coldest tier = some victim ∧ w.entries.get? victim = some entry ∧
      entry.tier = tier ∧ entry.payload.tier = tier := by
  rw [h.used] at hover
  obtain ⟨id, entry, hget, hpos⟩ := exists_of_total_pos _ hover
  have htier : entry.tier = tier := by
    by_contra hne
    rw [Entry.bytesIn, if_neg hne] at hpos
    exact absurd hpos (Nat.lt_irrefl 0)
  obtain ⟨victim, hvictim⟩ := argmin_isSome (p := fun entry : Entry => entry.tier == tier)
    hget (beq_iff_eq.mpr htier) Entry.lastTouch
  obtain ⟨entry', hget', htier'⟩ := argmin_spec hvictim
  have htier' : entry'.tier = tier := beq_iff_eq.mp htier'
  exact ⟨victim, entry', hvictim, hget', htier', (h.tiers _ _ hget').symm.trans htier'⟩

theorem Accounts.used_eq_zero (h : Accounts w) (hnone : w.entries.total (Entry.countIn tier) = 0) :
    w.used tier = 0 := by
  by_contra hne
  obtain ⟨victim, entry, -, hget, htier, -⟩ := h.coldest (Nat.pos_of_ne_zero hne)
  have hle := weight_le_total (Entry.countIn tier) hget
  rw [Entry.countIn, if_pos htier] at hle
  omega

/-! ## Draining a tier -/

/-- The next reply of the store. -/
def Outside.takeReply (outside : Outside) : Reply × Outside :=
  match outside.store with
  | [] => (.ok, outside)
  | r :: rest => (r, { outside with store := rest })

/-- How the next download goes. -/
def Outside.takeDownload (outside : Outside) : Option String × Outside :=
  match outside.downloads with
  | [] => (none, outside)
  | d :: rest => (d, { outside with downloads := rest })

/-- The entry a tier over its budget has to give up. -/
structure Victim (w : World) (tier : Tier) (id : ℕ) (entry : Entry) : Prop where
  coldest : w.coldest tier = some id
  found : w.entries.get? id = some entry
  tier_eq : entry.tier = tier

variable (manager) in
/-- A round that takes the coldest entry one tier down. -/
inductive Demotes : Tier → World × Outside → World × Outside → Prop
  | unload {w : World} {outside outside' : Outside} {id : ℕ} {entry : Entry} {resident : Resident}
      (hvictim : Victim w .device id entry) (hpayload : entry.payload = .device resident)
      (hdownload : outside.takeDownload = (none, outside')) :
      Demotes .device (w, outside) (w.unload id entry.bytes resident.contents, outside')
  | spill {w : World} {outside outside' : Outside} {id : ℕ} {entry : Entry} {batch : HostBatch}
      {bytes : List UInt8} (hvictim : Victim w .host id entry)
      (hpayload : entry.payload = .host batch) (hencode : manager.ipc.encode batch = .ok bytes)
      (hreply : outside.takeReply = (.ok, outside')) :
      Demotes .host (w, outside) ((w.setObject (spillPath manager id) bytes).toDisk id entry.bytes
        bytes.length (spillPath manager id), outside')

variable (manager) in
/-- A round that ends the call: the download fails, the batch has no encoding, or the write
fails or is where the call is dropped. -/
inductive Stops : Tier → World × Outside → CallResult Unit → Prop
  | undelivered {w : World} {outside outside' : Outside} {id : ℕ} {entry : Entry}
      {resident : Resident} {detail : String} (hvictim : Victim w .device id entry)
      (hpayload : entry.payload = .device resident)
      (hdownload : outside.takeDownload = (some detail, outside')) :
      Stops .device (w, outside) (.failed (.device detail), (w, outside'))
  | unwritable {w : World} {outside : Outside} {id : ℕ} {entry : Entry} {batch : HostBatch}
      {e : EngineError} (hvictim : Victim w .host id entry)
      (hpayload : entry.payload = .host batch) (hencode : manager.ipc.encode batch = .error e) :
      Stops .host (w, outside) (.failed e, (w, outside))
  | refused {w : World} {outside outside' : Outside} {id : ℕ} {entry : Entry} {batch : HostBatch}
      {bytes : List UInt8} {detail : String} (hvictim : Victim w .host id entry)
      (hpayload : entry.payload = .host batch) (hencode : manager.ipc.encode batch = .ok bytes)
      (hreply : outside.takeReply = (.fail detail, outside')) :
      Stops .host (w, outside) (.failed (.io false detail), (w, outside'))
  | dropped {w : World} {outside outside' : Outside} {id : ℕ} {entry : Entry} {batch : HostBatch}
      {bytes : List UInt8} {effective : Bool} (hvictim : Victim w .host id entry)
      (hpayload : entry.payload = .host batch) (hencode : manager.ipc.encode batch = .ok bytes)
      (hreply : outside.takeReply = (.cancelled effective, outside')) :
      Stops .host (w, outside) (.cancelled,
        (if effective then w.setObject (spillPath manager id) bytes else w, outside'))

variable (manager) in
/-- A whole loop: rounds, until the tier is within its budget or one ends the call. -/
inductive Drain (tier : Tier) (limit : ℕ) :
    World × Outside → CallResult Unit → Prop
  | within {s : World × Outside} (hwithin : s.1.used tier ≤ limit) :
      Drain tier limit s (.done (), s)
  | stop {s : World × Outside} {r : CallResult Unit}
      (hover : limit < s.1.used tier) (hstops : Stops manager tier s r) : Drain tier limit s r
  | demote {s s' : World × Outside} {r : CallResult Unit}
      (hover : limit < s.1.used tier) (hdemotes : Demotes manager tier s s')
      (rest : Drain tier limit s' r) : Drain tier limit s r

variable (manager) in
/-- What one round of a loop can do. -/
def Rounds (tier : Tier) (limit : ℕ) (round : Call Unit → Call Unit) : Prop :=
  ∀ s : World × Outside, Accounts s.1 →
    (s.1.used tier ≤ limit ∧ ∀ next, round next s = (.done (), s)) ∨
    (limit < s.1.used tier ∧ ∃ r, Stops manager tier s r ∧ ∀ next, round next s = r) ∨
    (limit < s.1.used tier ∧ ∃ s', Demotes manager tier s s' ∧ ∀ next, round next s = next s')

theorem Accounts.victim (h : Accounts w) (hover : 0 < w.used tier) :
    ∃ id entry, Victim w tier id entry ∧ entry.payload.tier = tier := by
  obtain ⟨id, entry, hcoldest, hget, htier, hpayload⟩ := h.coldest hover
  exact ⟨id, entry, ⟨hcoldest, hget, htier⟩, hpayload⟩

theorem toHost_apply (resident : Resident) (outside : Outside) :
    toHost resident (w, outside) =
      match outside.takeDownload with
      | (none, outside') => (.done resident.contents, (w, outside'))
      | (some detail, outside') => (.failed (.device detail), (w, outside')) := by
  obtain ⟨store, downloads⟩ := outside
  match downloads with
  | [] => rfl
  | none :: rest => rfl
  | some detail :: rest => rfl

/-- A round takes one batch off the device. -/
theorem deviceRound_rounds :
    Rounds manager .device manager.budget.deviceBytes (deviceRound manager) := by
  rintro ⟨w, outside⟩ haccounts
  by_cases hwithin : w.used .device ≤ manager.budget.deviceBytes
  · refine .inl ⟨hwithin, fun next => ?_⟩
    show (if w.used .device ≤ manager.budget.deviceBytes then pure () else _ : Call Unit) _ = _
    rw [if_pos hwithin]
    rfl
  have hover : manager.budget.deviceBytes < w.used .device := by omega
  obtain ⟨id, entry, hvictim, hpayload⟩ := haccounts.victim (Nat.zero_lt_of_lt hover)
  cases hentry : entry.payload with
  | device resident =>
    have hround : ∀ next, deviceRound manager next (w, outside) =
        (toHost resident >>= fun batch => do
          change fun w => w.unload id entry.bytes batch
          next) (w, outside) := by
      intro next
      show (if w.used .device ≤ manager.budget.deviceBytes then pure () else _ : Call Unit) _ = _
      rw [if_neg hwithin]
      simp only [hvictim.coldest, hvictim.found, hentry]
    have hdownload := toHost_apply (w := w) resident outside
    rcases htake : outside.takeDownload with ⟨_ | detail, outside'⟩
    · rw [htake] at hdownload
      refine .inr (.inr ⟨hover, _, .unload hvictim hentry htake, fun next => ?_⟩)
      rw [hround, bind_of_done hdownload]
      rfl
    · rw [htake] at hdownload
      refine .inr (.inl ⟨hover, _, .undelivered hvictim hentry htake, fun next => ?_⟩)
      rw [hround, bind_of_failed hdownload]
  | host batch | disk path => rw [hentry] at hpayload; cases hpayload

variable (manager) in
theorem writeSpill_apply (path : String) (batch : HostBatch) (outside : Outside) :
    writeSpill manager path batch (w, outside) =
      match manager.ipc.encode batch with
      | .error e => (.failed e, (w, outside))
      | .ok bytes =>
        match outside.takeReply with
        | (.ok, outside') => (.done bytes.length, (w.setObject path bytes, outside'))
        | (.fail detail, outside') => (.failed (.io false detail), (w, outside'))
        | (.cancelled effective, outside') =>
          (.cancelled, (if effective then w.setObject path bytes else w, outside')) := by
  unfold writeSpill
  cases hencode : manager.ipc.encode batch with
  | error e => rfl
  | ok bytes =>
    obtain ⟨store, downloads⟩ := outside
    match store with
    | [] => rfl
    | .ok :: rest => rfl
    | .fail detail :: rest => rfl
    | .cancelled true :: rest => rfl
    | .cancelled false :: rest => rfl

variable (manager) in
/-- The rest of a round of `enforce_host`, once the file is written. -/
def afterWrite (id : ℕ) (next : Call Unit) (diskBytes : ℕ) : Call Unit := do
  let w ← world
  match w.entries.get? id with
  | none => change fun w => w.log (.gaveUp .host)
  | some entry => do
      change fun w => w.toDisk id entry.bytes diskBytes (spillPath manager id)
      next

/-- A round takes one batch to disk. -/
theorem hostRound_rounds :
    Rounds manager .host manager.budget.hostBytes (hostRound manager) := by
  rintro ⟨w, outside⟩ haccounts
  by_cases hwithin : w.used .host ≤ manager.budget.hostBytes
  · refine .inl ⟨hwithin, fun next => ?_⟩
    show (if w.used .host ≤ manager.budget.hostBytes then pure () else _ : Call Unit) _ = _
    rw [if_pos hwithin]
    rfl
  have hover : manager.budget.hostBytes < w.used .host := by omega
  obtain ⟨id, entry, hvictim, hpayload⟩ := haccounts.victim (Nat.zero_lt_of_lt hover)
  cases hentry : entry.payload with
  | host batch =>
    have hround : ∀ next, hostRound manager next (w, outside) =
        (writeSpill manager (spillPath manager id) batch >>= afterWrite manager id next)
          (w, outside) := by
      intro next
      show (if w.used .host ≤ manager.budget.hostBytes then pure () else _ : Call Unit) _ = _
      rw [if_neg hwithin]
      simp only [hvictim.coldest, hvictim.found, Option.map_some, hentry]
      rfl
    have hwrite := writeSpill_apply manager (w := w) (spillPath manager id) batch outside
    cases hencode : manager.ipc.encode batch with
    | error e =>
      rw [hencode] at hwrite
      refine .inr (.inl ⟨hover, _, .unwritable hvictim hentry hencode, fun next => ?_⟩)
      rw [hround, bind_of_failed hwrite]
    | ok bytes =>
      rw [hencode] at hwrite
      rcases htake : outside.takeReply with ⟨_ | detail | effective, outside'⟩
      · rw [htake] at hwrite
        refine .inr (.inr ⟨hover, _, .spill hvictim hentry hencode htake, fun next => ?_⟩)
        rw [hround, bind_of_done hwrite]
        -- the entry is still there: the write has not touched the entries
        show (match w.entries.get? id with | none => _ | some entry => _ : Call Unit) _ = _
        rw [hvictim.found]
        rfl
      · rw [htake] at hwrite
        refine .inr (.inl ⟨hover, _, .refused hvictim hentry hencode htake, fun next => ?_⟩)
        rw [hround, bind_of_failed hwrite]
      · rw [htake] at hwrite
        refine .inr (.inl ⟨hover, _, .dropped hvictim hentry hencode htake, fun next => ?_⟩)
        rw [hround, bind_of_cancelled hwrite]
  | device resident | disk path => rw [hentry] at hpayload; cases hpayload

theorem Demotes.move (h : Demotes manager tier s s') :
    Move manager faulty s.1 s'.1 := by
  cases h with
  | unload hvictim hpayload _ => exact .unload hvictim.found hpayload
  | spill hvictim hpayload hencode _ => exact .spill hvictim.found hpayload hencode

theorem Demotes.accounts (h : Demotes manager tier s s') (haccounts : Accounts s.1) :
    Accounts s'.1 := by
  have hmove : Move manager True s.1 s'.1 := h.move
  exact haccounts.move hmove

theorem countIn_modify_lt {entries : Ledger Entry} {entry : Entry}
    (hget : entries.get? id = some entry) (htier : entry.tier = tier) {f : Entry → Entry}
    (hleaves : (f entry).tier ≠ tier) :
    (entries.modify id f).total (Entry.countIn tier) < entries.total (Entry.countIn tier) := by
  have htotal := total_modify (Entry.countIn tier) hget f
  rw [Entry.countIn, Entry.countIn, if_pos htier, if_neg hleaves] at htotal
  omega

theorem Demotes.countIn_lt (h : Demotes manager tier s s') :
    s'.1.entries.total (Entry.countIn tier) < s.1.entries.total (Entry.countIn tier) := by
  cases h with
  | unload hvictim _ _ | spill hvictim _ _ _ =>
    exact countIn_modify_lt hvictim.found hvictim.tier_eq nofun

variable (manager) in
/-- A loop takes one round after the other; without fuel it looks at the budget once more. -/
structure IsLoop (tier : Tier) (limit : ℕ) (loop : ℕ → Call Unit) (round : Call Unit → Call Unit) :
    Prop where
  rounds : Rounds manager tier limit round
  zero : loop 0 = world >>= fun w =>
    if w.used tier ≤ limit then pure () else change fun w => w.log .outOfFuel
  succ : ∀ fuel, loop (fuel + 1) = round (loop fuel)

theorem enforceDeviceLoop_isLoop : IsLoop manager .device manager.budget.deviceBytes
    (enforceDeviceLoop manager) (deviceRound manager) := ⟨deviceRound_rounds, rfl, fun _ => rfl⟩

theorem enforceHostLoop_isLoop : IsLoop manager .host manager.budget.hostBytes
    (enforceHostLoop manager) (hostRound manager) := ⟨hostRound_rounds, rfl, fun _ => rfl⟩

section Loop

variable {tier : Tier} {limit : ℕ} {round : Call Unit → Call Unit} {loop : ℕ → Call Unit}

section

variable (h : IsLoop manager tier limit loop round)
include h

theorem IsLoop.within (haccounts : Accounts s.1) (hwithin : s.1.used tier ≤ limit) (fuel : ℕ) :
    loop fuel s = (.done (), s) := by
  cases fuel with
  | zero =>
    rw [h.zero]
    show (if s.1.used tier ≤ limit then pure () else _ : Call Unit) s = _
    rw [if_pos hwithin]
    rfl
  | succ fuel =>
    rw [h.succ]
    rcases h.rounds s haccounts with ⟨_, hnext⟩ | ⟨hover, _⟩ | ⟨hover, _⟩
    · exact hnext _
    · exact absurd hwithin (Nat.not_le.mpr hover)
    · exact absurd hwithin (Nat.not_le.mpr hover)

/-- **A loop of rounds drains its tier**, and never runs out of rounds when it has one for each
entry of the tier. -/
theorem IsLoop.drain (fuel : ℕ) :
    ∀ s : World × Outside, Accounts s.1 → s.1.entries.total (Entry.countIn tier) ≤ fuel →
      Drain manager tier limit s (loop fuel s) := by
  induction fuel with
  | zero =>
    intro s haccounts hfuel
    have hwithin : s.1.used tier ≤ limit := by
      rw [haccounts.used_eq_zero (Nat.le_zero.mp hfuel)]
      exact Nat.zero_le _
    rw [h.within haccounts hwithin]
    exact .within hwithin
  | succ fuel ih =>
    intro s haccounts hfuel
    rw [h.succ]
    rcases h.rounds s haccounts with ⟨hwithin, hnext⟩ | ⟨hover, r, hstops, hnext⟩ |
      ⟨hover, s', hdemotes, hnext⟩
    · rw [hnext]
      exact .within hwithin
    · rw [hnext]
      exact .stop hover hstops
    · rw [hnext]
      have hless := hdemotes.countIn_lt
      exact .demote hover hdemotes
        (ih s' (hdemotes.accounts haccounts) (by omega))

theorem IsLoop.eq (rounds : ℕ) :
    ∀ (fuel : ℕ) (s : World × Outside), Accounts s.1 →
      s.1.entries.total (Entry.countIn tier) ≤ rounds →
      s.1.entries.total (Entry.countIn tier) ≤ fuel → loop fuel s = loop rounds s := by
  induction rounds with
  | zero =>
    intro fuel s haccounts hrounds _
    have hwithin : s.1.used tier ≤ limit := by
      rw [haccounts.used_eq_zero (Nat.le_zero.mp hrounds)]
      exact Nat.zero_le _
    rw [h.within haccounts hwithin, h.within haccounts hwithin]
  | succ rounds ih =>
    intro fuel s haccounts hrounds hfuel
    rcases h.rounds s haccounts with ⟨hwithin, -⟩ | ⟨hover, hnext⟩ | ⟨hover, s', hdemotes, hnext⟩
    · rw [h.within haccounts hwithin, h.within haccounts hwithin]
    all_goals
      -- a tier over its budget has an entry, so there is a round left
      have hsome : s.1.entries.total (Entry.countIn tier) ≠ 0 := fun hnone => by
        rw [haccounts.used_eq_zero hnone] at hover
        exact absurd hover (Nat.not_lt_zero _)
      obtain ⟨fuel, rfl⟩ := Nat.exists_eq_succ_of_ne_zero (by omega : fuel ≠ 0)
      rw [h.succ, h.succ]
    · obtain ⟨r, -, hnext⟩ := hnext
      rw [hnext, hnext]
    · rw [hnext, hnext]
      have hless := hdemotes.countIn_lt
      exact ih fuel s' (hdemotes.accounts haccounts) (by omega) (by omega)

end

end Loop

theorem At.takeReply {outside outside' : Outside} {r : Reply} (h : At faulty flaky w (w', outside))
    (htake : outside.takeReply = (r, outside')) :
    (r ≠ .ok → faulty) ∧ ∀ w'', At faulty flaky w'' (w'', outside') := by
  obtain ⟨-, hstore, hdownloads⟩ := h
  obtain ⟨store, downloads⟩ := outside
  cases store with
  | nil =>
    obtain ⟨rfl, rfl⟩ := Prod.mk.inj htake
    exact ⟨fun h => absurd rfl h, fun _ => ⟨rfl, hstore, hdownloads⟩⟩
  | cons r' rest =>
    obtain ⟨rfl, rfl⟩ := Prod.mk.inj htake
    exact ⟨hstore _ List.mem_cons_self, fun _ =>
      ⟨rfl, fun r h => hstore r (List.mem_cons_of_mem _ h), hdownloads⟩⟩

theorem At.takeDownload {outside outside' : Outside} {d : Option String}
    (h : At faulty flaky w (w', outside)) (htake : outside.takeDownload = (d, outside')) :
    (d ≠ none → flaky) ∧ ∀ w'', At faulty flaky w'' (w'', outside') := by
  obtain ⟨-, hstore, hdownloads⟩ := h
  obtain ⟨store, downloads⟩ := outside
  cases downloads with
  | nil =>
    obtain ⟨rfl, rfl⟩ := Prod.mk.inj htake
    exact ⟨fun h => absurd rfl h, fun _ => ⟨rfl, hstore, hdownloads⟩⟩
  | cons d' rest =>
    obtain ⟨rfl, rfl⟩ := Prod.mk.inj htake
    exact ⟨hdownloads _ List.mem_cons_self, fun _ =>
      ⟨rfl, hstore, fun d h => hdownloads d (List.mem_cons_of_mem _ h)⟩⟩

theorem Demotes.at (h : Demotes manager tier s s') (hat : At faulty flaky w s) :
    At faulty flaky s'.1 s' := by
  cases h with
  | unload _ _ hdownload => exact (hat.takeDownload hdownload).2 _
  | spill _ _ _ hreply => exact (hat.takeReply hreply).2 _

variable {start : World}

theorem Stops.early {r : CallResult Unit} (h : Stops manager tier s r)
    (hmoves : Moves manager faulty start s.1) (hat : At faulty flaky w s) :
    (∀ u, r.1 ≠ .done u) ∧ Early manager faulty flaky start r.2 := by
  cases h with
  | undelivered _ _ hdownload =>
    obtain ⟨hflaky, hat'⟩ := hat.takeDownload hdownload
    exact ⟨nofun, ⟨_, hmoves, hat' _⟩, fun _ => .inr (hflaky nofun)⟩
  | unwritable hvictim hpayload hencode =>
    refine ⟨nofun, ⟨_, hmoves, rfl, hat.2⟩, fun hwritable => ?_⟩
    obtain ⟨bytes, hbytes⟩ := hwritable _ hmoves _ _ _ hvictim.found hpayload
    rw [hencode] at hbytes
    cases hbytes
  | refused _ _ _ hreply =>
    obtain ⟨hfaulty, hat'⟩ := hat.takeReply hreply
    exact ⟨nofun, ⟨_, hmoves, hat' _⟩, fun _ => .inl (hfaulty nofun)⟩
  | @dropped w _ _ id _ _ bytes effective hvictim hpayload hencode hreply =>
    obtain ⟨hfaulty, hat'⟩ := hat.takeReply hreply
    refine ⟨nofun, ⟨_, ?_, hat' _⟩, fun _ => .inl (hfaulty nofun)⟩
    cases effective with
    | false => exact hmoves
    | true => exact hmoves.tail (.stray (hfaulty nofun) hvictim.found hpayload hencode)

/-- **What a drain does**: it makes moves, and unless something fails the tier ends within its
budget. -/
theorem Drain.moves {limit : ℕ} {r : CallResult Unit} (h : Drain manager tier limit s r)
    (hmoves : Moves manager faulty start s.1) (hat : At faulty flaky s.1 s) :
    (∀ u, r.1 = .done u → ∃ w', Moves manager faulty start w' ∧ w'.used tier ≤ limit ∧
      At faulty flaky w' r.2) ∧
    ((∀ u, r.1 ≠ .done u) → Early manager faulty flaky start r.2) := by
  induction h with
  | within hwithin => exact ⟨fun _ _ => ⟨_, hmoves, hwithin, hat⟩, fun h => absurd rfl (h ())⟩
  | stop _ hstops =>
    obtain ⟨hnot, hearly⟩ := hstops.early hmoves hat
    exact ⟨fun u hu => absurd hu (hnot u), fun _ => hearly⟩
  | demote _ hdemotes _ ih => exact ih (hmoves.tail hdemotes.move) (hdemotes.at hat)

theorem countIn_le_size (entries : Ledger Entry) (tier : Tier) :
    entries.total (Entry.countIn tier) ≤ entries.size := by
  refine total_le_size _ fun entry => ?_
  rw [Entry.countIn]
  split
  · exact Nat.le_refl 1
  · exact Nat.zero_le 1

theorem enforceDevice_drain (h : Accounts s.1) :
    Drain manager .device manager.budget.deviceBytes s (enforceDevice manager s) :=
  enforceDeviceLoop_isLoop.drain _ s h (countIn_le_size _ _)

theorem enforceHost_drain (h : Accounts s.1) :
    Drain manager .host manager.budget.hostBytes s (enforceHost manager s) :=
  enforceHostLoop_isLoop.drain _ s h (countIn_le_size _ _)

/-! ## The calls -/

/-- The entry an insert registers. -/
def Arrival.entry (touch : ℕ) : Arrival → Entry
  | .host batch =>
    ⟨.host, batch.memorySize, batch.memorySize, touch, batch.batch.schema, .host batch⟩
  | .device resident schema => ⟨.device, resident.bytes, 0, touch, schema, .device resident⟩

/-- The world once an insert has registered its entry. -/
def World.enter (w : World) (id : ℕ) (arrival : Arrival) : World :=
  { w with clock := w.clock + 1 }.register id (arrival.entry (w.clock + 1))

/-- A new entry is counted in its tier. -/
theorem Accounts.enter (h : Accounts w) (hfresh : w.entries.get? id = none)
    (arrival : Arrival) : Accounts (w.enter id arrival) := by
  have hticked : Accounts { w with clock := w.clock + 1 } := h.congr rfl rfl rfl
  refine hticked.register hfresh ?_
  cases arrival with
  | host batch | device resident schema => rfl

variable (manager) in
/-- What a `get` of an entry returns if nothing fails. -/
def Entry.Yields (w : World) (entry : Entry) (batch : HostBatch) : Prop :=
  match entry.payload with
  | .host stored => batch = stored
  | .device resident => batch = resident.contents
  | .disk path => ∃ bytes, w.objects path = some bytes ∧ manager.ipc.decode bytes = .ok batch

theorem get_unknown (hget : w.entries.get? id = none) (outside : Outside) :
    get manager id (w, outside) =
      (.failed (.execution ("spill: unknown batch id " ++ toString id)),
        ({ w with clock := w.clock + 1 }, outside)) := by
  show (match w.entries.get? id with | none => _ | some entry => _ : Call HostBatch) _ = _
  rw [hget]
  rfl

/-- The worlds in which an entry has just been forgotten. -/
inductive Forgotten (faulty : Prop) (w : World) (id : ℕ) (entry : Entry) : World → Prop
  | memory (hpayload : entry.payload.tier ≠ .disk) : Forgotten faulty w id entry (w.forget id entry)
  | file {path : String} {gone : Bool} (hpayload : entry.payload = .disk path)
      (hgone : gone = false → faulty) :
      Forgotten faulty w id entry ((w.forget id entry).eraseIf gone path)

theorem Accounts.forgotten (h : Accounts w) {entry : Entry}
    (hget : w.entries.get? id = some entry) (hforgotten : Forgotten faulty w id entry w') :
    Accounts w' := by
  cases hforgotten with
  | memory _ => exact h.forget hget
  | file _ _ => exact (h.forget hget).eraseIf _ _

theorem remove_unknown (hget : w.entries.get? id = none) (outside : Outside) :
    remove id (w, outside) = (.done false, (w, outside)) := by
  show (match w.entries.get? id with | none => _ | some entry => _ : Call Bool) _ = _
  rw [hget]
  rfl

end Spill

end OxideLake
