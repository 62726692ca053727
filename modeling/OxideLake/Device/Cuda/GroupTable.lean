import OxideLake.Arrow.Types
import OxideLake.Device.Cuda.SlotTable
import OxideLake.Foundations.Interleaving
import Mathlib

/-!
# The group table under concurrent insertion

`oxide_ag_slot` as a state machine of its atomic steps: load the state word, try to
claim an empty slot, store the key, publish, wait for another claim, load the key.
`oxide_agg_insert_keys` runs one such machine a row, over one table.

`insert_finished` is the result: when every thread has returned, whatever the
interleaving, each key of the input is in exactly one published slot and no slot is
left claimed.  The invariant is that a thread has passed only published slots of
other keys (`Walks`), and that a published slot lies at the end of such a walk.
Under a fair schedule every thread does return (`insert_terminates`): a waiting
thread waits for an owner that can move.
-/

namespace OxideLake

namespace Cuda

open Probing Interleaving Function Finset

variable {key : Int64} {i slot : ℕ} {pc pc' : SlotPc} {shape : TableShape}
  {c : Config ℕ InsertMemory InsertPc} {keys : Int64Array} {table' : GroupTable}

/-! ## `oxide_ag_slot` -/

/-- `g_keys` and `g_state`. -/
structure GroupTable where
  keys : ℕ → Int64
  state : ℕ → SlotState

/-- The table as allocated: every word zero. -/
def GroupTable.zeros : GroupTable := ⟨fun _ => 0, fun _ => .empty⟩

/-- Where a thread stands in `oxide_ag_slot`, before its next atomic step. -/
inductive SlotPc where
  /-- about to load the state word -/
  | load (slot probes : ℕ)
  /-- saw an empty slot, about to `atomicCAS` it -/
  | cas (slot probes : ℕ)
  /-- won the claim, about to store the key -/
  | storeKey (slot : ℕ)
  /-- stored the key, about to store state 2 -/
  | publish (slot : ℕ)
  /-- waiting for the owner of a claimed slot -/
  | spin (slot probes : ℕ)
  /-- the slot is published, about to load its key -/
  | loadKey (slot probes : ℕ)
  /-- returned a slot, or `0xFFFFFFFF` -/
  | returned (result : Option ℕ)
  deriving DecidableEq

/-- One atomic step of `oxide_ag_slot`. -/
def slotStep (shape : TableShape) (insert : Bool) (key : Int64) :
    SlotPc → GroupTable → SlotPc × GroupTable
  | .load slot probes, table =>
    match table.state slot with
    | .empty => (if insert then .cas slot probes else .returned none, table)
    | .claimed => (.spin slot probes, table)
    | .published => (.loadKey slot probes, table)
  | .cas slot probes, table =>
    if table.state slot = .empty then
      (.storeKey slot, { table with state := update table.state slot .claimed })
    else (.spin slot probes, table)
  | .storeKey slot, table =>
    (.publish slot, { table with keys := update table.keys slot key })
  | .publish slot, table =>
    (.returned (some slot), { table with state := update table.state slot .published })
  | .spin slot probes, table =>
    (if table.state slot = .claimed then .spin slot probes else .loadKey slot probes, table)
  | .loadKey slot probes, table =>
    (if table.keys slot = key then .returned (some slot)
      else if probes + 1 < shape.capacity then .load (shape.next slot) (probes + 1)
      else .returned none, table)
  | .returned result, table => (.returned result, table)

/-- The slot a thread has claimed and not yet published. -/
def SlotPc.owns : SlotPc → Option ℕ
  | .storeKey slot => some slot
  | .publish slot => some slot
  | _ => none

/-- Steps left at most: a thread takes four a slot, then three more to publish. -/
def SlotPc.cost (capacity : ℕ) : SlotPc → ℕ
  | .load _ probes => 4 * (capacity - probes) + 3
  | .cas _ probes => 4 * (capacity - probes) + 2
  | .spin _ probes => 4 * (capacity - probes) + 1
  | .loadKey _ probes => 4 * (capacity - probes)
  | .storeKey _ => 2
  | .publish _ => 1
  | .returned _ => 0

section Walks

variable (shape : TableShape) (table : GroupTable)

/-- A published slot of another key. -/
def Other (key : Int64) (slot : ℕ) : Prop :=
  table.state slot = .published ∧ table.keys slot ≠ key

/-- `slot` is `probes` probes from home, past published slots of other keys. -/
structure Walks (key : Int64) (slot probes : ℕ) : Prop where
  inside : probes < shape.capacity
  position : slot = shape.slotAt key probes
  passed : Passed (Other table key) shape.capacity (shape.hash key) probes

/-- What a thread looking for `key` knows of the table. -/
def PcOk (key : Int64) : SlotPc → Prop
  | .load slot probes => Walks shape table key slot probes
  | .cas slot probes => Walks shape table key slot probes
  | .spin slot probes => Walks shape table key slot probes ∧ table.state slot ≠ .empty
  | .loadKey slot probes => Walks shape table key slot probes ∧ table.state slot = .published
  | .storeKey slot => (∃ probes, Walks shape table key slot probes) ∧ table.state slot = .claimed
  | .publish slot => (∃ probes, Walks shape table key slot probes) ∧
      table.state slot = .claimed ∧ table.keys slot = key
  | .returned none => False
  | .returned (some slot) => table.state slot = .published ∧ table.keys slot = key

end Walks

section Owns

variable {shape : TableShape} {table : GroupTable} {key : Int64} {pc : SlotPc} {slot : ℕ}

theorem PcOk.claimed_of_owns (h : PcOk shape table key pc) (howns : pc.owns = some slot) :
    table.state slot = .claimed := by
  cases pc <;> cases howns
  · exact h.2
  · exact h.2.1

theorem PcOk.walks_of_owns (h : PcOk shape table key pc) (howns : pc.owns = some slot) :
    ∃ probes, Walks shape table key slot probes := by
  cases pc <;> cases howns
  · exact h.1
  · exact h.1

end Owns

theorem walks_start (shape : TableShape) (table : GroupTable) (key : Int64) :
    Walks shape table key (shape.hash key) 0 :=
  ⟨shape.capacity_pos, (shape.slotAt_zero key).symm, passed_zero⟩

/-- **Two walks of one key to slots that are not passed end at the same slot.** -/
theorem Walks.unique {table : GroupTable} {slot' probes probes' : ℕ}
    (h : Walks shape table key slot probes) (h' : Walks shape table key slot' probes')
    (hstop : ¬ Other table key slot) (hstop' : ¬ Other table key slot') : slot = slot' := by
  rw [h.position] at hstop
  rw [h'.position] at hstop'
  rw [h.position, h'.position, h.passed.eq_of_not h'.passed hstop hstop']

/-! ### What a step changes -/

/-- The table changed at one slot that was not published and is not empty now. -/
structure ChangesAt (slot : ℕ) (table table' : GroupTable) : Prop where
  state : ∀ s, s ≠ slot → table'.state s = table.state s
  keys : ∀ s, s ≠ slot → table'.keys s = table.keys s
  before : table.state slot ≠ .published
  after : table'.state slot ≠ .empty

namespace ChangesAt

variable {shape : TableShape} {table table' : GroupTable} {slot : ℕ}

section

variable (h : ChangesAt slot table table')
include h

theorem published {s : ℕ} (hs : table.state s = .published) :
    table'.state s = .published ∧ table'.keys s = table.keys s := by
  have hne : s ≠ slot := fun heq => h.before (heq ▸ hs)
  exact ⟨(h.state s hne).trans hs, h.keys s hne⟩

theorem other {s : ℕ} (hs : Other table key s) :
    Other table' key s := by
  obtain ⟨hstate, hkey⟩ := h.published hs.1
  exact ⟨hstate, hkey ▸ hs.2⟩

theorem walks {s probes : ℕ} (hs : Walks shape table key s probes) :
    Walks shape table' key s probes :=
  ⟨hs.inside, hs.position, hs.passed.mono fun _ => h.other⟩

/-- **Frame.**  What a thread knows survives a change at a slot it does not own. -/
theorem pcOk (howns : pc.owns ≠ some slot)
    (hpc : PcOk shape table key pc) : PcOk shape table' key pc := by
  cases pc with
  | load s probes | cas s probes => exact h.walks hpc
  | spin s probes =>
    refine ⟨h.walks hpc.1, ?_⟩
    by_cases hs : s = slot
    · exact hs ▸ h.after
    · rw [h.state s hs]
      exact hpc.2
  | loadKey s probes => exact ⟨h.walks hpc.1, (h.published hpc.2).1⟩
  | storeKey s =>
    have hs : s ≠ slot := fun heq => howns (congrArg some heq)
    exact ⟨hpc.1.imp fun _ => h.walks, (h.state s hs).trans hpc.2⟩
  | publish s =>
    have hs : s ≠ slot := fun heq => howns (congrArg some heq)
    exact ⟨hpc.1.imp fun _ => h.walks, (h.state s hs).trans hpc.2.1,
      (h.keys s hs).trans hpc.2.2⟩
  | returned result =>
    cases result with
    | none => exact hpc
    | some s => exact ⟨(h.published hpc.1).1, (h.published hpc.1).2.trans hpc.2⟩

end

end ChangesAt

/-- The effect of one step on the table: none, a claim, a stored key, or a
publication, at the slot the thread owns after or before the step. -/
inductive SlotEffect (key : Int64) (pc pc' : SlotPc) (table table' : GroupTable) : Prop where
  | none (htable : table' = table) (howns : pc'.owns = pc.owns)
  | claim (slot : ℕ) (hchanges : ChangesAt slot table table') (hfree : pc.owns = .none)
      (howns : pc'.owns = some slot) (hempty : table.state slot = .empty)
      (hclaimed : table'.state slot = .claimed)
  | store (slot : ℕ) (hchanges : ChangesAt slot table table') (howned : pc.owns = some slot)
      (howns : pc'.owns = some slot) (hstate : table'.state = table.state)
  | publish (slot : ℕ) (hchanges : ChangesAt slot table table') (howned : pc.owns = some slot)
      (hfree : pc'.owns = .none) (hstate : table'.state slot = .published)
      (hkey : table'.keys slot = key)

section SlotStep

variable {shape : TableShape} {table : GroupTable} {key : Int64} {pc : SlotPc}

/-- **One step of an inserting thread**: it keeps what the thread knows, on a table
that is not full of other keys, and has one of four effects. -/
theorem slotStep_spec (hpc : PcOk shape table key pc)
    (hroom : ¬ ∀ slot < shape.capacity, Other table key slot) :
    PcOk shape (slotStep shape true key pc table).2 key (slotStep shape true key pc table).1 ∧
      SlotEffect key pc (slotStep shape true key pc table).1 table
        (slotStep shape true key pc table).2 := by
  cases pc with
  | load slot probes =>
    rw [slotStep]
    cases hstate : table.state slot with
    | empty => exact ⟨hpc, .none rfl rfl⟩
    | claimed => exact ⟨⟨hpc, by simp [hstate]⟩, .none rfl rfl⟩
    | published => exact ⟨⟨hpc, hstate⟩, .none rfl rfl⟩
  | cas slot probes =>
    rw [slotStep]
    split
    · next hempty =>
      have hchanges : ChangesAt slot table
          { table with state := update table.state slot .claimed } :=
        ⟨fun s hs => update_of_ne hs _ _, fun _ _ => rfl, by simp [hempty], by simp⟩
      refine ⟨⟨⟨probes, hchanges.walks hpc⟩, update_self ..⟩, ?_⟩
      exact .claim slot hchanges rfl rfl hempty (update_self ..)
    · next hstate => exact ⟨⟨hpc, hstate⟩, .none rfl rfl⟩
  | storeKey slot =>
    obtain ⟨⟨probes, hwalks⟩, hclaimed⟩ := hpc
    have hchanges : ChangesAt slot table
        { table with keys := update table.keys slot key } :=
      ⟨fun _ _ => rfl, fun s hs => update_of_ne hs _ _, by simp [hclaimed],
        by simp [hclaimed]⟩
    refine ⟨⟨⟨probes, hchanges.walks hwalks⟩, hclaimed, update_self ..⟩, ?_⟩
    exact .store slot hchanges rfl rfl rfl
  | publish slot =>
    obtain ⟨⟨probes, hwalks⟩, hclaimed, hkey⟩ := hpc
    have hchanges : ChangesAt slot table
        { table with state := update table.state slot .published } :=
      ⟨fun s hs => update_of_ne hs _ _, fun _ _ => rfl, by simp [hclaimed], by simp⟩
    refine ⟨⟨update_self .., hkey⟩, ?_⟩
    exact .publish slot hchanges rfl rfl (update_self ..) hkey
  | spin slot probes =>
    rw [slotStep]
    refine ⟨?_, .none rfl ?_⟩
    · split
      · exact hpc
      · next hclaimed =>
        refine ⟨hpc.1, ?_⟩
        have hempty := hpc.2
        cases hstate : table.state slot with
        | empty => exact absurd hstate hempty
        | claimed => exact absurd hstate hclaimed
        | published => rfl
    · split <;> rfl
  | loadKey slot probes =>
    obtain ⟨hwalks, hpublished⟩ := hpc
    rw [slotStep]
    refine ⟨?_, .none rfl ?_⟩
    · split
      · next hkey => exact ⟨hpublished, hkey⟩
      · next hkey =>
        have hpassed : Passed (Other table key) shape.capacity (shape.hash key) (probes + 1) := by
          refine passed_succ.mpr ⟨hwalks.passed, ?_⟩
          show Other table key (shape.slotAt key probes)
          rw [← hwalks.position]
          exact ⟨hpublished, hkey⟩
        split
        · next hinside =>
          exact ⟨hinside, by rw [hwalks.position, shape.next_slotAt], hpassed⟩
        · next hinside =>
          -- the walk went once around a table that is not full
          have hall : probes + 1 = shape.capacity := by
            have := hwalks.inside
            omega
          exact hroom fun s hs => (hall ▸ hpassed).all (shape.hash_lt key) hs
    · split
      · rfl
      · split <;> rfl
  | returned result => exact ⟨hpc, .none rfl rfl⟩

/-- A step waits or makes progress. -/
theorem slotStep_cost (hpc : PcOk shape table key pc) :
    slotStep shape true key pc table = (pc, table) ∨
      (slotStep shape true key pc table).1.cost shape.capacity < pc.cost shape.capacity := by
  cases pc with
  | load slot probes =>
    rw [slotStep]
    right
    cases table.state slot <;> simp [SlotPc.cost]
  | cas slot probes =>
    have hinside := hpc.inside
    rw [slotStep]
    right
    split
    · simp only [SlotPc.cost]
      omega
    · simp [SlotPc.cost]
  | storeKey slot | publish slot => exact .inr (by simp [slotStep, SlotPc.cost])
  | spin slot probes =>
    rw [slotStep]
    split
    · exact .inl rfl
    · exact .inr (by simp [SlotPc.cost])
  | loadKey slot probes =>
    have hinside := hpc.1.inside
    rw [slotStep]
    right
    split
    · simp only [SlotPc.cost]
      omega
    · split
      · simp only [SlotPc.cost]
        omega
      · simp only [SlotPc.cost]
        omega
  | returned result => exact .inl rfl

/-- A walker that waits has its slot or waits for an owner. -/
theorem slotStep_waits (hpc : PcOk shape table key pc)
    (h : slotStep shape true key pc table = (pc, table)) :
    (∃ slot, pc = .returned (some slot)) ∨ ∃ slot, table.state slot = .claimed ∧
    pc.owns = none := by
  cases pc with
  | returned result =>
    cases result with
    | none => exact hpc.elim
    | some slot => exact .inl ⟨slot, rfl⟩
  | spin slot probes =>
    right
    refine ⟨slot, ?_, rfl⟩
    rw [slotStep] at h
    by_contra hclaimed
    rw [if_neg hclaimed] at h
    cases h
  | load slot probes =>
    rw [slotStep] at h
    cases hstate : table.state slot <;> rw [hstate] at h <;> cases h
  | cas slot probes =>
    rw [slotStep] at h
    split at h <;> cases h
  | storeKey slot | publish slot => cases (Prod.mk.inj h).1
  | loadKey slot probes =>
    rw [slotStep] at h
    split at h
    · cases h
    · split at h
      · cases h
      · cases h

end SlotStep

/-! ## `oxide_agg_insert_keys` -/

/-- The table and the flag of the `NULL` group. -/
structure InsertMemory where
  table : GroupTable
  nullFlag : Bool

/-- Where a thread of the insert kernel stands. -/
inductive InsertPc where
  /-- about to `atomicOr` the flag of the `NULL` group -/
  | flagNull
  /-- inside `oxide_ag_slot` with its key -/
  | slot (key : Int64) (pc : SlotPc)
  /-- returned without a key -/
  | exited
  deriving DecidableEq

/-- The thread has returned. -/
def InsertPc.finished : InsertPc → Bool
  | .slot _ (.returned _) => true
  | .exited => true
  | _ => false

/-- One atomic step of a thread of the insert kernel. -/
def insertStep (shape : TableShape) : ThreadStep ℕ InsertMemory InsertPc := fun _ pc memory =>
  match pc with
  | .flagNull => (.exited, { memory with nullFlag := true })
  | .slot key pc =>
    let next := slotStep shape true key pc memory.table
    (.slot key next.1, { memory with table := next.2 })
  | .exited => (.exited, memory)

/-- Thread `i` at launch: past the last row, on a `NULL` key, or at the home slot of
its key. -/
def insertThread (shape : TableShape) (keys : Int64Array) (i : ℕ) : InsertPc :=
  match keys[i]? with
  | none => .exited
  | some none => .flagNull
  | some (some key) => .slot key (.load (shape.hash key) 0)

/-- The launch of the insert kernel. -/
def insertLaunch (shape : TableShape) (keys : Int64Array) :
    Config ℕ InsertMemory InsertPc :=
  ⟨⟨.zeros, false⟩, insertThread shape keys⟩

/-- Every thread has returned. -/
def InsertFinished (keys : Int64Array) (c : Config ℕ InsertMemory InsertPc) : Prop :=
  ∀ i < keys.length, (c.thread i).finished = true

instance (keys : Int64Array) (c : Config ℕ InsertMemory InsertPc) :
    Decidable (InsertFinished keys c) :=
  inferInstanceAs (Decidable (∀ i < keys.length, (c.thread i).finished = true))

/-- **The invariant of the insert kernel.** -/
structure InsertInv (shape : TableShape) (keys : Int64Array)
    (c : Config ℕ InsertMemory InsertPc) : Prop where
  /-- a thread with a key knows what its place in the walk says -/
  walker : ∀ i key pc, c.thread i = .slot key pc →
    keys[i]? = some (some key) ∧ PcOk shape c.memory.table key pc
  keyed : ∀ i key, keys[i]? = some (some key) → ∃ pc, c.thread i = .slot key pc
  null : ∀ i, keys[i]? = some none →
    c.thread i = .flagNull ∨ c.thread i = .exited ∧ c.memory.nullFlag = true
  idle : ∀ i, keys[i]? = none → c.thread i = .exited
  flag : c.memory.nullFlag = true → none ∈ keys
  /-- a claimed slot has an owner -/
  owner : ∀ slot, c.memory.table.state slot = .claimed →
    ∃ i key pc, c.thread i = .slot key pc ∧ pc.owns = some slot
  /-- and only one -/
  single : ∀ i j key key' pc pc' slot, c.thread i = .slot key pc → c.thread j = .slot key' pc' →
    pc.owns = some slot → pc'.owns = some slot → i = j
  /-- a published slot ends a walk of its own key -/
  published : ∀ slot, c.memory.table.state slot = .published →
    some (c.memory.table.keys slot) ∈ keys ∧
      ∃ probes, Walks shape c.memory.table (c.memory.table.keys slot) slot probes

namespace InsertInv

variable {shape : TableShape} {keys : Int64Array} {c : Config ℕ InsertMemory InsertPc}

theorem eq_of_key (h : InsertInv shape keys c) {slot' : ℕ}
    (hs : c.memory.table.state slot = .published) (hs' : c.memory.table.state slot' = .published)
    (hkey : c.memory.table.keys slot = c.memory.table.keys slot') : slot = slot' := by
  obtain ⟨-, probes, hwalks⟩ := h.published slot hs
  obtain ⟨-, probes', hwalks'⟩ := h.published slot' hs'
  rw [← hkey] at hwalks'
  exact hwalks.unique hwalks' (fun hother => hother.2 rfl) fun hother => hother.2 hkey.symm

theorem room (h : InsertInv shape keys c) (hcap : 2 * keys.length ≤ shape.capacity)
    (key : Int64) : ¬ ∀ slot < shape.capacity, Other c.memory.table key slot := by
  intro hfull
  have hcard : (range shape.capacity).card ≤ keys.toFinset.card := by
    refine card_le_card_of_injOn (fun slot => some (c.memory.table.keys slot)) ?_ ?_
    · intro slot hslot
      have hlt := mem_range.mp (mem_coe.mp hslot)
      exact List.mem_toFinset.mpr (h.published slot (hfull slot hlt).1).1
    · intro slot hslot slot' hslot' hkey
      have hlt := mem_range.mp (mem_coe.mp hslot)
      have hlt' := mem_range.mp (mem_coe.mp hslot')
      exact h.eq_of_key (hfull slot hlt).1 (hfull slot' hlt').1 (Option.some.inj hkey)
  rw [card_range] at hcard
  have hlength := List.toFinset_card_le keys
  have hpos := shape.capacity_pos
  omega

theorem owned_before {table : GroupTable} (h : SlotEffect key pc pc' table table')
    (howns : pc'.owns = some slot) :
    pc.owns = some slot ∨ table.state slot = .empty := by
  cases h with
  | none _ hsame => exact .inl (hsame ▸ howns)
  | claim s _ _ hs hempty _ =>
    rw [hs] at howns
    cases howns
    exact .inr hempty
  | store s _ hs hs' _ =>
    rw [hs'] at howns
    cases howns
    exact .inl hs
  | publish s _ _ hfree _ _ =>
    rw [hfree] at howns
    cases howns

/-- Every claimed slot keeps an owner. -/
theorem owner_step (h : InsertInv shape keys c) (hi : c.thread i = .slot key pc)
    (heffect : SlotEffect key pc pc' c.memory.table table')
    (hself : (stepAt (insertStep shape) c i).thread i = .slot key pc')
    (hclaimed : table'.state slot = .claimed) :
    ∃ j key' pc', (stepAt (insertStep shape) c i).thread j = .slot key' pc' ∧
      pc'.owns = some slot := by
  -- a slot claimed before: its owner has not moved, or owns it still
  have hkeep : c.memory.table.state slot = .claimed →
      (pc.owns = some slot → pc'.owns = some slot) →
      ∃ j key' pc', (stepAt (insertStep shape) c i).thread j = .slot key' pc' ∧
        pc'.owns = some slot := by
    intro hbefore hown
    obtain ⟨j, key', pc'', hj, howns⟩ := h.owner slot hbefore
    by_cases hji : j = i
    · rw [hji, hi] at hj
      cases hj
      exact ⟨i, key, pc', hself, hown howns⟩
    · exact ⟨j, key', pc'', by rwa [stepAt_thread_of_ne hji], howns⟩
  cases heffect with
  | none htable hsame => exact hkeep (htable ▸ hclaimed) fun howns => hsame ▸ howns
  | claim s hchanges hfree howns _ _ =>
    by_cases hs : slot = s
    · exact ⟨i, key, pc', hself, hs ▸ howns⟩
    · refine hkeep (hchanges.state slot hs ▸ hclaimed) fun howns' => ?_
      rw [hfree] at howns'
      cases howns'
  | store s _ howned howns hstate =>
    refine hkeep (hstate ▸ hclaimed) fun howns' => ?_
    rw [howned] at howns'
    cases howns'
    exact howns
  | publish s hchanges howned _ hstate _ =>
    by_cases hs : slot = s
    · rw [hs, hstate] at hclaimed
      cases hclaimed
    · refine hkeep (hchanges.state slot hs ▸ hclaimed) fun howns' => ?_
      rw [howned] at howns'
      exact absurd (Option.some.inj howns').symm hs

/-- A published slot is on the walk of its key. -/
theorem published_step (h : InsertInv shape keys c) (hkey : keys[i]? = some (some key))
    (hpc : PcOk shape c.memory.table key pc) (heffect : SlotEffect key pc pc' c.memory.table table')
    (hpublished : table'.state slot = .published) :
    some (table'.keys slot) ∈ keys ∧ ∃ probes, Walks shape table' (table'.keys slot) slot
      probes := by
  have hkeep : ∀ {s}, ChangesAt s c.memory.table table' → slot ≠ s →
      some (table'.keys slot) ∈ keys ∧
        ∃ probes, Walks shape table' (table'.keys slot) slot probes := by
    intro s hchanges hs
    obtain ⟨hmem, probes, hwalks⟩ := h.published slot (hchanges.state slot hs ▸ hpublished)
    rw [hchanges.keys slot hs]
    exact ⟨hmem, probes, hchanges.walks hwalks⟩
  cases heffect with
  | none htable _ =>
    rw [htable] at hpublished ⊢
    exact h.published slot hpublished
  | claim s hchanges _ _ _ hclaimed =>
    refine hkeep hchanges fun hs => ?_
    rw [hs, hclaimed] at hpublished
    cases hpublished
  | store s hchanges _ _ hstate =>
    refine hkeep hchanges fun hs => hchanges.before ?_
    rw [← hs, ← hstate]
    exact hpublished
  | publish s hchanges howned _ _ hkey' =>
    by_cases hs : slot = s
    · subst hs
      obtain ⟨probes, hwalks⟩ := PcOk.walks_of_owns hpc howned
      rw [hkey']
      exact ⟨List.mem_of_getElem? hkey, probes, hchanges.walks hwalks⟩
    · exact hkeep hchanges hs

theorem launch (shape : TableShape) (keys : Int64Array) :
    InsertInv shape keys (insertLaunch shape keys) where
  walker := by
    intro i key pc hpc
    change insertThread shape keys i = _ at hpc
    unfold insertThread at hpc
    split at hpc
    · cases hpc
    · cases hpc
    · next hkey =>
      cases hpc
      exact ⟨hkey, walks_start shape _ _⟩
  keyed := fun i key hkey => ⟨_, by
    show insertThread shape keys i = _
    rw [insertThread, hkey]⟩
  null := fun i hkey => .inl (by
    show insertThread shape keys i = _
    rw [insertThread, hkey])
  idle := fun i hkey => by
    show insertThread shape keys i = _
    rw [insertThread, hkey]
  flag := nofun
  owner := nofun
  single := by
    intro i j key key' pc pc' slot hpc _ howns _
    change insertThread shape keys i = _ at hpc
    unfold insertThread at hpc
    split at hpc
    · cases hpc
    · cases hpc
    · cases hpc
      cases howns
  published := nofun

theorem key_of_flagNull (h : InsertInv shape keys c) (hi : c.thread i = .flagNull) :
    keys[i]? = some none := by
  cases hkey : keys[i]? with
  | none =>
    have hidle := h.idle i hkey
    rw [hi] at hidle
    cases hidle
  | some key =>
    cases key with
    | none => rfl
    | some key =>
      obtain ⟨pc, hpc⟩ := h.keyed i key hkey
      rw [hi] at hpc
      cases hpc

theorem step_flagNull (h : InsertInv shape keys c) (hi : c.thread i = .flagNull) :
    InsertInv shape keys (stepAt (insertStep shape) c i) := by
  have hkey := h.key_of_flagNull hi
  have hself : (stepAt (insertStep shape) c i).thread i = .exited := by
    rw [stepAt_thread_self, hi, insertStep]
  have hmemory : (stepAt (insertStep shape) c i).memory = { c.memory with nullFlag := true } := by
    rw [stepAt_memory, hi, insertStep]
  -- a thread with a key is another thread, and has not moved
  have hother : ∀ j key pc, (stepAt (insertStep shape) c i).thread j = .slot key pc →
      c.thread j = .slot key pc := by
    intro j key pc hj
    by_cases hji : j = i
    · rw [hji, hself] at hj
      cases hj
    · rwa [stepAt_thread_of_ne hji] at hj
  constructor
  · intro j key pc hj
    rw [hmemory]
    exact h.walker j key pc (hother j key pc hj)
  · intro j key hj
    have hji : j ≠ i := by
      rintro rfl
      rw [hkey] at hj
      cases hj
    rw [stepAt_thread_of_ne hji]
    exact h.keyed j key hj
  · intro j hj
    rw [hmemory]
    by_cases hji : j = i
    · exact .inr ⟨hji ▸ hself, rfl⟩
    · rw [stepAt_thread_of_ne hji]
      exact (h.null j hj).imp_right fun hexit => ⟨hexit.1, rfl⟩
  · intro j hj
    by_cases hji : j = i
    · exact hji ▸ hself
    · rw [stepAt_thread_of_ne hji]
      exact h.idle j hj
  · exact fun _ => List.mem_of_getElem? hkey
  · intro slot hslot
    rw [hmemory] at hslot
    obtain ⟨j, key, pc, hj, howns⟩ := h.owner slot hslot
    have hji : j ≠ i := by
      rintro rfl
      rw [hi] at hj
      cases hj
    exact ⟨j, key, pc, by rwa [stepAt_thread_of_ne hji], howns⟩
  · intro j k key key' pc pc' slot hj hk
    exact h.single j k key key' pc pc' slot (hother j key pc hj) (hother k key' pc' hk)
  · intro slot hslot
    rw [hmemory] at hslot ⊢
    exact h.published slot hslot

/-- **Step lemma.**  A step of a thread with a key. -/
theorem step_slot (h : InsertInv shape keys c) (hcap : 2 * keys.length ≤ shape.capacity)
    (hi : c.thread i = .slot key pc) :
    InsertInv shape keys (stepAt (insertStep shape) c i) := by
  obtain ⟨hkey, hpc⟩ := h.walker i key pc hi
  obtain ⟨hok, heffect⟩ := slotStep_spec hpc (h.room hcap key)
  set next := slotStep shape true key pc c.memory.table with hnext
  have hself : (stepAt (insertStep shape) c i).thread i = .slot key next.1 := by
    rw [stepAt_thread_self, hi, insertStep]
  have hmemory : (stepAt (insertStep shape) c i).memory = { c.memory with table := next.2 } := by
    rw [stepAt_memory, hi, insertStep]
  -- a thread with a key is this one, or has not moved
  have hthread : ∀ {j key' pc'}, (stepAt (insertStep shape) c i).thread j = .slot key' pc' →
      (j = i ∧ key' = key ∧ pc' = next.1) ∨ (j ≠ i ∧ c.thread j = .slot key' pc') := by
    intro j key' pc' hj
    by_cases hji : j = i
    · rw [hji, hself] at hj
      cases hj
      exact .inl ⟨hji, rfl, rfl⟩
    · rw [stepAt_thread_of_ne hji] at hj
      exact .inr ⟨hji, hj⟩
  -- no other thread owns the slot this step changes
  have hframe : ∀ {slot}, (pc.owns = some slot ∨ c.memory.table.state slot = .empty) →
      ∀ {j key' pc'}, j ≠ i → c.thread j = .slot key' pc' → pc'.owns ≠ some slot := by
    intro slot hslot j key' pc' hji hj howns
    rcases hslot with hslot | hslot
    · exact hji (h.single j i key' key pc' pc slot hj hi howns hslot)
    · have hclaimed := PcOk.claimed_of_owns (h.walker j key' pc' hj).2 howns
      rw [hslot] at hclaimed
      cases hclaimed
  have hchanged : next.2 = c.memory.table ∨ ∃ slot, ChangesAt slot c.memory.table next.2 ∧
      (pc.owns = some slot ∨ c.memory.table.state slot = .empty) := by
    cases heffect with
    | none htable _ => exact .inl htable
    | claim slot hchanges _ _ hempty _ => exact .inr ⟨slot, hchanges, .inr hempty⟩
    | store slot hchanges howned _ _ | publish slot hchanges howned _ _ _ =>
      exact .inr ⟨slot, hchanges, .inl howned⟩
  constructor
  · intro j key' pc' hj
    rw [hmemory]
    rcases hthread hj with ⟨rfl, rfl, rfl⟩ | ⟨hji, hj⟩
    · exact ⟨hkey, hok⟩
    · obtain ⟨hkey', hpc'⟩ := h.walker j key' pc' hj
      refine ⟨hkey', ?_⟩
      rcases hchanged with hsame | ⟨slot, hchanges, hslot⟩
      · show PcOk shape next.2 key' pc'
        rwa [hsame]
      · exact hchanges.pcOk (hframe hslot hji hj) hpc'
  · intro j key' hj
    by_cases hji : j = i
    · rw [hji, hkey] at hj
      cases hj
      exact ⟨next.1, hji ▸ hself⟩
    · rw [stepAt_thread_of_ne hji]
      exact h.keyed j key' hj
  · intro j hj
    have hji : j ≠ i := by
      rintro rfl
      rw [hkey] at hj
      cases hj
    rw [stepAt_thread_of_ne hji, hmemory]
    exact h.null j hj
  · intro j hj
    have hji : j ≠ i := by
      rintro rfl
      rw [hkey] at hj
      cases hj
    rw [stepAt_thread_of_ne hji]
    exact h.idle j hj
  · rw [hmemory]
    exact h.flag
  · intro slot hclaimed
    rw [hmemory] at hclaimed
    exact owner_step h hi heffect hself hclaimed
  · intro j k key' key'' pc' pc'' slot hj hk howns howns'
    rcases hthread hj with ⟨hji, -, rfl⟩ | ⟨hji, hj'⟩
    · rcases hthread hk with ⟨hki, -, -⟩ | ⟨hki, hk'⟩
      · rw [hji, hki]
      · exact absurd howns' (hframe (owned_before heffect howns) hki hk')
    · rcases hthread hk with ⟨-, -, rfl⟩ | ⟨-, hk'⟩
      · exact absurd howns (hframe (owned_before heffect howns') hji hj')
      · exact h.single j k key' key'' pc' pc'' slot hj' hk' howns howns'
  · intro slot hpublished
    rw [hmemory] at hpublished ⊢
    exact published_step h hkey hpc heffect hpublished

/-- **Every step keeps the invariant.** -/
theorem step (hcap : 2 * keys.length ≤ shape.capacity) (c : Config ℕ InsertMemory InsertPc)
    (i : ℕ) (h : InsertInv shape keys c) :
    InsertInv shape keys (stepAt (insertStep shape) c i) := by
  cases hi : c.thread i with
  | flagNull => exact h.step_flagNull hi
  | slot key pc => exact h.step_slot hcap hi
  | exited =>
    rw [stepAt_eq_self (by rw [hi, insertStep])]
    exact h

theorem lt_of_slot (h : InsertInv shape keys c) (hi : c.thread i = .slot key pc) :
    i < keys.length :=
  (List.getElem?_eq_some_iff.mp (h.walker i key pc hi).1).1

end InsertInv

/-! ## The finished table -/

/-- The table holds exactly the keys of the input, each in one published slot that a
walk from its home reaches. -/
structure Indexes (shape : TableShape) (keys : Int64Array) (table : GroupTable) :
    Prop where
  quiet : ∀ slot, table.state slot ≠ .claimed
  found : ∀ key, some key ∈ keys → ∃ slot probes, table.state slot = .published ∧
    table.keys slot = key ∧ Walks shape table key slot probes
  mem : ∀ slot, table.state slot = .published → slot < shape.capacity ∧
    some (table.keys slot) ∈ keys
  unique : ∀ slot slot', table.state slot = .published → table.state slot' = .published →
    table.keys slot = table.keys slot' → slot = slot'

/-- **What concurrent insertion leaves**, once every thread has returned. -/
theorem insert_finished (h : InsertInv shape keys c) (hfinished : InsertFinished keys c) :
    Indexes shape keys c.memory.table ∧ (c.memory.nullFlag = true ↔ none ∈ keys) := by
  refine ⟨⟨fun slot hclaimed => ?_, fun key hkey => ?_, fun slot hslot => ?_,
    fun slot slot' => h.eq_of_key⟩, h.flag, fun hnull => ?_⟩
  · obtain ⟨i, key, pc, hi, howns⟩ := h.owner slot hclaimed
    have hdone := hfinished i (h.lt_of_slot hi)
    rw [hi] at hdone
    cases pc <;> cases hdone
    cases howns
  · obtain ⟨i, hlt, hi⟩ := List.getElem_of_mem hkey
    obtain ⟨pc, hpc⟩ := h.keyed i key (by rw [List.getElem?_eq_getElem hlt, hi])
    have hdone := hfinished i hlt
    rw [hpc] at hdone
    have hok := (h.walker i key pc hpc).2
    cases pc with
    | returned result =>
      cases result with
      | none => exact hok.elim
      | some slot =>
        obtain ⟨-, probes, hwalks⟩ := h.published slot hok.1
        exact ⟨slot, probes, hok.1, hok.2, hok.2 ▸ hwalks⟩
    | _ => cases hdone
  · obtain ⟨hmem, probes, hwalks⟩ := h.published slot hslot
    exact ⟨hwalks.position ▸ shape.slotAt_lt _ _, hmem⟩
  · obtain ⟨i, hlt, hi⟩ := List.getElem_of_mem hnull
    rcases h.null i (by rw [List.getElem?_eq_getElem hlt, hi]) with hflag | ⟨-, hflag⟩
    · have hdone := hfinished i hlt
      rw [hflag] at hdone
      cases hdone
    · exact hflag

/-! ## Termination -/

/-- Steps left at most. -/
def InsertPc.cost (capacity : ℕ) : InsertPc → ℕ
  | .flagNull => 1
  | .slot _ pc => pc.cost capacity
  | .exited => 0

/-- A step of a thread waits or makes progress. -/
theorem insertStep_cost (h : InsertInv shape keys c) (i : ℕ) :
    stepAt (insertStep shape) c i = c ∨ i ∈ range keys.length ∧
      ((stepAt (insertStep shape) c i).thread i).cost shape.capacity <
        (c.thread i).cost shape.capacity := by
  cases hi : c.thread i with
  | flagNull =>
    right
    have hkey := h.key_of_flagNull hi
    refine ⟨mem_range.mpr (List.getElem?_eq_some_iff.mp hkey).1, ?_⟩
    rw [stepAt_thread_self, hi]
    exact Nat.zero_lt_one
  | slot key pc =>
    rcases slotStep_cost (h.walker i key pc hi).2 with hwaits | hlt
    · exact .inl (stepAt_eq_self (by rw [hi, insertStep, hwaits]))
    · refine .inr ⟨mem_range.mpr (h.lt_of_slot hi), ?_⟩
      rw [stepAt_thread_self, hi]
      exact hlt
  | exited => exact .inl (stepAt_eq_self (by rw [hi, insertStep]))

theorem stepAt_owner_ne (hi : c.thread i = .slot key pc) (howns : pc.owns = some slot) :
    stepAt (insertStep shape) c i ≠ c := by
  intro hsame
  have hthread := congrArg (fun c => c.thread i) hsame
  simp only [stepAt_thread_self, hi, insertStep] at hthread
  cases pc <;> cases howns <;> cases hthread

/-- Before the end some thread can move: an unfinished one that waits waits for an
owner. -/
theorem insert_progress (h : InsertInv shape keys c) (hfinished : ¬ InsertFinished keys c) :
    ∃ i ∈ range keys.length, stepAt (insertStep shape) c i ≠ c := by
  unfold InsertFinished at hfinished
  push Not at hfinished
  obtain ⟨i, hlt, hi⟩ := hfinished
  by_cases hmoves : stepAt (insertStep shape) c i ≠ c
  · exact ⟨i, mem_range.mpr hlt, hmoves⟩
  rw [not_not] at hmoves
  cases hpc : c.thread i with
  | flagNull =>
    have hthread := congrArg (fun c => c.thread i) hmoves
    simp only [stepAt_thread_self, hpc, insertStep] at hthread
    cases hthread
  | exited =>
    rw [hpc] at hi
    exact absurd rfl hi
  | slot key pc =>
    have hstep : slotStep shape true key pc c.memory.table = (pc, c.memory.table) := by
      have hthread := congrArg (fun c => c.thread i) hmoves
      have hmemory := congrArg (fun c => c.memory.table) hmoves
      simp only [stepAt_thread_self, stepAt_memory, hpc, insertStep, InsertPc.slot.injEq,
        true_and] at hthread hmemory
      exact Prod.ext hthread hmemory
    rcases slotStep_waits (h.walker i key pc hpc).2 hstep with ⟨slot, rfl⟩ | ⟨slot, hclaimed, -⟩
    · rw [hpc] at hi
      exact absurd rfl hi
    · obtain ⟨j, key', pc', hj, howns⟩ := h.owner slot hclaimed
      exact ⟨j, mem_range.mpr (h.lt_of_slot hj), stepAt_owner_ne hj howns⟩

/-- **Every fair schedule ends the insertion.** -/
theorem insert_terminates (hcap : 2 * keys.length ≤ shape.capacity) {schedule : ℕ → ℕ}
    (hfair : Fair (range keys.length) schedule) :
    ∃ t, InsertFinished keys
      (run (insertStep shape) (insertLaunch shape keys) (upTo schedule t)) :=
  terminates_of_fair_shared (fun _ => 0) _ (InsertInv.step hcap)
    (fun _ i h => (insertStep_cost h i).imp_right (.imp_right (Nat.add_lt_add_left · 0)))
    (fun _ h => insert_progress h) hfair (InsertInv.launch shape keys)

end Cuda

end OxideLake
