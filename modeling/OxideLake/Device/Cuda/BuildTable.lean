import OxideLake.Arrow.Types
import OxideLake.Device.Cuda.SlotTable
import OxideLake.Foundations.Interleaving

/-!
# The build table of the CUDA hash join

`oxide_hj_build` has one thread a build row.  A thread claims the first slot it finds
empty on its walk, stores its key and its row there and publishes the slot; it never
waits and never compares keys, so rows with equal keys take slots of their own.

The invariant says of every thread what it knows, and that a slot that is not empty is
held by exactly one thread.  Everything else follows: when all threads have returned,
every build row with a key is in exactly one slot, and no empty slot lies between the
home of its key and that slot (`build_finished`).
-/

namespace OxideLake

namespace Cuda

open Probing Interleaving Function Finset

variable {shape : TableShape} {keys : Int64Array} {pc : BuildPc} {table : BuildTable}

/-! ## `oxide_hj_build` -/

/-- `t_keys`, `t_rows` and `t_state`. -/
structure BuildTable where
  keys : ℕ → Int64
  rows : ℕ → ℕ
  state : ℕ → SlotState

/-- The table as allocated: every word zero. -/
def BuildTable.zeros : BuildTable := ⟨fun _ => 0, fun _ => 0, fun _ => .empty⟩

/-- What a thread does next with the slot it claimed. -/
inductive Stage where
  | storeKey
  | storeRow
  | publish
  | returned
  deriving DecidableEq

/-- The state word of a claimed slot. -/
def Stage.state : Stage → SlotState
  | .returned => .published
  | _ => .claimed

/-- Where a thread of the build kernel stands. -/
inductive BuildPc where
  /-- about to `atomicCAS` a slot -/
  | probing (key : Int64) (slot probes : ℕ)
  /-- it claimed a slot -/
  | holding (key : Int64) (slot : ℕ) (stage : Stage)
  /-- nothing to insert, or no slot found -/
  | exited
  deriving DecidableEq

/-- The slot a thread claimed. -/
def BuildPc.slot : BuildPc → Option ℕ
  | .holding _ slot _ => some slot
  | _ => none

/-- The thread has returned. -/
def BuildPc.finished : BuildPc → Bool
  | .probing _ _ _ => false
  | .holding _ _ stage => stage = .returned
  | .exited => true

/-- One atomic step of a thread of `oxide_hj_build`. -/
def buildStep (shape : TableShape) : ThreadStep ℕ BuildTable BuildPc := fun i pc table =>
  match pc with
  | .probing key slot probes =>
    if probes < shape.capacity then
      if table.state slot = .empty then
        (.holding key slot .storeKey,
          { table with state := update table.state slot .claimed })
      else (.probing key (shape.next slot) (probes + 1), table)
    else (.exited, table)
  | .holding key slot .storeKey =>
    (.holding key slot .storeRow, { table with keys := update table.keys slot key })
  | .holding key slot .storeRow =>
    (.holding key slot .publish, { table with rows := update table.rows slot i })
  | .holding key slot .publish =>
    (.holding key slot .returned,
      { table with state := update table.state slot .published })
  | .holding key slot .returned => (.holding key slot .returned, table)
  | .exited => (.exited, table)

/-- Thread `i` at launch: past the last row or on a `NULL` key it returns at once. -/
def buildThread (shape : TableShape) (keys : Int64Array) (i : ℕ) : BuildPc :=
  match keys[i]? with
  | some (some key) => .probing key (shape.hash key) 0
  | _ => .exited

/-- The launch of the build kernel. -/
def buildLaunch (shape : TableShape) (keys : Int64Array) : Config ℕ BuildTable BuildPc :=
  ⟨.zeros, buildThread shape keys⟩

/-- Every thread has returned. -/
def BuildFinished (keys : Int64Array) (c : Config ℕ BuildTable BuildPc) : Prop :=
  ∀ i < keys.length, (c.thread i).finished = true

instance (keys : Int64Array) (c : Config ℕ BuildTable BuildPc) :
    Decidable (BuildFinished keys c) :=
  inferInstanceAs (Decidable (∀ i < keys.length, (c.thread i).finished = true))

/-! ## What a thread knows -/

/-- A walk from the home of `key` stands at `slot` and has met no empty slot. -/
structure Chained (shape : TableShape) (table : BuildTable) (key : Int64) (slot probes : ℕ) :
    Prop where
  position : slot = shape.slotAt key probes
  passed : Passed (fun s => table.state s ≠ .empty) shape.capacity (shape.hash key) probes

/-- What thread `i` knows at each point. -/
def ThreadOk (shape : TableShape) (keys : Int64Array) (table : BuildTable) (i : ℕ) :
    BuildPc → Prop
  | .probing key slot probes =>
    keys[i]? = some (some key) ∧ probes ≤ shape.capacity ∧ Chained shape table key slot probes
  | .holding key slot stage =>
    keys[i]? = some (some key) ∧ (∃ probes < shape.capacity, Chained shape table key slot probes) ∧
      table.state slot = stage.state ∧ (stage ≠ .storeKey → table.keys slot = key) ∧
      (stage = .publish ∨ stage = .returned → table.rows slot = i)
  | .exited => ∀ key, keys[i]? ≠ some (some key)

/-- The table changed at `slot` only, and no slot became empty. -/
structure ChangedAt (slot : ℕ) (table table' : BuildTable) : Prop where
  keys : ∀ s, s ≠ slot → table'.keys s = table.keys s
  rows : ∀ s, s ≠ slot → table'.rows s = table.rows s
  state : ∀ s, s ≠ slot → table'.state s = table.state s
  occupied : ∀ s, table.state s ≠ .empty → table'.state s ≠ .empty

section Frame

variable {shape : TableShape} {keys : Int64Array} {table table' : BuildTable}
  {key : Int64} {slot probes : ℕ}

theorem Chained.changedAt {s : ℕ} (h : Chained shape table key slot probes)
    (hchange : ChangedAt s table table') : Chained shape table' key slot probes :=
  ⟨h.position, h.passed.mono hchange.occupied⟩

theorem ThreadOk.changedAt {i : ℕ} (h : ThreadOk shape keys table i pc)
    (hchange : ChangedAt slot table table') (hslot : pc.slot ≠ some slot) :
    ThreadOk shape keys table' i pc := by
  cases pc with
  | probing key s probes => exact ⟨h.1, h.2.1, h.2.2.changedAt hchange⟩
  | holding key s stage =>
    obtain ⟨hkey, ⟨probes, hlt, hchain⟩, hstate, hstored, hrow⟩ := h
    have hs : s ≠ slot := fun heq => hslot (congrArg some heq)
    refine ⟨hkey, ⟨probes, hlt, hchain.changedAt hchange⟩, ?_, ?_, ?_⟩
    · rw [hchange.state s hs, hstate]
    · rw [hchange.keys s hs]
      exact hstored
    · rw [hchange.rows s hs]
      exact hrow
  | exited => exact h

theorem changedAt_setState (table : BuildTable) (slot : ℕ) {value : SlotState}
    (h : value ≠ .empty) :
    ChangedAt slot table { table with state := update table.state slot value } where
  keys := fun _ _ => rfl
  rows := fun _ _ => rfl
  state := fun _ hs => update_of_ne hs _ _
  occupied := by
    intro s hs
    show update table.state slot value s ≠ .empty
    by_cases hslot : s = slot
    · rwa [hslot, update_self]
    · rwa [update_of_ne hslot]

theorem changedAt_storeKey (table : BuildTable) (slot : ℕ) (key : Int64) :
    ChangedAt slot table { table with keys := update table.keys slot key } where
  keys := fun _ hs => update_of_ne hs _ _
  rows := fun _ _ => rfl
  state := fun _ _ => rfl
  occupied := fun _ hs => hs

theorem changedAt_storeRow (table : BuildTable) (slot i : ℕ) :
    ChangedAt slot table { table with rows := update table.rows slot i } where
  keys := fun _ _ => rfl
  rows := fun _ hs => update_of_ne hs _ _
  state := fun _ _ => rfl
  occupied := fun _ hs => hs

end Frame

/-! ## What one step does -/

/-- A step leaves the table alone, or changes it at the slot the thread holds
afterwards: one it held before, or an empty one. -/
inductive BuildEffect (pc pc' : BuildPc) (table table' : BuildTable) : Prop where
  | stays (htable : table' = table) (hslot : pc'.slot = pc.slot)
  | changes (slot : ℕ) (hchange : ChangedAt slot table table') (hslot : pc'.slot = some slot)
      (hbefore : pc.slot = some slot ∨ pc.slot = none ∧ table.state slot = .empty)

/-- **One step of a thread** keeps what it knows and has one of these effects; with an
empty slot left in the table, it does not give up. -/
theorem buildStep_spec {i : ℕ} (h : ThreadOk shape keys table i pc)
    (hroom : ¬ ∀ slot < shape.capacity, table.state slot ≠ .empty) :
    ThreadOk shape keys (buildStep shape i pc table).2 i (buildStep shape i pc table).1 ∧
      BuildEffect pc (buildStep shape i pc table).1 table (buildStep shape i pc table).2 := by
  cases pc with
  | probing key slot probes =>
    obtain ⟨hkey, hle, hchain⟩ := h
    have hlt : probes < shape.capacity := by
      refine lt_of_le_of_ne hle fun heq => hroom fun s hs => ?_
      have hpassed := hchain.passed
      rw [heq] at hpassed
      exact hpassed.all (shape.hash_lt key) hs
    by_cases hempty : table.state slot = .empty
    · have hstep : buildStep shape i (.probing key slot probes) table =
          (.holding key slot .storeKey,
            { table with state := update table.state slot .claimed }) := by
        simp only [buildStep, if_pos hlt, if_pos hempty]
      have hchange := changedAt_setState table slot
        (fun h : SlotState.claimed = .empty => by cases h)
      rw [hstep]
      refine ⟨⟨hkey, ⟨probes, hlt, hchain.changedAt hchange⟩, update_self _ _ _,
        fun hne => absurd rfl hne, ?_⟩, .changes slot hchange rfl (.inr ⟨rfl, hempty⟩)⟩
      rintro (hstage | hstage) <;> cases hstage
    · have hstep : buildStep shape i (.probing key slot probes) table =
          (.probing key (shape.next slot) (probes + 1), table) := by
        simp only [buildStep, if_pos hlt, if_neg hempty]
      rw [hstep]
      refine ⟨⟨hkey, hlt, ?_, ?_⟩, .stays rfl rfl⟩
      · rw [hchain.position, shape.next_slotAt]
      · refine passed_succ.mpr ⟨hchain.passed, ?_⟩
        rw [hchain.position] at hempty
        exact hempty
  | holding key slot stage =>
    obtain ⟨hkey, ⟨probes, hlt, hchain⟩, hstate, hstored, hrow⟩ := h
    cases stage with
    | storeKey =>
      have hchange := changedAt_storeKey table slot key
      refine ⟨⟨hkey, ⟨probes, hlt, hchain.changedAt hchange⟩, hstate,
        fun _ => update_self _ _ _, ?_⟩, .changes slot hchange rfl (.inl rfl)⟩
      rintro (hstage | hstage) <;> cases hstage
    | storeRow =>
      have hchange := changedAt_storeRow table slot i
      exact ⟨⟨hkey, ⟨probes, hlt, hchain.changedAt hchange⟩, hstate,
        fun _ => hstored (by simp), fun _ => update_self _ _ _⟩,
        .changes slot hchange rfl (.inl rfl)⟩
    | publish =>
      have hchange := changedAt_setState table slot
        (fun h : SlotState.published = .empty => by cases h)
      exact ⟨⟨hkey, ⟨probes, hlt, hchain.changedAt hchange⟩, update_self _ _ _,
        fun _ => hstored (by simp), fun _ => hrow (.inl rfl)⟩,
        .changes slot hchange rfl (.inl rfl)⟩
    | returned => exact ⟨⟨hkey, ⟨probes, hlt, hchain⟩, hstate, hstored, hrow⟩, .stays rfl rfl⟩
  | exited => exact ⟨h, .stays rfl rfl⟩

/-! ## The invariant -/

/-- **The invariant of the build kernel.** -/
structure BuildInv (shape : TableShape) (keys : Int64Array)
    (c : Config ℕ BuildTable BuildPc) : Prop where
  threads : ∀ i, ThreadOk shape keys c.memory i (c.thread i)
  /-- a slot that is not empty has a holder -/
  holder : ∀ slot, c.memory.state slot ≠ .empty → ∃ i, (c.thread i).slot = some slot
  /-- and only one -/
  single : ∀ i j slot, (c.thread i).slot = some slot → (c.thread j).slot = some slot → i = j

theorem ThreadOk.of_slot {i slot : ℕ} (h : ThreadOk shape keys table i pc)
    (hslot : pc.slot = some slot) :
    ∃ key stage, pc = .holding key slot stage ∧ table.state slot = stage.state ∧
      i < keys.length := by
  cases pc with
  | probing => cases hslot
  | holding key s stage =>
    cases hslot
    exact ⟨key, stage, rfl, h.2.2.1, (List.getElem?_eq_some_iff.mp h.1).1⟩
  | exited => cases hslot

theorem Stage.state_ne_empty (stage : Stage) : stage.state ≠ .empty := by
  cases stage <;> exact fun h => by cases h

namespace BuildInv

variable {shape : TableShape} {keys : Int64Array} {c : Config ℕ BuildTable BuildPc}

theorem room (h : BuildInv shape keys c) (hcap : 2 * keys.length ≤ shape.capacity) :
    ¬ ∀ slot < shape.capacity, c.memory.state slot ≠ .empty := by
  intro hfull
  have hsubset : range shape.capacity ⊆
      (range keys.length).image fun i => ((c.thread i).slot).getD 0 := by
    intro slot hslot
    obtain ⟨i, hi⟩ := h.holder slot (hfull slot (mem_range.mp hslot))
    obtain ⟨_, _, -, -, hlt⟩ := (h.threads i).of_slot hi
    exact mem_image.mpr ⟨i, mem_range.mpr hlt, by rw [hi]; rfl⟩
  have hcard := (card_le_card hsubset).trans card_image_le
  rw [card_range, card_range] at hcard
  have hpos := shape.capacity_pos
  omega

theorem launch (shape : TableShape) (keys : Int64Array) :
    BuildInv shape keys (buildLaunch shape keys) where
  threads := by
    intro i
    show ThreadOk shape keys .zeros i (buildThread shape keys i)
    unfold buildThread
    split
    · next key hkey => exact ⟨hkey, Nat.zero_le _, (shape.slotAt_zero key).symm, passed_zero⟩
    · next hnone => exact fun key => hnone key
  holder := fun slot h => absurd rfl h
  single := by
    intro i j slot hi _
    change (buildThread shape keys i).slot = some slot at hi
    unfold buildThread at hi
    split at hi <;> cases hi

theorem not_held (h : BuildInv shape keys c) {i j slot : ℕ} (hji : j ≠ i)
    (hbefore : (c.thread i).slot = some slot ∨
      (c.thread i).slot = none ∧ c.memory.state slot = .empty) :
    (c.thread j).slot ≠ some slot := by
  intro hj
  rcases hbefore with hi | ⟨-, hempty⟩
  · exact hji (h.single j i slot hj hi)
  · obtain ⟨_, stage, -, hstate, -⟩ := (h.threads j).of_slot hj
    exact stage.state_ne_empty (hstate.symm.trans hempty)

/-- **Every step keeps the invariant.** -/
theorem step (hcap : 2 * keys.length ≤ shape.capacity) (c : Config ℕ BuildTable BuildPc) (i : ℕ)
    (h : BuildInv shape keys c) : BuildInv shape keys (stepAt (buildStep shape) c i) := by
  obtain ⟨hself, heffect⟩ := buildStep_spec (h.threads i) (h.room hcap)
  rw [← stepAt_memory, ← stepAt_thread_self] at hself heffect
  have hother : ∀ j, j ≠ i → (stepAt (buildStep shape) c i).thread j = c.thread j :=
    fun j hj => stepAt_thread_of_ne hj
  generalize stepAt (buildStep shape) c i = c' at hself heffect hother
  cases heffect with
  | stays htable hslot =>
    have hslots : ∀ j, (c'.thread j).slot = (c.thread j).slot := fun j => by
      by_cases hj : j = i
      · rw [hj, hslot]
      · rw [hother j hj]
    refine ⟨fun j => ?_, fun s hs => ?_, fun j k s hj hk => ?_⟩
    · by_cases hj : j = i
      · rw [hj]
        exact hself
      · rw [hother j hj, htable]
        exact h.threads j
    · rw [htable] at hs
      obtain ⟨j, hj⟩ := h.holder s hs
      exact ⟨j, (hslots j).trans hj⟩
    · exact h.single j k s ((hslots j).symm.trans hj) ((hslots k).symm.trans hk)
  | changes slot hchange hslot hbefore =>
    have hfree : ∀ j, j ≠ i → (c'.thread j).slot ≠ some slot := fun j hj => by
      rw [hother j hj]
      exact h.not_held hj hbefore
    refine ⟨fun j => ?_, fun s hs => ?_, fun j k s hj hk => ?_⟩
    · by_cases hj : j = i
      · rw [hj]
        exact hself
      · rw [hother j hj]
        exact (h.threads j).changedAt hchange (h.not_held hj hbefore)
    · by_cases hslot' : s = slot
      · exact ⟨i, hslot' ▸ hslot⟩
      · rw [hchange.state s hslot'] at hs
        obtain ⟨j, hj⟩ := h.holder s hs
        refine ⟨j, ?_⟩
        by_cases hji : j = i
        · -- thread `i` held no slot but the one it changes
          rw [hji] at hj
          rcases hbefore with hi | ⟨hi, -⟩
          · exact absurd (Option.some.inj (hj.symm.trans hi)) hslot'
          · rw [hi] at hj
            cases hj
        · rw [hother j hji]
          exact hj
    · by_cases hji : j = i
      · by_cases hki : k = i
        · rw [hji, hki]
        · rw [hji, hslot] at hj
          cases hj
          exact absurd hk (hfree k hki)
      · by_cases hki : k = i
        · rw [hki, hslot] at hk
          cases hk
          exact absurd hj (hfree j hji)
        · rw [hother j hji] at hj
          rw [hother k hki] at hk
          exact h.single j k s hj hk

end BuildInv

/-! ## The finished table -/

/-- The table holds every row with a key in one slot, on the walk of its key. -/
structure Built (shape : TableShape) (keys : Int64Array) (table : BuildTable) : Prop where
  /-- a slot that is not empty is published for a row -/
  row : ∀ slot, table.state slot ≠ .empty → table.state slot = .published ∧
    keys[table.rows slot]? = some (some (table.keys slot)) ∧
      ∃ probes < shape.capacity, Chained shape table (table.keys slot) slot probes
  placed : ∀ i key, keys[i]? = some (some key) → ∃ slot, table.state slot = .published ∧
    table.rows slot = i ∧ table.keys slot = key
  single : ∀ slot slot', table.state slot = .published → table.state slot' = .published →
    table.rows slot = table.rows slot' → slot = slot'

/-- **What a concurrent build leaves**, once every thread has returned. -/
theorem build_finished {c : Config ℕ BuildTable BuildPc} (h : BuildInv shape keys c)
    (hfinished : BuildFinished keys c) :
    Built shape keys c.memory := by
  have hheld : ∀ slot, c.memory.state slot ≠ .empty → ∃ i key,
      c.thread i = .holding key slot .returned := by
    intro slot hslot
    obtain ⟨i, hi⟩ := h.holder slot hslot
    obtain ⟨key, stage, hpc, -, hlt⟩ := (h.threads i).of_slot hi
    have hdone := hfinished i hlt
    rw [hpc] at hdone
    exact ⟨i, key, by rw [hpc, of_decide_eq_true hdone]⟩
  have hknows : ∀ i key slot, c.thread i = .holding key slot .returned →
      keys[i]? = some (some key) ∧
        (∃ probes < shape.capacity, Chained shape c.memory key slot probes) ∧
        c.memory.state slot = .published ∧ c.memory.keys slot = key ∧ c.memory.rows slot = i := by
    intro i key slot hpc
    have hok := h.threads i
    rw [hpc] at hok
    exact ⟨hok.1, hok.2.1, hok.2.2.1, hok.2.2.2.1 (by simp), hok.2.2.2.2 (.inr rfl)⟩
  refine ⟨fun slot hslot => ?_, fun i key hkey => ?_, fun slot slot' hslot hslot' hrows => ?_⟩
  · obtain ⟨i, key, hpc⟩ := hheld slot hslot
    obtain ⟨hkey, hchain, hstate, rfl, rfl⟩ := hknows i key slot hpc
    exact ⟨hstate, hkey, hchain⟩
  · have hlt := (List.getElem?_eq_some_iff.mp hkey).1
    have hdone := hfinished i hlt
    have hok := h.threads i
    revert hdone hok
    cases hpc : c.thread i with
    | probing => exact fun hdone => by cases hdone
    | holding key' slot stage =>
      intro hdone _
      rw [of_decide_eq_true hdone] at hpc
      obtain ⟨hkey', -, hstate, hstored, hrow⟩ := hknows i key' slot hpc
      rw [hkey] at hkey'
      cases hkey'
      exact ⟨slot, hstate, hrow, hstored⟩
    | exited => exact fun _ hok => absurd hkey (hok key)
  · have hne : ∀ {s}, c.memory.state s = .published → c.memory.state s ≠ .empty :=
      fun hs => by rw [hs]; exact fun hcontra => by cases hcontra
    obtain ⟨i, key, hpc⟩ := hheld slot (hne hslot)
    obtain ⟨i', key', hpc'⟩ := hheld slot' (hne hslot')
    obtain ⟨-, -, -, -, hrow⟩ := hknows i key slot hpc
    obtain ⟨-, -, -, -, hrow'⟩ := hknows i' key' slot' hpc'
    have hii : i = i' := by rw [← hrow, ← hrow', hrows]
    rw [hii, hpc'] at hpc
    cases hpc
    rfl

/-! ## Termination -/

/-- Steps left at most. -/
def BuildPc.cost (capacity : ℕ) : BuildPc → ℕ
  | .probing _ _ probes => capacity - probes + 5
  | .holding _ _ .storeKey => 3
  | .holding _ _ .storeRow => 2
  | .holding _ _ .publish => 1
  | _ => 0

/-- A step is paid for by its thread. -/
theorem buildStep_cost (i : ℕ) (pc : BuildPc) :
    buildStep shape i pc table = (pc, table) ∧ pc.finished = true ∨
      pc ≠ .exited ∧ (buildStep shape i pc table).1.cost shape.capacity <
        pc.cost shape.capacity := by
  cases pc with
  | probing key slot probes =>
    refine .inr ⟨by simp, ?_⟩
    by_cases hlt : probes < shape.capacity
    · by_cases hempty : table.state slot = .empty
      · simp only [buildStep, if_pos hlt, if_pos hempty, BuildPc.cost]
        omega
      · simp only [buildStep, if_pos hlt, if_neg hempty, BuildPc.cost]
        omega
    · simp only [buildStep, if_neg hlt, BuildPc.cost]
      omega
  | holding key slot stage =>
    cases stage with
    | returned => exact .inl ⟨rfl, rfl⟩
    | storeKey | storeRow | publish => exact .inr ⟨by simp, by simp [buildStep, BuildPc.cost]⟩
  | exited => exact .inl ⟨rfl, rfl⟩

/-- **The build kernel terminates** under every fair schedule: no thread ever waits. -/
theorem build_terminates (hcap : 2 * keys.length ≤ shape.capacity) {schedule : ℕ → ℕ}
    (hfair : Fair (range keys.length) schedule) :
    ∃ t, BuildFinished keys
      (run (buildStep shape) (buildLaunch shape keys) (upTo schedule t)) := by
  have hcost : ∀ c i, BuildInv shape keys c →
      stepAt (buildStep shape) c i = c ∧ (c.thread i).finished = true ∨
        i ∈ range keys.length ∧
          ((stepAt (buildStep shape) c i).thread i).cost shape.capacity <
            (c.thread i).cost shape.capacity := by
    intro c i h
    rcases buildStep_cost i (c.thread i) with ⟨hsame, hdone⟩ | ⟨hrunning, hlt⟩
    · exact .inl ⟨stepAt_eq_self hsame, hdone⟩
    · refine .inr ⟨mem_range.mpr ?_, by rwa [stepAt_thread_self]⟩
      have hok := h.threads i
      cases hpc : c.thread i with
      | probing | holding =>
        rw [hpc] at hok
        exact (List.getElem?_eq_some_iff.mp hok.1).1
      | exited => exact absurd hpc hrunning
  obtain ⟨t, ht⟩ := returns_of_fair (BuildPc.cost shape.capacity) BuildPc.finished
    (BuildInv.step hcap) hcost hfair (BuildInv.launch shape keys)
  exact ⟨t, fun i hi => ht i (mem_range.mpr hi)⟩

end Cuda

end OxideLake
