import OxideLake.Core.Params
import OxideLake.Foundations.BoundedQueue

/-!
# The telemetry hub

Operators register in a hub (`register_operator`), which keeps the last `MAX_OPERATORS`
registrations in a queue.  A registration has two steps: the id is drawn from an atomic counter,
and the counters are appended to the queue under its lock.  The lock does not cover the first
step, so a thread that was given the smaller id may append later, and the queue is in the order
of the appends.

`orderly_iff` says of every schedule of the two steps whether the kept registrations are in the
order of their ids at every moment: exactly if the tickets drawn are appended in the order they
were drawn in, as far as `usize` can tell them apart.
-/

namespace OxideLake

open List BoundedQueue Function

/-- `OperatorSnapshot`, which is also what a live `OperatorStats` holds. -/
@[ext] structure OperatorSnapshot where
  id : UInt64 := 0
  name : String
  backend : BackendKind
  rowsIn : UInt64 := 0
  rowsOut : UInt64 := 0
  batches : UInt64 := 0
  elapsedNs : UInt64 := 0
  bytesH2d : UInt64 := 0
  bytesD2h : UInt64 := 0
  memoryBytes : UInt64 := 0
  fallbackBatches : UInt64 := 0
  deriving DecidableEq, Repr

def maxOperators : ℕ := 4096

theorem two_le_maxOperators : 2 ≤ maxOperators := by decide

/-- The part of `TelemetryHub` that registrations use. -/
structure TelemetryHub where
  operators : List OperatorSnapshot := []
  nextOperatorId : UInt64 := 0

namespace TelemetryHub

/-- The first step of `register_operator`: the id, and counters that carry it. -/
def takeId (hub : TelemetryHub) (name : String) (backend : BackendKind) :
    OperatorSnapshot × TelemetryHub :=
  ({ id := hub.nextOperatorId, name, backend },
    { hub with nextOperatorId := hub.nextOperatorId + 1 })

/-- The second step, under the lock: a full queue drops its front. -/
def append (hub : TelemetryHub) (stats : OperatorSnapshot) : TelemetryHub :=
  { hub with operators := push maxOperators hub.operators stats }

/-- `register_operator`, undisturbed. -/
def registerOperator (hub : TelemetryHub) (name : String) (backend : BackendKind) : TelemetryHub :=
  let (stats, hub) := hub.takeId name backend
  hub.append stats

end TelemetryHub

/-! ## Threads -/

/-- A step of a thread that registers operators. -/
inductive RegisterStep (T : Type) where
  | take (thread : T) (name : String) (backend : BackendKind)
  | append (thread : T)
  deriving DecidableEq

/-- A hub and, for each thread between its two steps, the counters it is about to append. -/
structure Registering (T : Type) where
  hub : TelemetryHub := {}
  holding : T → Option OperatorSnapshot := fun _ => none

variable {T : Type} [DecidableEq T]

/-- A step; a thread takes no second id before it has appended the first. -/
def Registering.step (s : Registering T) : RegisterStep T → Registering T
  | .take thread name backend =>
    match s.holding thread with
    | some _ => s
    | none =>
      let (stats, hub) := s.hub.takeId name backend
      ⟨hub, update s.holding thread (some stats)⟩
  | .append thread =>
    match s.holding thread with
    | none => s
    | some stats => ⟨s.hub.append stats, update s.holding thread none⟩

/-- **A registration nothing comes between** is one of the hub. -/
theorem Registering.step_step {s : Registering T} {thread : T} (h : s.holding thread = none)
    (name : String) (backend : BackendKind) :
    (s.step (.take thread name backend)).step (.append thread) =
      ⟨s.hub.registerOperator name backend, s.holding⟩ := by
  simp only [step, h, update_self, update_idem, TelemetryHub.registerOperator]
  rw [← h, update_eq_self]

/-- The state after a schedule. -/
def Registering.run (schedule : List (RegisterStep T)) : Registering T :=
  schedule.foldl step {}

/-- **Ordered and bounded**: at every moment of a schedule the queue keeps at most
`MAX_OPERATORS` registrations, in the order of their ids, and what an append to a full queue
drops has a smaller id than all that stay. -/
def Orderly (schedule : List (RegisterStep T)) : Prop :=
  ∀ moment, moment <+: schedule →
    let s := Registering.run moment
    s.hub.operators.length ≤ maxOperators ∧
    (s.hub.operators.map OperatorSnapshot.id).Pairwise (· < ·) ∧
    ∀ thread stats oldest, moment ++ [.append thread] <+: schedule →
      s.holding thread = some stats → maxOperators ≤ s.hub.operators.length →
      s.hub.operators.head? = some oldest →
      ∀ kept ∈ s.hub.operators.tail ++ [stats], oldest.id < kept.id

/-! ## Tickets -/

/-- A schedule without the hub: the threads draw numbered tickets and hand them in. -/
structure Tickets (T : Type) where
  taken : ℕ := 0
  holding : T → Option ℕ := fun _ => none
  appended : List ℕ := []

/-- A step of the ticket machine. -/
def Tickets.step (s : Tickets T) : RegisterStep T → Tickets T
  | .take thread _ _ =>
    match s.holding thread with
    | some _ => s
    | none => { s with
        taken := s.taken + 1, holding := update s.holding thread (some s.taken) }
  | .append thread =>
    match s.holding thread with
    | none => s
    | some ticket => { s with
        holding := update s.holding thread none, appended := s.appended ++ [ticket] }

/-- The tickets of a schedule in the order they are handed in. -/
def Tickets.run (schedule : List (RegisterStep T)) : Tickets T := schedule.foldl step {}

/-- The hub gives out the tickets modulo `2^64` and keeps the newest. -/
structure Simulates (s : Registering T) (tickets : Tickets T) : Prop where
  taken : s.hub.nextOperatorId = UInt64.ofNat tickets.taken
  holding : ∀ thread, (s.holding thread).map OperatorSnapshot.id =
    (tickets.holding thread).map UInt64.ofNat
  kept : s.hub.operators.map OperatorSnapshot.id =
    newest maxOperators (tickets.appended.map UInt64.ofNat)

theorem push_map {α β : Type} (f : α → β) (cap : ℕ) (queue : List α) (x : α) :
    (push cap queue x).map f = push cap (queue.map f) (f x) := by
  rw [push, push, map_append, map_singleton, length_map]
  split
  · rw [map_tail]
  · rfl

theorem map_update {α β γ : Type} {f : α → γ} {g : β → γ} {held : T → Option α}
    {held' : T → Option β} (h : ∀ thread, (held thread).map f = (held' thread).map g) (thread : T)
    {x : Option α} {y : Option β} (hxy : x.map f = y.map g) (other : T) :
    (update held thread x other).map f = (update held' thread y other).map g := by
  by_cases hother : other = thread
  · rw [hother, update_self, update_self, hxy]
  · rw [update_of_ne hother, update_of_ne hother, h]

/-- **One step** keeps the simulation. -/
theorem Simulates.step {s : Registering T} {tickets : Tickets T} (h : Simulates s tickets)
    (step : RegisterStep T) : Simulates (s.step step) (tickets.step step) := by
  cases step with
  | take thread name backend =>
    have hheld := h.holding thread
    cases hs : s.holding thread with
    | some stats =>
      rw [hs] at hheld
      obtain ⟨ticket, hticket, -⟩ := Option.map_eq_some_iff.mp hheld.symm
      simpa only [Registering.step, Tickets.step, hs, hticket] using h
    | none =>
      rw [hs] at hheld
      have hticket := Option.map_eq_none_iff.mp hheld.symm
      simp only [Registering.step, Tickets.step, hs, hticket]
      refine ⟨?_, fun other => ?_, h.kept⟩
      · show s.hub.nextOperatorId + 1 = _
        rw [h.taken, UInt64.ofNat_add]
        rfl
      · have hdrawn : (some (s.hub.takeId name backend).1).map OperatorSnapshot.id =
            (some tickets.taken).map UInt64.ofNat := congrArg some h.taken
        exact map_update h.holding thread hdrawn other
  | append thread =>
    have hheld := h.holding thread
    cases hs : s.holding thread with
    | none =>
      rw [hs] at hheld
      have hticket := Option.map_eq_none_iff.mp hheld.symm
      simpa only [Registering.step, Tickets.step, hs, hticket] using h
    | some stats =>
      rw [hs] at hheld
      obtain ⟨ticket, hticket, hid⟩ := Option.map_eq_some_iff.mp hheld.symm
      simp only [Registering.step, Tickets.step, hs, hticket]
      refine ⟨h.taken, fun other => ?_, ?_⟩
      · exact map_update h.holding thread rfl other
      · show (push maxOperators s.hub.operators stats).map OperatorSnapshot.id = _
        rw [push_map, h.kept, push_newest (Nat.zero_lt_of_lt two_le_maxOperators), map_append,
          map_singleton, hid]

variable (schedule : List (RegisterStep T))

/-- **A run** keeps it. -/
theorem simulates_run :
    Simulates (Registering.run schedule) (Tickets.run schedule) := by
  have hfold : ∀ s tickets, Simulates s tickets →
      Simulates (schedule.foldl Registering.step s) (schedule.foldl Tickets.step tickets) := by
    induction schedule with
    | nil => exact fun _ _ h => h
    | cons step schedule ih => exact fun _ _ h => ih _ _ (h.step step)
  exact hfold {} {} ⟨rfl, fun _ => rfl, drop_nil.symm⟩

/-- The ids of the registrations in the order of their appends. -/
def Tickets.ids (tickets : Tickets T) : List UInt64 := tickets.appended.map UInt64.ofNat

theorem Tickets.run_concat (step : RegisterStep T) :
    run (schedule ++ [step]) = (run schedule).step step := foldl_concat ..

theorem Tickets.ids_step (tickets : Tickets T) (step : RegisterStep T) :
    (tickets.step step).ids = tickets.ids ∨ ∃ id, (tickets.step step).ids =
      tickets.ids ++ [id] := by
  cases step with
  | take thread name backend =>
    left
    unfold Tickets.step
    dsimp only
    split
    · rfl
    · rfl
  | append thread =>
    unfold Tickets.step
    dsimp only
    split
    · exact .inl rfl
    · exact .inr ⟨_, map_append⟩

theorem Tickets.ids_prefix {moment schedule : List (RegisterStep T)} (h : moment <+: schedule) :
    (run moment).ids <+: (run schedule).ids := by
  obtain ⟨rest, rfl⟩ := h
  induction rest using reverseRecOn with
  | nil => rw [append_nil]
  | append_singleton rest step ih =>
    rw [← append_assoc, run_concat]
    rcases Tickets.ids_step (run (moment ++ rest)) step with hids | ⟨id, hids⟩
    · exact ih.trans (hids ▸ prefix_refl _)
    · exact ih.trans (hids ▸ prefix_append _ _)

/-- A schedule is orderly exactly if the ids come out in order. -/
theorem orderly_iff_ids :
    Orderly schedule ↔ (Tickets.run schedule).ids.Pairwise (· < ·) := by
  have hlt : ∀ a b c : UInt64, a < b → b < c → a < c := fun _ _ _ => UInt64.lt_trans
  have hkept : ∀ moment : List (RegisterStep T),
      (Registering.run moment).hub.operators.map OperatorSnapshot.id =
        newest maxOperators (Tickets.run moment).ids := fun moment => (simulates_run moment).kept
  constructor
  · intro horderly
    induction schedule using reverseRecOn with
    | nil => exact List.Pairwise.nil
    | append_singleton schedule step ih =>
      have hbefore := ih fun moment hmoment => ?_
      · have hafter := (horderly _ (prefix_refl _)).2.1
        rw [hkept] at hafter
        rw [Tickets.run_concat] at hafter ⊢
        rcases Tickets.ids_step (Tickets.run schedule) step with hids | ⟨id, hids⟩
        · rw [hids]
          exact hbefore
        · rw [hids] at hafter ⊢
          exact pairwise_concat_of_newest hlt two_le_maxOperators hbefore hafter
      · have hwhole := hmoment.trans (prefix_append schedule [step])
        obtain ⟨hbound, hsorted, hdrops⟩ := horderly moment hwhole
        exact ⟨hbound, hsorted, fun thread stats oldest happends =>
          hdrops thread stats oldest (happends.trans (prefix_append schedule [step]))⟩
  · intro hids moment hmoment
    have hsorted : ∀ moment, moment <+: schedule →
        ((Registering.run moment).hub.operators.map OperatorSnapshot.id).Pairwise (· < ·) := by
      intro moment hmoment
      rw [hkept]
      exact hids.sublist ((newest_sublist _ _).trans (Tickets.ids_prefix hmoment).sublist)
    refine ⟨?_, hsorted moment hmoment, ?_⟩
    · have hlength := congrArg length (hkept moment)
      rw [length_map, length_newest] at hlength
      omega
    · intro thread stats oldest happends hholding hfull holdest kept hkeptMem
      -- the head is below its queue now, and the queue's last is below what is appended next
      set queue := (Registering.run moment).hub.operators with hqueue
      obtain ⟨rest, hrest⟩ : ∃ rest, queue = oldest :: rest := by
        cases hq : queue with
        | nil => rw [hq] at holdest; cases holdest
        | cons head rest =>
          rw [hq] at holdest
          cases holdest
          exact ⟨rest, rfl⟩
      have hnow := hsorted moment hmoment
      rw [← hqueue, hrest, map_cons, pairwise_cons] at hnow
      have hbelow : ∀ op ∈ rest, oldest.id < op.id :=
        fun op hop => hnow.1 op.id (mem_map_of_mem hop)
      rw [hrest, tail_cons] at hkeptMem
      rcases mem_append.mp hkeptMem with hin | hnew
      · exact hbelow kept hin
      · rw [mem_singleton.mp hnew]
        have hnext := hsorted _ happends
        have hrun : (Registering.run (moment ++ [.append thread])).hub.operators =
            rest ++ [stats] := by
          rw [Registering.run, foldl_append]
          show (Registering.step (Registering.run moment) (.append thread)).hub.operators = _
          simp only [Registering.step, hholding, TelemetryHub.append]
          rw [push, if_pos hfull, ← hqueue, hrest, tail_cons]
        rw [hrun, map_append, pairwise_append] at hnext
        obtain ⟨op, hop⟩ : ∃ op, op ∈ rest := by
          have := two_le_maxOperators
          refine exists_mem_of_length_pos ?_
          rw [hrest, length_cons] at hfull
          omega
        exact UInt64.lt_trans (hbelow op hop) (hnext.2.2 op.id (mem_map_of_mem hop) stats.id
          (mem_singleton_self _))

/-- **Registration is ordered exactly if the tickets are handed in as they were drawn**, as far
as `usize` distinguishes them. -/
theorem orderly_iff :
    Orderly schedule ↔
      (Tickets.run schedule).appended.Pairwise fun i j => i % 2 ^ 64 < j % 2 ^ 64 := by
  rw [orderly_iff_ids, Tickets.ids, pairwise_map]
  refine ⟨fun h => h.imp fun hlt => ?_, fun h => h.imp fun hlt => ?_⟩
  · exact UInt64.lt_iff_toNat_lt.mp hlt
  · exact UInt64.lt_iff_toNat_lt.mpr hlt

/-- Two threads draw their ids one after the other and append the other way round. -/
def overtaken : List (RegisterStep Bool) :=
  [.take false "GpuFilterExec" .cuda, .take true "GpuHashJoinExec" .cuda, .append true,
    .append false]

theorem overtaken_not_orderly :
    (Registering.run overtaken).hub.operators.map OperatorSnapshot.id = [1, 0] ∧
      ¬ Orderly overtaken := by
  have hkept : (Registering.run overtaken).hub.operators.map OperatorSnapshot.id = [1, 0] := by
    decide
  refine ⟨hkept, fun horderly => ?_⟩
  have hsorted := (horderly overtaken (prefix_refl _)).2.1
  rw [hkept] at hsorted
  revert hsorted
  decide

end OxideLake
