import OxideLake.Foundations.Interleaving
import OxideLake.Planner.BatchBoundaries

/-!
# The shared build side of a partitioned join

Every probe partition of a `GpuHashJoinExec` is a task of its own, started and polled in any
order.  The tasks share one build side.  The first one to start puts a future into the slot
of `BuildOnce`, every later one clones it, and whichever task is polled drives it: the future
collects the build child and hashes what it got, once.

The build child hands every batch out once, to whoever asks.  A second collection would see
what the first left over, so that there is none is what makes every partition join with
the whole build side.
-/

namespace OxideLake

open Interleaving OperatorState Finset

variable {D : Type} {order : MapOrder}

/-! ## The tasks and what they share -/

/-- The future in the slot: not polled yet, at work with what it has collected so far, or
resolved. -/
inductive SharedBuild (order : MapOrder) where
  | lazy
  | collecting (batches : List RecordBatch)
  | ready (result : Result (JoinBuild order))

/-- What the tasks of one exec instance share: the slot of `BuildOnce` and the build child.
`child` is what the build child has yet to hand out, `collections` how often `collect` was
called on it. -/
structure BuildOnce (order : MapOrder) where
  slot : Option (SharedBuild order)
  child : List RecordBatch
  collections : Nat

/-- `BuildOnce::get_or_init`. -/
def BuildOnce.getOrInit (once : BuildOnce order) : BuildOnce order :=
  { once with slot := some (once.slot.getD .lazy) }

/-- What the future does with the collected batches. -/
def GpuHashJoinExec.hashBuild (order : MapOrder) (exec : GpuHashJoinExec) (right : Schema)
    (batches : List RecordBatch) : Result (JoinBuild order) := do
  let all ← concatBatches right batches
  JoinBuild.new order all exec.rightKey

/-- One poll of the future: it starts to collect, takes the next batch, or hashes. -/
def BuildOnce.poll (exec : GpuHashJoinExec) (right : Schema) (once : BuildOnce order) :
    BuildOnce order :=
  match once.slot with
  | some .lazy =>
    { once with slot := some (.collecting []), collections := once.collections + 1 }
  | some (.collecting batches) =>
    match once.child with
    | batch :: rest =>
      { once with slot := some (.collecting (batches ++ [batch])), child := rest }
    | [] => { once with slot := some (.ready (exec.hashBuild order right batches)) }
  | _ => once

/-- The task of one probe partition, with the calls it has yet to make. -/
inductive ProbeTask (D : Type) (order : MapOrder) where
  | idle (calls : Calls D)
  | waiting (calls : Calls D)
  | probing (build : JoinBuild order) (state : OperatorState D)
      (calls : Calls D) (outs : List RecordBatch)
  | finished (outs : List RecordBatch)
  | failed (error : EngineError)

/-- The task has ended, well or not. -/
def ProbeTask.returned : ProbeTask D order → Bool
  | .finished _ => true
  | .failed _ => true
  | _ => false

namespace GpuHashJoinExec

/-- The operator's call on one probe batch. -/
def probeStep (exec : GpuHashJoinExec) (build : JoinBuild order) : OperatorStep D :=
  fun state backend batch => state.hashJoin backend batch build exec.leftKey exec.projection

/-- `GpuHashJoinExec::execute` of one partition, one step at a time: it gets the shared
future, awaits it, and then maps its probe batches. -/
def taskStep {ι : Type} (exec : GpuHashJoinExec) (right : Schema) :
    ThreadStep ι (BuildOnce order) (ProbeTask D order)
  | _, .idle calls, once => (.waiting calls, once.getOrInit)
  | _, .waiting calls, once =>
    match once.slot with
    | some (.ready (.ok build)) => (.probing build {} calls [], once)
    | some (.ready (.error e)) => (.failed e, once)
    | _ => (.waiting calls, once.poll exec right)
  | _, .probing _ _ [] outs, once => (.finished outs, once)
  | _, .probing build state ((backend, batch) :: calls) outs, once =>
    match exec.probeStep build state backend batch with
    | (.error e, _) => (.failed e, once)
    | (.ok out, state) => (.probing build state calls (outs ++ [out]), once)
  | _, task, once => (task, once)

/-- A fresh exec: nothing in the slot, no task started. -/
def start (order : MapOrder) {n : Nat} (arrivals : List RecordBatch) (probe : Fin n → Calls D) :
    Config (Fin n) (BuildOnce order) (ProbeTask D order) where
  memory := ⟨none, arrivals, 0⟩
  thread := fun p => .idle (probe p)

theorem execute_eq (order : MapOrder) (exec : GpuHashJoinExec) (right : Schema)
    (buildSide : List RecordBatch) (calls : Calls D) :
    exec.execute order right buildSide calls =
      exec.hashBuild order right buildSide >>= fun build =>
        streamRun (exec.probeStep build) {} calls := by
  rw [execute, hashBuild, bind_assoc]
  rfl

end GpuHashJoinExec

/-! ## One collection, of everything -/

section Invariant

variable {exec : GpuHashJoinExec} {right : Schema} {arrivals : List RecordBatch}
  {once : BuildOnce order}

/-- The build child was collected once or not yet, nothing of it was lost, and a resolved
future holds the build of all of it. -/
def BuildOnce.Accounts (exec : GpuHashJoinExec) (right : Schema) (arrivals : List RecordBatch)
    (once : BuildOnce order) : Prop :=
  match once.slot with
  | some (.collecting batches) => batches ++ once.child = arrivals ∧ once.collections = 1
  | some (.ready result) =>
    result = exec.hashBuild order right arrivals ∧ once.collections = 1
  | _ => once.child = arrivals ∧ once.collections = 0

theorem BuildOnce.Accounts.collections_le (h : once.Accounts exec right arrivals) :
    once.collections ≤ 1 := by
  unfold BuildOnce.Accounts at h
  split at h
  · exact h.2.le
  · exact h.2.le
  · exact h.2 ▸ Nat.zero_le 1

theorem BuildOnce.Accounts.getOrInit (h : once.Accounts exec right arrivals) :
    once.getOrInit.Accounts exec right arrivals := by
  obtain ⟨slot, child, collections⟩ := once
  cases slot with
  | none | some future => exact h

theorem BuildOnce.Accounts.poll (h : once.Accounts exec right arrivals) :
    (once.poll exec right).Accounts exec right arrivals := by
  obtain ⟨slot, child, collections⟩ := once
  rcases slot with _ | _ | batches | result
  · exact h
  · exact ⟨h.1, congrArg (· + 1) h.2⟩
  · obtain ⟨hall, hcollections⟩ := h
    cases child with
    | nil => exact ⟨by rw [← hall, List.append_nil], hcollections⟩
    | cons batch rest => exact ⟨by rw [← hall, List.append_assoc]; rfl, hcollections⟩
  · exact h

/-- What no task takes back: a future in the slot stays, and so does its result. -/
structure BuildOnce.Extends (once once' : BuildOnce order) : Prop where
  filled : once.slot.isSome → once'.slot.isSome
  ready : ∀ result, once.slot = some (.ready result) → once'.slot = some (.ready result)

theorem BuildOnce.extends_refl (once : BuildOnce order) : once.Extends once := ⟨id, fun _ => id⟩

theorem BuildOnce.extends_getOrInit (once : BuildOnce order) : once.Extends once.getOrInit where
  filled := fun _ => rfl
  ready := fun result h => by rw [getOrInit, h]; rfl

theorem BuildOnce.extends_poll (once : BuildOnce order) :
    once.Extends (once.poll exec right) := by
  obtain ⟨slot, child, collections⟩ := once
  rcases slot with _ | _ | batches | result
  · exact extends_refl _
  · exact ⟨fun _ => rfl, nofun⟩
  · cases child with
    | nil | cons batch rest => exact ⟨fun _ => rfl, nofun⟩
  · exact extends_refl _

variable {n : Nat} {probe : Fin n → Calls D}

/-- **What a task has done is part of `execute` on the whole build side**, whatever the others
did: it has its calls still before it, or has made some of them against the whole build, or
has ended as `execute` ends. -/
def ProbeTask.Refines (exec : GpuHashJoinExec) (right : Schema) (arrivals : List RecordBatch)
    (probe : Fin n → Calls D) (once : BuildOnce order) (p : Fin n) :
    ProbeTask D order → Prop
  | .idle calls => calls = probe p
  | .waiting calls => calls = probe p ∧ once.slot.isSome
  | .probing build state calls outs =>
    once.slot = some (.ready (.ok build)) ∧
    streamRun (exec.probeStep build) {} (probe p) =
      (streamRun (exec.probeStep build) state calls).map (outs ++ ·)
  | .finished outs => (∃ result, once.slot = some (.ready result)) ∧
      exec.execute order right arrivals (probe p) = .ok outs
  | .failed e => (∃ result, once.slot = some (.ready result)) ∧
      exec.execute order right arrivals (probe p) = .error e

theorem ProbeTask.Refines.extends {once' : BuildOnce order} (hextends : once.Extends once')
    {p : Fin n} {task : ProbeTask D order} (h : task.Refines exec right arrivals probe once p) :
    task.Refines exec right arrivals probe once' p := by
  cases task with
  | idle calls => exact h
  | waiting calls => exact ⟨h.1, hextends.filled h.2⟩
  | probing build state calls outs => exact ⟨hextends.ready _ h.1, h.2⟩
  | finished outs | failed e => exact ⟨h.1.imp hextends.ready, h.2⟩

namespace GpuHashJoinExec

/-- **Step lemma.**  One step of a task keeps the account of the build side and takes
nothing back, and the task goes on along `execute`. -/
theorem taskStep_refines {p : Fin n} {task : ProbeTask D order}
    (honce : once.Accounts exec right arrivals)
    (htask : task.Refines exec right arrivals probe once p) :
    let next := exec.taskStep right p task once
    next.2.Accounts exec right arrivals ∧ once.Extends next.2 ∧
      next.1.Refines exec right arrivals probe next.2 p := by
  have hrefl := once.extends_refl
  cases task with
  | idle calls => exact ⟨honce.getOrInit, once.extends_getOrInit, htask, rfl⟩
  | waiting calls =>
    obtain ⟨rfl, hsome⟩ := htask
    simp only [taskStep]
    split
    · next build hslot =>
      refine ⟨honce, hrefl, hslot, ?_⟩
      cases streamRun (exec.probeStep build) {} (probe p) <;> rfl
    · next e hslot =>
      refine ⟨honce, hrefl, ⟨_, hslot⟩, ?_⟩
      rw [BuildOnce.Accounts, hslot] at honce
      rw [execute_eq, ← honce.1]
      rfl
    · exact ⟨honce.poll, once.extends_poll, rfl, once.extends_poll.filled hsome⟩
  | probing build state calls outs =>
    obtain ⟨hslot, hrun⟩ := htask
    have hexecute : exec.execute order right arrivals (probe p) =
        (streamRun (exec.probeStep build) state calls).map (outs ++ ·) := by
      rw [BuildOnce.Accounts, hslot] at honce
      rw [execute_eq, ← honce.1, ← hrun]
      rfl
    cases calls with
    | nil =>
      refine ⟨honce, hrefl, ⟨_, hslot⟩, ?_⟩
      rw [hexecute, streamRun, Except.map, List.append_nil]
    | cons call calls =>
      obtain ⟨backend, batch⟩ := call
      simp only [taskStep]
      rw [streamRun] at hexecute hrun
      split
      · next e state' hcall =>
        refine ⟨honce, hrefl, ⟨_, hslot⟩, ?_⟩
        rw [hexecute, hcall]
        rfl
      · next out state' hcall =>
        refine ⟨honce, hrefl, hslot, ?_⟩
        rw [hrun, hcall]
        show (streamRun (exec.probeStep build) state' calls >>= fun rest =>
          Except.ok (out :: rest)).map (outs ++ ·) = _
        cases streamRun (exec.probeStep build) state' calls with
        | error e => rfl
        | ok rest => exact congrArg Except.ok (List.append_cons outs out rest)
  | finished outs | failed e => exact ⟨honce, hrefl, htask⟩

/-- The invariant of a run: the build side is accounted for, and every task is on its way
along `execute`. -/
structure Refines (exec : GpuHashJoinExec) (right : Schema) (arrivals : List RecordBatch)
    (probe : Fin n → Calls D)
    (c : Config (Fin n) (BuildOnce order) (ProbeTask D order)) : Prop where
  once : c.memory.Accounts exec right arrivals
  tasks : ∀ p, (c.thread p).Refines exec right arrivals probe c.memory p

/-- **One step** of one partition. -/
theorem Refines.stepAt (c : Config (Fin n) (BuildOnce order) (ProbeTask D order)) (p : Fin n)
    (h : Refines exec right arrivals probe c) :
    Refines exec right arrivals probe (stepAt (exec.taskStep right) c p) := by
  obtain ⟨honce, hextends, htask⟩ := taskStep_refines h.once (h.tasks p)
  refine ⟨honce, stepAt_relies ?_ (fun _ _ => .extends hextends) h.tasks⟩
  rw [stepAt_thread_self]
  exact htask

theorem refines_start (order : MapOrder) (exec : GpuHashJoinExec) (right : Schema)
    (arrivals : List RecordBatch) (probe : Fin n → Calls D) :
    Refines exec right arrivals probe (start order arrivals probe) where
  once := ⟨rfl, rfl⟩
  tasks := fun _ => rfl

/-- **Run lemma.**  Every schedule of the tasks keeps the invariant. -/
theorem refines_run (order : MapOrder) (exec : GpuHashJoinExec) (right : Schema)
    (arrivals : List RecordBatch) (probe : Fin n → Calls D)
    (schedule : List (Fin n)) : Refines exec right arrivals probe
      (run (exec.taskStep right) (start order arrivals probe) schedule) :=
  run_invariant Refines.stepAt (refines_start order exec right arrivals probe) schedule

variable {c : Config (Fin n) (BuildOnce order) (ProbeTask D order)}

/-- Once a task returned the build side was collected once. -/
theorem Refines.collections_eq (h : Refines exec right arrivals probe c) {p : Fin n}
    (hreturned : (c.thread p).returned = true) : c.memory.collections = 1 := by
  have htask := h.tasks p
  have hready : ∃ result, c.memory.slot = some (.ready result) := by
    cases hthread : c.thread p with
    | finished outs | failed e => exact (hthread ▸ htask).1
    | idle calls | waiting calls | probing build state calls outs =>
      rw [hthread] at hreturned
      cases hreturned
  obtain ⟨result, hslot⟩ := hready
  have honce := h.once
  rw [BuildOnce.Accounts, hslot] at honce
  exact honce.2

end GpuHashJoinExec

end Invariant

/-! ## Every task ends -/

/-- What the future has still to do. -/
def BuildOnce.cost (once : BuildOnce order) : Nat :=
  match once.slot with
  | some (.ready _) => 0
  | some (.collecting _) => once.child.length + 1
  | _ => once.child.length + 2

/-- What a task has still to do, besides driving the future. -/
def ProbeTask.cost : ProbeTask D order → Nat
  | .idle calls => calls.length + 3
  | .waiting calls => calls.length + 2
  | .probing _ _ calls _ => calls.length + 1
  | .finished _ => 0
  | .failed _ => 0

theorem BuildOnce.getOrInit_cost (once : BuildOnce order) : once.getOrInit.cost = once.cost := by
  obtain ⟨slot, child, collections⟩ := once
  cases slot with
  | none | some future => rfl

theorem BuildOnce.poll_cost (exec : GpuHashJoinExec) (right : Schema) {once : BuildOnce order}
    (hsome : once.slot.isSome) (hready : ∀ result, once.slot ≠ some (.ready result)) :
    (once.poll exec right).cost < once.cost := by
  obtain ⟨slot, child, collections⟩ := once
  rcases slot with _ | _ | batches | result
  · cases hsome
  · exact Nat.lt_succ_self _
  · cases child with
    | nil => exact Nat.zero_lt_one
    | cons batch rest => exact Nat.lt_succ_self _
  · exact absurd rfl (hready result)

namespace GpuHashJoinExec

variable {exec : GpuHashJoinExec} {right : Schema} {arrivals : List RecordBatch} {n : Nat}
  {probe : Fin n → Calls D}

/-- A task that has not returned makes progress. -/
theorem taskStep_cost {once : BuildOnce order} {p : Fin n} {task : ProbeTask D order}
    (htask : task.Refines exec right arrivals probe once p) :
    let next := exec.taskStep right p task once
    next = (task, once) ∧ task.returned = true ∨
      next.2.cost + next.1.cost < once.cost + task.cost := by
  cases task with
  | idle calls =>
    refine .inr ?_
    show once.getOrInit.cost + (calls.length + 2) < once.cost + (calls.length + 3)
    rw [BuildOnce.getOrInit_cost]
    omega
  | waiting calls =>
    refine .inr ?_
    simp only [taskStep]
    split
    · simp only [ProbeTask.cost]
      omega
    · simp only [ProbeTask.cost]
      omega
    · next hok herror =>
      refine Nat.add_lt_add_right (BuildOnce.poll_cost exec right htask.2 fun result => ?_) _
      cases result with
      | ok build => exact hok build
      | error e => exact herror e
  | probing build state calls outs =>
    refine .inr ?_
    cases calls with
    | nil => exact Nat.lt_succ_self _
    | cons call calls =>
      simp only [taskStep]
      split
      · simp only [ProbeTask.cost, List.length_cons]
        omega
      · simp only [ProbeTask.cost, List.length_cons]
        omega
  | finished outs | failed e => exact .inl ⟨rfl, rfl⟩

/-- **Every fair schedule lets every partition end**, with what `execute` on the whole build
side returns. -/
theorem tasks_return (order : MapOrder) (exec : GpuHashJoinExec) (right : Schema)
    (arrivals : List RecordBatch) (probe : Fin n → Calls D)
    {schedule : ℕ → Fin n} (hfair : Fair univ schedule) :
    ∃ t, ∀ p, ((run (exec.taskStep right) (start order arrivals probe)
      (upTo schedule t)).thread p).returned = true := by
  suffices h : ∃ t, ∀ p ∈ univ, ((run (exec.taskStep right) (start order arrivals probe)
      (upTo schedule t)).thread p).returned = true from
    h.imp fun t ht p => ht p (mem_univ p)
  refine returns_of_fair_shared BuildOnce.cost ProbeTask.cost ProbeTask.returned
    Refines.stepAt (fun c p h => ?_) hfair (refines_start order exec right arrivals probe)
  rcases taskStep_cost (h.tasks p) with ⟨hsame, hreturned⟩ | hlt
  · exact .inl ⟨stepAt_eq_self hsame, hreturned⟩
  · refine .inr ⟨mem_univ p, ?_⟩
    rw [stepAt_memory, stepAt_thread_self]
    exact hlt

end GpuHashJoinExec

/-! ## The union of the partitions is the join -/

theorem ProbeJoin.perm {leftKey rightKey : Nat} {selected : List Nat} {probe build out : List Row}
    (h : ProbeJoin leftKey rightKey selected probe build out) :
    out.Perm (innerJoin leftKey rightKey selected probe build) := by
  obtain ⟨groups, hgroups, rfl⟩ := h
  rw [innerJoin, EquiJoin.joinRows]
  induction hgroups with
  | nil => exact .refl _
  | cons hgroup _ ih => exact hgroup.append ih

namespace GpuHashJoinExec

variable {exec : GpuHashJoinExec} {left right : Schema} {contents : D → RecordBatch}
  {buildSide : List RecordBatch} {calls : Calls D}

/-- **A partition within the limits succeeds**, on every backend that declines or joins. -/
theorem execute_succeeds (order : MapOrder) (hbuilt : exec.Built left right)
    (hside : ∀ batch ∈ buildSide, batch.schema.fields = right.fields)
    (hcalls : JoiningInput contents left calls) (hfew : (streamRows buildSide).length < 2 ^ 32)
    (hnumbered : exec.Numbered left right (streamRows buildSide) (calls.map Prod.snd)) :
    ∃ outs, exec.execute order right buildSide calls = .ok outs := by
  obtain ⟨all, hall, hschema, hrows, hkeys⟩ := hbuilt.collected hside (by omega)
  have hlength : (exec.buildKeys (streamRows buildSide)).length < 2 ^ 32 := by
    rwa [buildKeys, List.length_map]
  obtain ⟨table, htable⟩ := JoinTable.ofKeys_succeeds order hlength
  obtain ⟨build, hbuild⟩ := JoinBuild.new_of_table ((hkeys order).trans htable)
  obtain ⟨rfl, hkey⟩ := JoinBuild.new_eq_ok hbuild
  obtain ⟨outs, houts⟩ : ∃ outs, streamRun (exec.probeStep build) {} calls = .ok outs := by
    refine streamRun_succeeds
      (OperatorState.RunCached contents build left.fields exec.leftKey exec.projection)
      (fun call hmem state hcached => ?_) (fun _ _ _ _ _ hheld => by cases hheld)
    obtain ⟨joins, hleft⟩ := hcalls call hmem
    obtain ⟨hshort, hfits⟩ := hnumbered call.2 (List.mem_map_of_mem hmem)
    rw [← hrows] at hfits
    rw [← hleft] at hcached ⊢
    refine ⟨hashJoin_runCached joins hcached, ?_⟩
    rcases hbuilt.probe hkey (congrArg Schema.fields hschema) hleft hfits with
      ⟨ref, href, -⟩ | ⟨hlong, -⟩
    · exact (hashJoin_sameJoin joins hcached href).imp fun _ => And.left
    · exact absurd hshort (Nat.not_le.mpr hlong.lt_numRows)
  refine ⟨outs, ?_⟩
  rw [execute_eq, hashBuild, hall, Partial.ok_bind, hbuild, Partial.ok_bind, houts]

variable {n : Nat} {probe : Fin n → Calls D}
  {partitions : List (List RecordBatch)} {arrivals : List RecordBatch}
  {probeRows buildRows : List Row}

theorem joined_perm (exec : GpuHashJoinExec) (left right : Schema)
    {probe probe' build build' : List Row} (hprobe : probe.Perm probe')
    (hbuild : build.Perm build') :
    (exec.joined left right probe build).Perm (exec.joined left right probe' build') :=
  EquiJoin.joinRows_perm _ _ _ hprobe hbuild

/-- **The partitions together emit the join**: each emits the join of its rows with the whole
build side, and a join distributes over its probe side. -/
theorem joined_of_partitions (order : MapOrder) (hbuilt : exec.Built left right)
    (hprobe : ∀ p, JoiningInput contents left (probe p))
    (hprobeRows : ((List.finRange n).flatMap fun p => streamRows ((probe p).map Prod.snd)).Perm
      probeRows)
    (hbuildRows : (streamRows arrivals).Perm buildRows) {outs : Fin n → List RecordBatch}
    (houts : ∀ p, exec.execute order right arrivals (probe p) = .ok (outs p)) :
    ((List.finRange n).flatMap fun p => streamRows (outs p)).Perm
      (exec.joined left right probeRows buildRows) := by
  have hpart : ∀ p ∈ List.finRange n, (streamRows (outs p)).Perm
      (exec.joined left right (streamRows ((probe p).map Prod.snd)) (streamRows arrivals)) :=
    fun p _ => (execute_rows hbuilt.fits.1 (hprobe p) (houts p)).perm
  have hdistributes : exec.joined left right ((List.finRange n).flatMap fun p =>
      streamRows ((probe p).map Prod.snd)) (streamRows arrivals) =
      (List.finRange n).flatMap fun p =>
        exec.joined left right (streamRows ((probe p).map Prod.snd)) (streamRows arrivals) :=
    EquiJoin.joinRows_flatMap ..
  refine (List.Perm.flatMap_left _ hpart).trans ?_
  rw [← hdistributes]
  exact exec.joined_perm left right hprobeRows hbuildRows

/-- **The partitioned join sees the whole build side, once.**  `probe` spreads the probe rows
over any number of partitions and batches, `partitions` the build rows; the batches of the
build child arrive in any order.  Whatever the schedule of the probe partitions, the build
child is collected at most once, and once when a partition ends; the partitions, when they
are through, have together emitted the join of all probe rows with all build rows.  With
fewer than `2 ^ 32` build rows, in probe batches of at most `2 ^ 32` rows, every fair
schedule gets all of them through. -/
theorem partitions_join (order : MapOrder) (hbuilt : exec.Built left right)
    (hprobe : ∀ p, JoiningInput contents left (probe p))
    (hside : ∀ batch ∈ arrivals, batch.schema.fields = right.fields)
    (harrivals : arrivals.Perm partitions.flatten)
    (hprobeRows : ((List.finRange n).flatMap fun p => streamRows ((probe p).map Prod.snd)).Perm
      probeRows)
    (hbuildRows : (streamRows partitions.flatten).Perm buildRows) :
    (∀ schedule p,
      let c := run (exec.taskStep right) (start order arrivals probe) schedule
      c.memory.collections ≤ 1 ∧ ((c.thread p).returned = true → c.memory.collections = 1)) ∧
    (∀ schedule (outs : Fin n → List RecordBatch),
      (∀ p, (run (exec.taskStep right) (start order arrivals probe) schedule).thread p =
        .finished (outs p)) →
      ((List.finRange n).flatMap fun p => streamRows (outs p)).Perm
        (exec.joined left right probeRows buildRows)) ∧
    (buildRows.length < 2 ^ 32 →
      (∀ p, exec.Numbered left right buildRows ((probe p).map Prod.snd)) →
      ∀ schedule, Fair univ schedule → ∃ t, ∃ outs : Fin n → List RecordBatch, ∀ p,
        (run (exec.taskStep right) (start order arrivals probe) (upTo schedule t)).thread p =
          .finished (outs p)) := by
  have hrows : (streamRows arrivals).Perm buildRows :=
    (harrivals.flatMap_right _).trans hbuildRows
  have hruns := refines_run order exec right arrivals probe
  refine ⟨fun schedule p => ⟨(hruns schedule).once.collections_le, (hruns schedule).collections_eq⟩,
    fun schedule outs houts => ?_, fun hfew hnumbered schedule hfair => ?_⟩
  · refine joined_of_partitions order hbuilt hprobe hprobeRows hrows fun p => ?_
    have htask := (hruns schedule).tasks p
    rw [houts p] at htask
    exact htask.2
  · obtain ⟨t, ht⟩ := tasks_return order exec right arrivals probe hfair
    have hfinished : ∀ p, ∃ outs, (run (exec.taskStep right) (start order arrivals probe)
        (upTo schedule t)).thread p = .finished outs := by
      intro p
      obtain ⟨outs, houts⟩ := execute_succeeds order hbuilt hside (hprobe p)
        (hrows.length_eq ▸ hfew) fun batch hbatch => ⟨(hnumbered p batch hbatch).1, by
          rw [(exec.joined_perm left right (.refl _) hrows).length_eq]
          exact (hnumbered p batch hbatch).2⟩
      have htask := (hruns (upTo schedule t)).tasks p
      have hreturned := ht p
      cases hthread : (run (exec.taskStep right) (start order arrivals probe)
          (upTo schedule t)).thread p with
      | finished outs' => exact ⟨outs', rfl⟩
      | failed e =>
        rw [hthread] at htask
        rw [htask.2] at houts
        cases houts
      | idle calls | waiting calls | probing build state calls outs' =>
        rw [hthread] at hreturned
        cases hreturned
    exact ⟨t, Classical.skolem.mp hfinished⟩

end GpuHashJoinExec

/-! ## Equal keys -/

/-- Two probe partitions of one row, the first on a device. -/
def twoProbes : Fin 2 → Calls RecordBatch
  | 0 => [(nestedLoopBackend, equalKeys 1 oneRow_lt)]
  | 1 => [({ nestedLoopBackend with kind := .cpuSimd }, equalKeys 1 oneRow_lt)]

/-- The partitions take turns. -/
def roundRobin (t : ℕ) : Fin 2 := Fin.ofNat 2 t

theorem roundRobin_fair : Fair univ roundRobin := by
  intro i _ t
  refine ⟨2 * t + i.val, by omega, Fin.ext ?_⟩
  show (2 * t + i.val) % 2 = i.val
  omega

theorem twoProbes_joining (p : Fin 2) : JoiningInput id keySchema (twoProbes p) := by
  have hjoins := nestedLoopBackend_joins
  intro call hcall
  match p with
  | 0 =>
    cases List.mem_singleton.mp hcall
    exact ⟨hjoins, rfl⟩
  | 1 =>
    cases List.mem_singleton.mp hcall
    exact ⟨⟨hjoins.upload, hjoins.hashJoin, hjoins.download, hjoins.synchronize⟩, rfl⟩

/-- The theorem at two probe and two build partitions of one row each. -/
theorem partitions_join_roundRobin :
    ∃ t, ∃ outs : Fin 2 → List RecordBatch,
      (∀ p, (run (keyJoin.taskStep keySchema) (GpuHashJoinExec.start .insertion
        [equalKeys 1 (by decide), equalKeys 1 (by decide)] twoProbes)
          (upTo roundRobin t)).thread p = .finished (outs p)) ∧
      ((List.finRange 2).flatMap fun p => streamRows (outs p)).Perm
        (List.replicate 4 [some (.int64 0), some (.int64 0)]) := by
  have hsame := equalKeys_sameTable (show 1 + 1 < 2 ^ 63 by decide)
  have hrows : (streamRows ([[equalKeys 1 (by decide)], [equalKeys 1 (by decide)]] :
      List (List RecordBatch)).flatten).Perm (List.replicate 2 [some (.int64 0)]) :=
    .of_eq (hsame.rows.symm.trans (streamRows_equalKeys ..))
  have hnumbered : ∀ p, keyJoin.Numbered keySchema keySchema (List.replicate 2 [some (.int64 0)])
      ((twoProbes p).map Prod.snd) := by
    have hone := equalKeys_numbered (show 1 ≤ 2 ^ 32 by decide) (show 2 < 2 ^ 63 by decide)
      (by decide)
    rw [streamRows_equalKeys] at hone
    intro p
    match p with
    | 0 => exact hone
    | 1 => exact hone
  obtain ⟨-, hunion, hends⟩ := GpuHashJoinExec.partitions_join .insertion keyJoin_built
    twoProbes_joining (fun batch hbatch => congrArg Schema.fields (hsame.right batch hbatch))
    (.refl _) hrows hrows
  obtain ⟨t, outs, houts⟩ := hends (by decide) hnumbered roundRobin roundRobin_fair
  refine ⟨t, outs, houts, (hunion _ outs houts).trans (.of_eq ?_)⟩
  exact joined_equalKeys 2 2

/-- A partition that never gets through: one probe batch of `2 ^ 32 + 1` rows, all of which
match. -/
theorem partition_exceeds :
    (∀ (schedule : List (Fin 1)) outs, (run (keyJoin.taskStep keySchema)
      (GpuHashJoinExec.start .insertion [equalKeys 1 (by decide)]
        fun _ => [(cpuBackend, equalKeys (2 ^ 32 + 1) (by decide))]) schedule).thread 0 ≠
          .finished outs) ∧
      keyJoin.joined keySchema keySchema (streamRows [equalKeys (2 ^ 32 + 1) (by decide)])
          (streamRows [equalKeys 1 (by decide)]) =
        List.replicate (2 ^ 32 + 1) [some (.int64 0), some (.int64 0)] := by
  refine ⟨fun schedule outs hfinished => ?_, ?_⟩
  · have htask := (GpuHashJoinExec.refines_run .insertion keyJoin keySchema
      [equalKeys 1 (by decide)] (fun _ => [(cpuBackend, equalKeys (2 ^ 32 + 1) (by decide))])
      schedule).tasks 0
    rw [hfinished] at htask
    have hnone := keyJoin_exceeds
    rw [List.map_singleton, htask.2] at hnone
    cases hnone
  · rw [streamRows_equalKeys, streamRows_equalKeys, joined_equalKeys, Nat.mul_one]

end OxideLake
