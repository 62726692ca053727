import OxideLake.Compute.Conformance

/-!
# The counters of one operator

A call of a `GpuOperator` moves two counters, at different points.  `fell_back` counts a batch
that the device declines, before the CPU reference has run on it; `record` counts a batch when
its result is there.  A call whose reference fails has moved only the first.

`tallies_iff` says of every sequence of calls, on a backend that declines and fails as it likes,
whether the counters tell what happened between any two calls: the calls that failed after the
device had declined must be none, or fewer than those the device ran.
-/

namespace OxideLake

open List OperatorState

variable {D : Type} {order : MapOrder}

def OperatorStats.fellBackEntirely (stats : OperatorStats) : Bool :=
  0 < stats.batches && stats.batches ≤ stats.fallbackBatches

/-- A call of one of the four operations of `GpuOperator`. -/
inductive OperatorCall (order : MapOrder) where
  | filterProject (batch : RecordBatch) (predicate : Predicate) (projection : List Nat)
  | hashJoin (left : RecordBatch) (build : JoinBuild order) (leftKey : Nat)
      (projection : Option (List Nat))
  | aggregate (batch : RecordBatch) (spec : AggregateSpec)
  | vectorDistance (batch : RecordBatch) (column : Nat) (query : List F32)
      (metric : DistanceMetric) (outputName : String)

/-- How a call ends: with the device's result, with that of the reference, with an error of the
reference, or with an error before that. -/
inductive Ending where
  | device
  | reference
  | failed
  | refused
  deriving DecidableEq

/-- The ending of a call whose device attempt and reference come out as given. -/
def ending : Result DeviceOutcome → Result RecordBatch → Ending
  | .error _, _ => .refused
  | .ok (.ran _), _ => .device
  | .ok (.declined _), .ok _ => .reference
  | .ok (.declined _), .error _ => .failed

namespace OperatorCall

/-- The operator after a call. -/
def run (fpu : FloatUnit) (state : OperatorState D) (backend : GpuBackend D) :
    OperatorCall order → OperatorState D
  | filterProject batch predicate projection =>
    (state.filterProject backend batch predicate projection).2
  | hashJoin left build leftKey projection =>
    (state.hashJoin backend left build leftKey projection).2
  | aggregate batch spec => (state.aggregate fpu backend batch spec).2
  | vectorDistance batch column query metric outputName =>
    (state.vectorDistance fpu backend batch column query metric outputName).2

/-- What the device attempt of a call comes to. -/
def attempt (state : OperatorState D) (backend : GpuBackend D) :
    OperatorCall order → Result DeviceOutcome
  | filterProject batch predicate projection =>
    match backend.noDevicePath (backend.supportsPredicate predicate) "this predicate" with
    | some why => .ok (.declined why)
    | none => backend.filterProjectOnDevice batch predicate projection
  | hashJoin left build leftKey projection =>
    (state.joinOutcome backend left build leftKey projection).1
  | aggregate batch spec =>
    match backend.noDevicePath backend.supportsAggregate "aggregation" with
    | some why => .ok (.declined why)
    | none => backend.aggregateOnDevice batch spec
  | vectorDistance batch column query metric outputName =>
    match backend.noDevicePath true "vector distance" with
    | some why => .ok (.declined why)
    | none => backend.vectorDistanceOnDevice batch column query metric outputName

/-- What the CPU reference makes of a call. -/
def reference (fpu : FloatUnit) : OperatorCall order → Result RecordBatch
  | filterProject batch predicate projection => Kernels.filterProject batch predicate projection
  | hashJoin left build leftKey projection =>
    Kernels.hashJoinProbe left leftKey build.batch build.table projection
  | aggregate batch spec => Kernels.aggregate fpu batch spec
  | vectorDistance batch column query metric outputName =>
    Kernels.vectorDistance fpu batch column query metric outputName

/-- The operator after a sequence of calls, each with the backend as it answers then. -/
def runAll (fpu : FloatUnit) : OperatorState D → List (GpuBackend D × OperatorCall order) →
    OperatorState D
  | state, [] => state
  | state, (backend, call) :: rest => runAll fpu (call.run fpu state backend) rest

/-- How the calls of a sequence end. -/
def endings (fpu : FloatUnit) : OperatorState D → List (GpuBackend D × OperatorCall order) →
    List Ending
  | _, [] => []
  | state, (backend, call) :: rest =>
    ending (call.attempt state backend) (call.reference fpu) ::
      endings fpu (call.run fpu state backend) rest

end OperatorCall

/-- **The counters tell what happened**: no more fallbacks than batches, and `fell_back_entirely`
exactly if a batch was processed and the device processed none. -/
def Tallies (stats : OperatorStats) (endings : List Ending) : Prop :=
  stats.fallbackBatches ≤ stats.batches ∧
    (stats.fellBackEntirely = true ↔
      (.device ∈ endings ∨ .reference ∈ endings) ∧ .device ∉ endings)

/-! ## What the counters hold -/

/-- `stats` are `before`, moved by calls that ended as given. -/
structure Counted (before : OperatorStats) (endings : List Ending) (stats : OperatorStats) :
    Prop where
  batches : stats.batches =
    before.batches + .ofNat (endings.count .device + endings.count .reference)
  fallbackBatches : stats.fallbackBatches =
    before.fallbackBatches + .ofNat (endings.count .reference + endings.count .failed)

theorem finish_counted (state : OperatorState D) (rowsIn : ℕ)
    (attempt : Result DeviceOutcome) (reference : Result RecordBatch) :
    Counted state.stats [ending attempt reference]
      (state.finish rowsIn attempt fun _ => reference).2.stats := by
  unfold finish
  split
  · exact ⟨(UInt64.add_zero _).symm, (UInt64.add_zero _).symm⟩
  · exact ⟨rfl, (UInt64.add_zero _).symm⟩
  · cases reference with
    | error e => exact ⟨(UInt64.add_zero _).symm, rfl⟩
    | ok out => exact ⟨rfl, rfl⟩

/-- The device attempt of a join touches no counter. -/
theorem joinOutcome_stats (state : OperatorState D) (backend : GpuBackend D) (left : RecordBatch)
    (build : JoinBuild order) (leftKey : ℕ) (projection : Option (List ℕ)) :
    (state.joinOutcome backend left build leftKey projection).2.stats = state.stats := by
  have hbuild : ∀ plan, (state.deviceBuildFor backend build plan).2.stats = state.stats := by
    intro plan
    unfold deviceBuildFor
    split
    · rfl
    · split <;> rfl
  unfold joinOutcome hashJoinOnDevice
  split
  · rfl
  · split
    · rfl
    · split
      · rfl
      · exact hbuild _

namespace OperatorCall

variable (fpu : FloatUnit) (state : OperatorState D)

/-- **Step lemma.**  One call moves the counters as its ending says. -/
theorem run_counted (backend : GpuBackend D) (call : OperatorCall order) :
    Counted state.stats [ending (call.attempt state backend) (call.reference fpu)]
      (call.run fpu state backend).stats := by
  cases call with
  | filterProject batch predicate projection => exact finish_counted state batch.numRows _ _
  | hashJoin left build leftKey projection =>
    rw [← joinOutcome_stats state backend left build leftKey projection]
    exact finish_counted _ left.numRows _ _
  | aggregate batch spec => exact finish_counted state batch.numRows _ _
  | vectorDistance batch column query metric outputName =>
    exact finish_counted state batch.numRows _ _

/-- **Run lemma.**  A sequence of calls moves the counters as its endings say. -/
theorem runAll_counted (calls : List (GpuBackend D × OperatorCall order)) :
    Counted state.stats (endings fpu state calls) (runAll fpu state calls).stats := by
  induction calls generalizing state with
  | nil => exact ⟨(UInt64.add_zero _).symm, (UInt64.add_zero _).symm⟩
  | cons call calls ih =>
    have hstep := run_counted fpu state call.1 call.2
    have hrest := ih (call.2.run fpu state call.1)
    rw [endings, runAll, ← singleton_append]
    constructor
    · rw [hrest.batches, hstep.batches, UInt64.add_assoc, ← UInt64.ofNat_add, count_append,
        count_append, Nat.add_add_add_comm]
    · rw [hrest.fallbackBatches, hstep.fallbackBatches, UInt64.add_assoc, ← UInt64.ofNat_add,
        count_append, count_append, Nat.add_add_add_comm]

theorem count_endings_le (calls : List (GpuBackend D × OperatorCall order)) :
    (endings fpu state calls).count .device + (endings fpu state calls).count .reference +
      (endings fpu state calls).count .failed ≤ calls.length := by
  induction calls generalizing state with
  | nil => exact Nat.le_refl 0
  | cons call calls ih =>
    have hrest := ih (call.2.run fpu state call.1)
    rw [endings]
    cases ending (call.2.attempt state call.1) (call.2.reference fpu) <;> simp <;> omega

end OperatorCall

/-! ## Between two calls -/

/-- `Tallies` in numbers: the two counters are residues, as `u64` has them. -/
def InStep (endings : List Ending) : Prop :=
  let batches := (endings.count .device + endings.count .reference) % 2 ^ 64
  let fallbacks := (endings.count .reference + endings.count .failed) % 2 ^ 64
  fallbacks ≤ batches ∧ ((0 < batches ∧ batches ≤ fallbacks) ↔
    0 < endings.count .reference ∧ endings.count .device = 0)

theorem tallies_iff_inStep {stats : OperatorStats} {es : List Ending} (h : Counted {} es stats) :
    Tallies stats es ↔ InStep es := by
  have hcounter : ∀ n, ((0 : UInt64) + .ofNat n).toNat = n % 2 ^ 64 := fun n =>
    (congrArg UInt64.toNat (UInt64.zero_add _)).trans UInt64.toNat_ofNat'
  rw [Tallies, InStep, OperatorStats.fellBackEntirely, Bool.and_eq_true, decide_eq_true_iff,
    decide_eq_true_iff, UInt64.le_iff_toNat_le, UInt64.lt_iff_toNat_lt, UInt64.le_iff_toNat_le,
    h.batches, h.fallbackBatches, hcounter, hcounter, ← count_pos_iff, ← count_pos_iff]
  refine and_congr_right fun _ => iff_congr Iff.rfl ⟨?_, ?_⟩
  · rintro ⟨hany, hnone⟩
    exact ⟨hany.resolve_left hnone, Nat.eq_zero_of_not_pos hnone⟩
  · rintro ⟨hsome, hnone⟩
    exact ⟨.inr hsome, Nat.not_lt_of_le (Nat.le_of_eq hnone)⟩

/-- **When the counters of an operator tell what happened.**  Over fewer than `2^64` calls they do,
between any two of them, exactly if the calls whose reference failed after the device had declined
are none, or fewer than those the device ran.  Past that the counters wrap. -/
theorem tallies_iff (fpu : FloatUnit) (calls : List (GpuBackend D × OperatorCall order)) :
    ((∀ done, done <+: calls → Tallies (OperatorCall.runAll fpu {} done).stats
        (OperatorCall.endings fpu {} done)) ↔
      ∀ done, done <+: calls → InStep (OperatorCall.endings fpu {} done)) ∧
    (calls.length < 2 ^ 64 →
      ((∀ done, done <+: calls → InStep (OperatorCall.endings fpu {} done)) ↔
        ∀ done, done <+: calls →
          (OperatorCall.endings fpu {} done).count .failed = 0 ∨
            (OperatorCall.endings fpu {} done).count .failed <
              (OperatorCall.endings fpu {} done).count .device)) := by
  constructor
  · exact forall₂_congr fun done _ => tallies_iff_inStep (OperatorCall.runAll_counted fpu {} done)
  · intro hcalls
    refine forall₂_congr fun done hdone => ?_
    have hcount := OperatorCall.count_endings_le fpu {} done
    have hshort := hdone.length_le
    rw [InStep, Nat.mod_eq_of_lt (by omega), Nat.mod_eq_of_lt (by omega)]
    omega

/-- On a machine without a device, the projection asks for a column the batch does not have. -/
def outsideCall : GpuBackend RecordBatch × OperatorCall .insertion :=
  ({ referenceBackend noFloats .insertion with kind := .cpuSimd },
    .filterProject mixedBatch (.compare 0 .gt (.int64 1)) [2])

theorem failed_call_counted :
    ¬ ∀ done, done <+: [outsideCall] → Tallies (OperatorCall.runAll noFloats {} done).stats
      (OperatorCall.endings noFloats {} done) := by
  intro h
  exact absurd (h _ prefix_rfl).1 (by decide)

end OxideLake
