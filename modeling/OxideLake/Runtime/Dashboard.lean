import OxideLake.Telemetry.Hub
import Mathlib

/-!
# Queries on the dashboard

A session has one telemetry hub.  After a query, `collect` logs two numbers from the hub, and
`query_dashboard` shows a row for each node of the plan (`operators_for_plan`): the counters of
the recorded operators are added up by name, and every plan node gets what its name has.

`conserves_iff` says when the rows add up to what was recorded, and `perQuery_iff` says of every
sequence of queries whether each is reported by its own operators: the hub also holds the
operators of earlier queries, as far as they have not been evicted.
-/

namespace OxideLake

open List BoundedQueue Function

/-- `PlanNodeSummary`, without the depth and the text of the node. -/
structure PlanNode where
  name : String
  backend : BackendKind

namespace OperatorSnapshot

/-- One recorded operator added to the entry of its name. -/
def merge (entry op : OperatorSnapshot) : OperatorSnapshot :=
  { entry with
    rowsIn := entry.rowsIn + op.rowsIn
    rowsOut := entry.rowsOut + op.rowsOut
    batches := entry.batches + op.batches
    elapsedNs := entry.elapsedNs + op.elapsedNs
    bytesH2d := entry.bytesH2d + op.bytesH2d
    bytesD2h := entry.bytesD2h + op.bytesD2h
    memoryBytes := max entry.memoryBytes op.memoryBytes
    fallbackBatches := entry.fallbackBatches + op.fallbackBatches }

/-- The additive counters. -/
def additive : List (OperatorSnapshot → UInt64) :=
  [rowsIn, rowsOut, batches, elapsedNs, bytesH2d, bytesD2h, fallbackBatches]

end OperatorSnapshot

/-- The body of the loop over the recorded operators; the map is kept as a function. -/
def addRecorded (byName : String → Option OperatorSnapshot) (op : OperatorSnapshot) :
    String → Option OperatorSnapshot :=
  update byName op.name
    (some (((byName op.name).getD { name := op.name, backend := op.backend }).merge op))

/-- The row of plan node number `i`, from the entry of its name. -/
def PlanNode.row (node : PlanNode) (i : ℕ) (entry : Option OperatorSnapshot) : OperatorSnapshot :=
  { entry.getD { name := node.name, backend := node.backend } with
    id := .ofNat i
    backend := node.backend }

def operatorsForPlan (plan : List PlanNode) (recorded : List OperatorSnapshot) :
    List OperatorSnapshot :=
  let byName := recorded.foldl addRecorded fun _ => none
  plan.zipIdx.map fun (node, i) => node.row i (byName node.name)

/-! ## One row -/

/-- The recorded operators of a name. -/
def named (name : String) (recorded : List OperatorSnapshot) : List OperatorSnapshot :=
  recorded.filter fun op => op.name = name

/-- **A row** has the operators of its node's name merged in. -/
theorem row_foldl (node : PlanNode) (i : ℕ) (byName : String → Option OperatorSnapshot)
    (recorded : List OperatorSnapshot) :
    node.row i (recorded.foldl addRecorded byName node.name) =
      (named node.name recorded).foldl .merge (node.row i (byName node.name)) := by
  induction recorded generalizing byName with
  | nil => rfl
  | cons op recorded ih =>
    rw [foldl_cons, ih, named, named, filter_cons]
    by_cases hname : op.name = node.name
    · rw [if_pos (decide_eq_true hname), foldl_cons, addRecorded, ← hname,
        update_self]
      cases byName op.name with
      | none => rw [PlanNode.row, PlanNode.row, ← hname]; rfl
      | some entry => rfl
    · rw [if_neg (mt of_decide_eq_true hname), addRecorded,
        update_of_ne (Ne.symm hname)]

/-- What the operators of a name come to in an additive counter. -/
def summed (c : OperatorSnapshot → UInt64) (name : String) (recorded : List OperatorSnapshot) :
    UInt64 := ((named name recorded).map c).sum

/-- The most memory an operator of a name holds. -/
def mostMemory (name : String) (recorded : List OperatorSnapshot) : UInt64 :=
  ((named name recorded).map OperatorSnapshot.memoryBytes).foldl max 0

section Merging

variable {c : OperatorSnapshot → UInt64} (node : PlanNode) (i : ℕ)
  (ops ops' : List OperatorSnapshot)

theorem additive_foldl (hc : c ∈ OperatorSnapshot.additive) (entry : OperatorSnapshot) :
    c (ops.foldl .merge entry) = c entry + (ops.map c).sum := by
  induction ops generalizing entry with
  | nil => exact (UInt64.add_zero _).symm
  | cons op ops ih =>
    have hmerge : c (entry.merge op) = c entry + c op := by
      simp only [OperatorSnapshot.additive, mem_cons, not_mem_nil, or_false] at hc
      rcases hc with rfl | rfl | rfl | rfl | rfl | rfl | rfl <;> rfl
    rw [foldl_cons, ih, hmerge, map_cons, sum_cons, UInt64.add_assoc]

theorem kept_foldl (entry : OperatorSnapshot) :
    (ops.foldl .merge entry).id = entry.id ∧ (ops.foldl .merge entry).name = entry.name ∧
      (ops.foldl .merge entry).backend = entry.backend ∧
      (ops.foldl .merge entry).memoryBytes =
        (ops.map OperatorSnapshot.memoryBytes).foldl max entry.memoryBytes := by
  induction ops generalizing entry with
  | nil => exact ⟨rfl, rfl, rfl, rfl⟩
  | cons op ops ih => exact ih (entry.merge op)

/-- The row of plan node number `i`, from the recorded operators. -/
def PlanNode.shown : OperatorSnapshot := (named node.name ops).foldl .merge (node.row i none)

theorem operatorsForPlan_eq (plan : List PlanNode) :
    operatorsForPlan plan ops = plan.zipIdx.map fun x => x.1.shown x.2 ops :=
  map_congr_left fun x _ => row_foldl x.1 x.2 (fun _ => none) ops

theorem additive_shown (hc : c ∈ OperatorSnapshot.additive) :
    c (node.shown i ops) = summed c node.name ops := by
  have hnone : c (node.row i none) = 0 := by
    simp only [OperatorSnapshot.additive, mem_cons, not_mem_nil, or_false] at hc
    rcases hc with rfl | rfl | rfl | rfl | rfl | rfl | rfl <;> rfl
  rw [PlanNode.shown, additive_foldl _ hc, hnone, UInt64.zero_add, summed]

theorem shown_eq_iff : node.shown i ops = node.shown i ops' ↔
    (∀ c ∈ OperatorSnapshot.additive, summed c node.name ops = summed c node.name ops') ∧
      mostMemory node.name ops = mostMemory node.name ops' := by
  obtain ⟨hid, hname, hbackend, hmemory⟩ := kept_foldl (named node.name ops) (node.row i none)
  obtain ⟨hid', hname', hbackend', hmemory'⟩ :=
    kept_foldl (named node.name ops') (node.row i none)
  constructor
  · intro h
    refine ⟨fun c hc => ?_, ?_⟩
    · rw [← additive_shown node i ops hc, h, additive_shown node i ops' hc]
    · exact hmemory.symm.trans ((congrArg OperatorSnapshot.memoryBytes h).trans hmemory')
  · rintro ⟨hsums, hmost⟩
    have hcounters : ∀ c ∈ OperatorSnapshot.additive,
        c (node.shown i ops) = c (node.shown i ops') := by
      intro c hc
      rw [additive_shown node i ops hc, hsums c hc, additive_shown node i ops' hc]
    simp only [OperatorSnapshot.additive, forall_mem_cons] at hcounters
    obtain ⟨hin, hout, hbatches, hns, hh2d, hd2h, hfallback, -⟩ := hcounters
    exact OperatorSnapshot.ext (hid.trans hid'.symm) (hname.trans hname'.symm)
      (hbackend.trans hbackend'.symm) hin hout hbatches hns hh2d hd2h
      (hmemory.trans (hmost.trans hmemory'.symm)) hfallback

/-- What the panel shows is the sums and the maximum. -/
theorem operatorsForPlan_congr_iff (plan : List PlanNode) :
    operatorsForPlan plan ops = operatorsForPlan plan ops' ↔ ∀ node ∈ plan,
      (∀ c ∈ OperatorSnapshot.additive, summed c node.name ops = summed c node.name ops') ∧
        mostMemory node.name ops = mostMemory node.name ops' := by
  rw [operatorsForPlan_eq, operatorsForPlan_eq, map_inj_left]
  simp only [shown_eq_iff]
  constructor
  · intro h node hnode
    obtain ⟨i, hi⟩ := getElem?_of_mem hnode
    exact h (node, i) (mem_zipIdx_iff_getElem?.mpr hi)
  · exact fun h x hx => h x.1 (fst_mem_of_mem_zipIdx hx)

end Merging

/-! ## What the rows add up to -/

section Conservation

variable {c : OperatorSnapshot → UInt64} (hc : c ∈ OperatorSnapshot.additive)
  {plan : List PlanNode} {recorded : List OperatorSnapshot}

/-- The sum of a counter, as a natural number. -/
def total (c : OperatorSnapshot → UInt64) (ops : List OperatorSnapshot) : ℕ :=
  (ops.map fun op => (c op).toNat).sum

theorem toNat_sum (c : OperatorSnapshot → UInt64) (ops : List OperatorSnapshot) :
    (ops.map c).sum.toNat = total c ops % 2 ^ 64 := by
  induction ops with
  | nil => rfl
  | cons op ops ih =>
    rw [map_cons, sum_cons, UInt64.toNat_add, ih, Nat.add_mod_mod]
    rfl

include hc in
theorem total_rows : total c (operatorsForPlan plan recorded) =
    (plan.map fun node => total c (named node.name recorded) % 2 ^ 64).sum := by
  have hplan : plan = plan.zipIdx.map Prod.fst := (zipIdx_map_fst 0 plan).symm
  rw [total, operatorsForPlan_eq, map_map]
  conv_rhs => rw [hplan, map_map]
  refine congrArg sum (map_congr_left fun x _ => ?_)
  rw [comp_apply, additive_shown _ _ _ hc, summed, toNat_sum]
  rfl

theorem total_recorded (h : ∀ op ∈ recorded, op.name ∈ plan.map PlanNode.name) :
    total c recorded =
      ∑ name ∈ (plan.map PlanNode.name).toFinset, total c (named name recorded) := by
  induction recorded with
  | nil => simp [total, named]
  | cons op recorded ih =>
    have hop : op.name ∈ (plan.map PlanNode.name).toFinset :=
      mem_toFinset.mpr (h op mem_cons_self)
    have hsplit : ∀ name, total c (named name (op :: recorded)) =
        (if op.name = name then (c op).toNat else 0) + total c (named name recorded) := by
      intro name
      by_cases hname : op.name = name <;> simp [named, total, hname]
    simp only [hsplit]
    rw [Finset.sum_add_distrib, Finset.sum_ite_eq, if_pos hop,
      ← ih fun op hop => h op (mem_cons_of_mem _ hop)]
    rfl

/-- **When the dashboard conserves a counter.**  Each name's total, as `u64` has it, is shown as
often as the name stands in the plan.  Where no total overflows, the rows add up to what was
recorded exactly if no name that stands in the plan more than once has work recorded. -/
theorem conserves_iff {plan : List PlanNode} {recorded : List OperatorSnapshot}
    (h : ∀ op ∈ recorded, op.name ∈ plan.map PlanNode.name) :
    ∀ c ∈ OperatorSnapshot.additive,
      (total c (operatorsForPlan plan recorded) = total c recorded ↔
        ∑ name ∈ (plan.map PlanNode.name).toFinset, (plan.map PlanNode.name).count name *
            (total c (named name recorded) % 2 ^ 64) =
          ∑ name ∈ (plan.map PlanNode.name).toFinset, total c (named name recorded)) ∧
      ((∀ name, total c (named name recorded) < 2 ^ 64) →
        (total c (operatorsForPlan plan recorded) = total c recorded ↔
          ∀ name, 1 < (plan.map PlanNode.name).count name →
            total c (named name recorded) = 0)) := by
  intro c hc
  have hrows : total c (operatorsForPlan plan recorded) =
      ∑ name ∈ (plan.map PlanNode.name).toFinset, (plan.map PlanNode.name).count name *
        (total c (named name recorded) % 2 ^ 64) := by
    have hcount := Finset.sum_list_map_count (plan.map PlanNode.name) fun name =>
      total c (named name recorded) % 2 ^ 64
    rw [map_map] at hcount
    exact (total_rows hc).trans hcount
  rw [hrows, total_recorded h]
  refine ⟨Iff.rfl, fun hfits => ?_⟩
  simp only [Nat.mod_eq_of_lt (hfits _)]
  have hpos : ∀ name ∈ (plan.map PlanNode.name).toFinset,
      1 ≤ (plan.map PlanNode.name).count name := fun name hname =>
    count_pos_iff.mpr (mem_toFinset.mp hname)
  rw [eq_comm, Finset.sum_eq_sum_iff_of_le fun name hname =>
    Nat.le_mul_of_pos_left _ (hpos name hname)]
  constructor
  · intro hall name hmany
    have hsame := hall name (mem_toFinset.mpr (count_pos_iff.mp (Nat.zero_lt_of_lt hmany)))
    by_contra hne
    exact absurd (Nat.eq_of_mul_eq_mul_right (Nat.pos_of_ne_zero hne)
      ((Nat.one_mul _).trans hsame)) (Nat.ne_of_lt hmany)
  · intro hall name hname
    rcases Nat.lt_or_eq_of_le (hpos name hname) with hmany | hone
    · rw [hall name hmany, Nat.mul_zero]
    · rw [← hone, Nat.one_mul]

end Conservation

/-- Two filters, of one batch each. -/
def twoFilterPlan : List PlanNode := [⟨"GpuFilterExec", .cuda⟩, ⟨"GpuFilterExec", .cuda⟩]

/-- What they record. -/
def twoFilterRecords : List OperatorSnapshot :=
  [{ id := 0, name := "GpuFilterExec", backend := .cuda, batches := 1 },
    { id := 1, name := "GpuFilterExec", backend := .cuda, batches := 1 }]

theorem conserves_iff_oneFilter :
    total OperatorSnapshot.batches (operatorsForPlan [⟨"GpuFilterExec", .cuda⟩] twoFilterRecords) =
      total OperatorSnapshot.batches twoFilterRecords := by
  refine ((conserves_iff (by decide) _ (by simp [OperatorSnapshot.additive])).1).mpr ?_
  decide

theorem twoFilters_shown_twice :
    total OperatorSnapshot.batches (operatorsForPlan twoFilterPlan twoFilterRecords) ≠
      total OperatorSnapshot.batches twoFilterRecords := by
  decide

/-! ## Queries one after another -/

/-- A query of a session: its plan and the operators it registers, with what they count in the
end. -/
structure Query where
  plan : List PlanNode
  operators : List OperatorSnapshot

/-- The hub after a query. -/
def Query.run (hub : TelemetryHub) (query : Query) : TelemetryHub :=
  query.operators.foldl .append hub

/-- What is reported about a query: the two counts that `collect` logs and the rows of
`query_dashboard`. -/
structure Report where
  gpuOperators : ℕ
  fallbackBatches : UInt64
  rows : List OperatorSnapshot
  deriving DecidableEq

/-- The report on a plan, from the operators given. -/
def report (plan : List PlanNode) (operators : List OperatorSnapshot) : Report where
  gpuOperators := operators.countP fun op => op.backend.isGpu
  fallbackBatches := (operators.map OperatorSnapshot.fallbackBatches).sum
  rows := operatorsForPlan plan operators

/-- **Reports are per query**: each is the one from the query's own operators. -/
def PerQuery (queries : List Query) : Prop :=
  ∀ before query after, queries = before ++ query :: after →
    report query.plan ((before ++ [query]).foldl Query.run {}).operators =
      report query.plan query.operators

theorem foldl_run (queries : List Query) : (queries.foldl Query.run {}).operators =
    newest maxOperators (queries.flatMap Query.operators) := by
  have hflat : queries.foldl Query.run {} =
      (queries.flatMap Query.operators).foldl .append ({} : TelemetryHub) := foldl_flatMap.symm
  rw [hflat, ← foldl_push (Nat.zero_lt_of_lt two_le_maxOperators)]
  exact (foldl_hom TelemetryHub.operators fun _ _ => rfl).symm

theorem summed_append (c : OperatorSnapshot → UInt64) (name : String)
    (ops ops' : List OperatorSnapshot) :
    summed c name (ops ++ ops') = summed c name ops + summed c name ops' := by
  rw [summed, named, filter_append, map_append, sum_append]
  rfl

/-- What is kept of earlier queries counts for what is dropped of the query's own operators. -/
structure Offset (query : Query) (kept dropped : List OperatorSnapshot) : Prop where
  gpuOperators : kept.countP (·.backend.isGpu) = dropped.countP (·.backend.isGpu)
  fallbackBatches : (kept.map OperatorSnapshot.fallbackBatches).sum =
    (dropped.map OperatorSnapshot.fallbackBatches).sum
  rows : ∀ node ∈ query.plan, ∀ c ∈ OperatorSnapshot.additive,
    summed c node.name kept = summed c node.name dropped
  memory : ∀ node ∈ query.plan,
    mostMemory node.name (kept ++ newest maxOperators query.operators) =
      mostMemory node.name query.operators

/-- **When reports are per query.**  Of the registrations before, the hub still holds as many as
the query's own leave room for.  A report is the query's own exactly if these count for what the
hub has dropped of the query itself, which is nothing unless the query registers more operators
than the hub holds. -/
theorem perQuery_iff (queries : List Query) : PerQuery queries ↔
    ∀ before query after, queries = before ++ query :: after →
      Offset query
        (newest (maxOperators - query.operators.length) (before.flatMap Query.operators))
        (query.operators.take (query.operators.length - maxOperators)) := by
  refine forall₃_congr fun before query after => forall_congr' fun _ => ?_
  have hown : query.operators = query.operators.take (query.operators.length - maxOperators) ++
      newest maxOperators query.operators := (take_append_drop _ _).symm
  rw [foldl_run, flatMap_append, flatMap_singleton, newest_append]
  generalize newest (maxOperators - _) _ = kept
  generalize hdropped : query.operators.take _ = dropped at hown ⊢
  generalize hnewest : newest maxOperators query.operators = own at hown ⊢
  rw [report, report, Report.mk.injEq, operatorsForPlan_congr_iff, hown, countP_append,
    countP_append, map_append, map_append, sum_append, sum_append, Nat.add_right_cancel_iff,
    UInt64.add_left_inj]
  simp only [summed_append, UInt64.add_left_inj]
  rw [← hown]
  constructor
  · rintro ⟨hgpu, hfallback, hrows⟩
    exact ⟨hgpu, hfallback, fun node hnode => (hrows node hnode).1,
      fun node hnode => hnewest ▸ (hrows node hnode).2⟩
  · rintro ⟨hgpu, hfallback, hrows, hmemory⟩
    exact ⟨hgpu, hfallback, fun node hnode => ⟨hrows node hnode, hnewest ▸ hmemory node hnode⟩⟩

/-- A query with one filter on the device. -/
def filterQuery : Query where
  plan := [⟨"GpuFilterExec", .cuda⟩]
  operators := [{ name := "GpuFilterExec", backend := .cuda, batches := 1 }]

theorem second_query_counts_first : ¬ PerQuery [filterQuery, filterQuery] := by
  intro h
  have hreport := congrArg Report.gpuOperators (h [filterQuery] filterQuery [] rfl)
  exact absurd hreport (by decide)

end OxideLake
