import OxideLake.Planner.Codec
import OxideLake.Planner.CpuPath

/-!
# Nodes from the wire do not go wrong

`build` turns a decoded node into a `Gpu*Exec` through the same constructors the planner
calls.  What the constructors check is enough for everything the CPU path does later:
every column index is in range, every column has the type a kernel asks for, every batch
that is emitted has the declared schema.  A filter and a distance cannot fail, an
aggregation fails on an overflow of `SUM`.

A join counts in `u32`.  Sides that are too long are reported, with one exception: when the
counter of one build key wraps, the build panics.
-/

namespace OxideLake

open List Codec Partial JoinTable

variable {D : Type}

variable {child : Plan}

/-- What the children of a node hand it: the batches of one partition — of every partition
for an aggregation — and every batch of the build side of a join. -/
structure NodeInput where
  batches : List RecordBatch
  buildSide : List RecordBatch := []

namespace Plan

/-- `execute` of a `Gpu*Exec`. -/
def executeGpu (fpu : FloatUnit) (order : MapOrder) (backend : GpuBackend D) (input : NodeInput) :
    Plan → Option (Result (List RecordBatch))
  | .unary (.gpuFilterExec exec) _ =>
    some (exec.execute (input.batches.map fun batch => (backend, batch)))
  | .unary (.gpuVectorDistanceExec exec) _ =>
    some (exec.execute fpu (input.batches.map fun batch => (backend, batch)))
  | .unary (.gpuAggregateExec exec) child =>
    some ((exec.execute fpu child.schema backend input.batches).map fun out => [out])
  | .binary (.gpuHashJoinExec exec) _ right =>
    some (exec.execute order right.schema input.buildSide
      (input.batches.map fun batch => (backend, batch)))
  | _ => none

/-- The nullability of an aggregation is as DataFusion plans it. -/
def NullabilityPlanned : Plan → Prop
  | .unary (.gpuAggregateExec exec) child => exec.NullabilityPlanned child.schema
  | _ => True

end Plan

namespace NodeInput

variable (input : NodeInput)

/-- Every batch has the schema of the child it comes from. -/
def Conforms : Plan → Prop
  | .unary _ child => ∀ batch ∈ input.batches, batch.schema = child.schema
  | .binary _ left right => (∀ batch ∈ input.batches, batch.schema = left.schema) ∧
      ∀ batch ∈ input.buildSide, batch.schema = right.schema
  | .foreign _ _ => True

/-- Arrow has room for what a node puts into one batch: its collected input, and the joined
rows of one probe batch. -/
def FitsArrow : Plan → Prop
  | .unary (.gpuAggregateExec _) _ => (streamRows input.batches).length < 2 ^ 63
  | .binary (.gpuHashJoinExec exec) left right => (streamRows input.buildSide).length < 2 ^ 63 ∧
      ∀ batch ∈ input.batches, (exec.joined left.schema right.schema batch.rows
        (streamRows input.buildSide)).length < 2 ^ 63
  | _ => True

/-- A join with a build side or a probe batch beyond `u32` rows. -/
def Oversized : Plan → Prop
  | .binary (.gpuHashJoinExec _) _ _ => 2 ^ 32 ≤ (streamRows input.buildSide).length ∨
      ∃ batch ∈ input.batches, 2 ^ 32 < batch.numRows
  | _ => False

/-- A join whose build side wraps the counter of a key. -/
def WrapsCounter : Plan → Prop
  | .binary (.gpuHashJoinExec exec) _ _ =>
    JoinTable.CountersWrap (exec.buildKeys (streamRows input.buildSide))
  | _ => False

/-- A result that did not go wrong: batches of the declared schema, an overflow of `SUM`, or
the report of an oversized input. -/
def Sound (plan : Plan) : Result (List RecordBatch) → Prop
  | .ok outs => ∀ out ∈ outs, out.schema = plan.schema
  | .error e => e = Kernels.sumOverflow ∨
      input.Oversized plan ∧ (e = buildExceeds ∨ e = Kernels.rowsExceed)

end NodeInput

theorem Codec.build_rebuilds {inputs : List Plan} {node : GpuNode} {plan : Plan}
    (h : build inputs node = .ok plan) : Rebuilds plan := by
  cases node with
  | filter target predicate projection =>
    obtain ⟨input, -, h⟩ := bind_eq_ok_iff.mp h
    obtain ⟨exec, hexec, h⟩ := bind_eq_ok_iff.mp h
    cases h
    exact rebuilds_filter hexec
  | hashJoin target leftKey rightKey projection =>
    obtain ⟨left, -, h⟩ := bind_eq_ok_iff.mp h
    obtain ⟨right, -, h⟩ := bind_eq_ok_iff.mp h
    obtain ⟨fresh, hfresh, h⟩ := bind_eq_ok_iff.mp h
    obtain ⟨exec, hexec, h⟩ := bind_eq_ok_iff.mp h
    cases h
    exact rebuilds_hashJoin hfresh hexec
  | aggregate target spec output =>
    obtain ⟨input, -, h⟩ := bind_eq_ok_iff.mp h
    obtain ⟨fresh, hfresh, h⟩ := bind_eq_ok_iff.mp h
    split at h
    · cases h
    · obtain ⟨exec, hexec, h⟩ := bind_eq_ok_iff.mp h
      cases h
      exact rebuilds_aggregate hfresh hexec
  | vectorDistance target column query metric outputName =>
    obtain ⟨input, -, h⟩ := bind_eq_ok_iff.mp h
    obtain ⟨exec, hexec, h⟩ := bind_eq_ok_iff.mp h
    cases h
    exact rebuilds_vectorDistance hexec

section Node

variable (fpu : FloatUnit) {backend : GpuBackend D} (hcpu : backend.kind.isGpu = false)
  {input : NodeInput}

include hcpu

/-- A filter node. -/
theorem filter_sound {exec : GpuFilterExec} (h : Rebuilds (.unary (.gpuFilterExec exec) child))
    (hconforms : input.Conforms (.unary (.gpuFilterExec exec) child)) :
    input.Sound (.unary (.gpuFilterExec exec) child)
      (exec.execute (input.batches.map fun batch => (backend, batch))) := by
  obtain ⟨outs, houts, hschema, -⟩ := GpuFilterExec.execute_cpu_spec h (cpuCalls_map hcpu _)
    (forall_mem_map.mpr hconforms)
  rw [houts]
  exact hschema

/-- A distance node. -/
theorem vectorDistance_sound {exec : GpuVectorDistanceExec}
    (h : Rebuilds (.unary (.gpuVectorDistanceExec exec) child))
    (hconforms : input.Conforms (.unary (.gpuVectorDistanceExec exec) child)) :
    input.Sound (.unary (.gpuVectorDistanceExec exec) child)
      (exec.execute fpu (input.batches.map fun batch => (backend, batch))) := by
  obtain ⟨outs, houts, hschema, -⟩ := GpuVectorDistanceExec.execute_cpu_spec fpu h
    (cpuCalls_map hcpu _) (forall_mem_map.mpr hconforms)
  rw [houts]
  exact hschema

/-- An aggregate node. -/
theorem aggregate_sound {exec : GpuAggregateExec}
    (h : Rebuilds (.unary (.gpuAggregateExec exec) child))
    (hconforms : input.Conforms (.unary (.gpuAggregateExec exec) child))
    (hnull : Plan.NullabilityPlanned (.unary (.gpuAggregateExec exec) child))
    (hfits : input.FitsArrow (.unary (.gpuAggregateExec exec) child)) :
    input.Sound (.unary (.gpuAggregateExec exec) child)
      ((exec.execute fpu child.schema backend input.batches).map fun out => [out]) := by
  rcases GpuAggregateExec.execute_cpu_spec fpu h hnull hcpu hconforms hfits with
    ⟨out, hout, hschema⟩ | herror
  · rw [hout]
    exact fun out' hout' => mem_singleton.mp hout' ▸ hschema
  · rw [herror]
    exact .inl rfl

/-- **A join does not go wrong** unless the counter of a build key wraps; then it can
panic. -/
theorem hashJoin_sound_iff {exec : GpuHashJoinExec} {left right : Plan}
    (h : Rebuilds (.binary (.gpuHashJoinExec exec) left right))
    (hconforms : input.Conforms (.binary (.gpuHashJoinExec exec) left right))
    (hfits : input.FitsArrow (.binary (.gpuHashJoinExec exec) left right)) :
    (∀ order, input.Sound (.binary (.gpuHashJoinExec exec) left right)
      (exec.execute order right.schema input.buildSide
        (input.batches.map fun batch => (backend, batch)))) ↔
      ¬ input.WrapsCounter (.binary (.gpuHashJoinExec exec) left right) := by
  have hcalls := cpuCalls_map hcpu input.batches
  constructor
  · intro hsound hwraps
    obtain ⟨order, hpanic⟩ := ofKeys_panics_iff.mpr hwraps
    have hresult := hsound order
    rw [GpuHashJoinExec.execute_cpu_of_error h hconforms.2 hfits.1 hpanic hcalls] at hresult
    rcases hresult with hsum | ⟨-, hbuild | hrows⟩
    · cases hsum
    · cases hbuild
    · cases hrows
  · intro hwraps order
    have hlong : ∀ {e}, ofKeys order (exec.buildKeys (streamRows input.buildSide)) =
        .error e → 2 ^ 32 ≤ (streamRows input.buildSide).length := by
      intro e herror
      by_contra hshort
      obtain ⟨table, htable⟩ := ofKeys_succeeds order
        (show (exec.buildKeys (streamRows input.buildSide)).length < 2 ^ 32 by
          rw [GpuHashJoinExec.buildKeys, length_map]
          omega)
      rw [herror] at htable
      cases htable
    rcases ofKeys_cases order hwraps with ⟨table, htable⟩ | herror | herror
    · rcases GpuHashJoinExec.execute_cpu_of_table h hconforms.2 hfits.1 htable hcalls
        (forall_mem_map.mpr hconforms.1) (forall_mem_map.mpr hfits.2) with
        ⟨outs, houts, hschema, -⟩ | ⟨⟨call, hcall, hrows⟩, herror⟩
      · rw [houts]
        exact hschema
      · obtain ⟨batch, hbatch, rfl⟩ := mem_map.mp hcall
        rw [herror]
        exact .inr ⟨.inr ⟨batch, hbatch, hrows.lt_numRows⟩, .inr rfl⟩
    · rw [GpuHashJoinExec.execute_cpu_of_error h hconforms.2 hfits.1 herror hcalls]
      exact .inr ⟨.inl (hlong herror), .inl rfl⟩
    · rw [GpuHashJoinExec.execute_cpu_of_error h hconforms.2 hfits.1 herror hcalls]
      exact .inr ⟨.inl (hlong herror), .inr rfl⟩

end Node

/-- **Nodes from the wire do not go wrong**, exactly unless the counter of a build key wraps.
For every node `build` accepts and every input of its children's schemas, `execute` on the
CPU path returns batches of the declared schema, an overflow of `SUM` or the report of an
oversized join, whatever the order of the hash map. -/
theorem Codec.build_sound_iff (fpu : FloatUnit) {inputs : List Plan} {node : GpuNode}
    {plan : Plan} (hbuild : build inputs node = .ok plan) {backend : GpuBackend D}
    (hcpu : backend.kind.isGpu = false) {input : NodeInput} (hconforms : input.Conforms plan)
    (hnull : plan.NullabilityPlanned) (hfits : input.FitsArrow plan) :
    (∀ order, ∃ result, plan.executeGpu fpu order backend input = some result ∧
      input.Sound plan result) ↔ ¬ input.WrapsCounter plan := by
  have hrebuilds := build_rebuilds hbuild
  unfold Rebuilds at hrebuilds
  split at hrebuilds
  · exact ⟨fun _ => id, fun _ order => ⟨_, rfl, filter_sound hcpu hrebuilds hconforms⟩⟩
  · refine (forall_congr' fun order => ?_).trans (hashJoin_sound_iff hcpu hrebuilds hconforms hfits)
    exact ⟨fun ⟨_, hresult, hsound⟩ => Option.some.inj hresult ▸ hsound, fun hsound =>
      ⟨_, rfl, hsound⟩⟩
  · exact ⟨fun _ => id, fun _ order =>
      ⟨_, rfl, aggregate_sound fpu hcpu hrebuilds hconforms hnull hfits⟩⟩
  · exact ⟨fun _ => id, fun _ order =>
      ⟨_, rfl, vectorDistance_sound fpu hcpu hrebuilds hconforms⟩⟩
  · exact hrebuilds.elim

/-! ## A join of keys -/

/-- A table of one `Int64` column. -/
def keyScan : Plan := .foreign ⟨"DataSourceExec", keySchema, fun _ => 1⟩ []

theorem build_keyJoin : build [keyScan, keyScan] (.hashJoin .cuda 0 0 none) =
    .ok (.binary (.gpuHashJoinExec keyJoin) keyScan keyScan) := rfl

theorem equalKeys_conform {n m : Nat} (hn : n < 2 ^ 63) (hm : m < 2 ^ 63) (op : BinaryExec) :
    (⟨[equalKeys n hn], [equalKeys m hm]⟩ : NodeInput).Conforms (.binary op keyScan keyScan) :=
  ⟨fun batch hbatch => by rw [mem_singleton.mp hbatch]; rfl,
    fun batch hbatch => by rw [mem_singleton.mp hbatch]; rfl⟩

/-- The keys `3`, `NULL`, `9` and `3` as the build side and in both probe batches: each probe
batch meets five rows. -/
theorem build_sound_iff_fewKeys :
    let input : NodeInput := ⟨[fewKeys, fewKeys], [fewKeys]⟩
    let join := Plan.binary (.gpuHashJoinExec keyJoin) keyScan keyScan
    ∃ result, join.executeGpu noFloats .insertion cpuBackend input = some result ∧
      input.Sound join result ∧
      result.map (map RecordBatch.numRows) = .ok [5, 5] := by
  intro input join
  have hconforms : input.Conforms join := by
    refine ⟨fun batch hbatch => ?_, fun batch hbatch => ?_⟩ <;>
      obtain rfl : batch = fewKeys := by simpa [input] using hbatch
    · rfl
    · rfl
  have hfits : input.FitsArrow join := by
    refine ⟨by decide, fun batch hbatch => ?_⟩
    obtain rfl : batch = fewKeys := by simpa [input] using hbatch
    decide
  have hcounts : ¬ input.WrapsCounter join :=
    not_countersWrap fun key => count_le_length.trans_lt (by decide)
  obtain ⟨result, hresult, hsound⟩ := (Codec.build_sound_iff noFloats build_keyJoin
    (rfl : cpuBackend.kind.isGpu = false) hconforms trivial hfits).mpr hcounts .insertion
  refine ⟨result, hresult, hsound, ?_⟩
  cases hresult
  rfl

/-- A build side of `2 ^ 32` equal keys panics: the counter of the key is back at zero, the
flat array is empty, and the first row is written past its end. -/
theorem build_panics :
    build [keyScan, keyScan] (.hashJoin .cuda 0 0 none) =
        .ok (.binary (.gpuHashJoinExec keyJoin) keyScan keyScan) ∧
      NodeInput.Conforms ⟨[equalKeys 1 (by decide)], [equalKeys (2 ^ 32) (by decide)]⟩
        (.binary (.gpuHashJoinExec keyJoin) keyScan keyScan) ∧
      NodeInput.FitsArrow ⟨[equalKeys 1 (by decide)], [equalKeys (2 ^ 32) (by decide)]⟩
        (.binary (.gpuHashJoinExec keyJoin) keyScan keyScan) ∧
      ∃ order, (Plan.binary (.gpuHashJoinExec keyJoin) keyScan keyScan).executeGpu noFloats order
        cpuBackend ⟨[equalKeys 1 (by decide)], [equalKeys (2 ^ 32) (by decide)]⟩ =
          some (.error (.panicked "index out of bounds")) := by
  have hconforms : NodeInput.Conforms ⟨[equalKeys 1 (by decide)], [equalKeys (2 ^ 32) (by decide)]⟩
      (.binary (.gpuHashJoinExec keyJoin) keyScan keyScan) := equalKeys_conform _ _ _
  have hrows : (streamRows [equalKeys (2 ^ 32) (by decide)]).length < 2 ^ 63 := by
    rw [streamRows_equalKeys, length_replicate]
    decide
  refine ⟨build_keyJoin, hconforms, ⟨hrows, ?_⟩, ?_⟩
  · intro batch hbatch
    rw [mem_singleton.mp hbatch, streamRows_equalKeys, equalKeys_rows]
    exact joined_equalKeys_length (by decide)
  · obtain ⟨order, hpanic⟩ := ofKeys_panics_iff.mpr
      (countersWrap_replicate rfl 0)
    rw [← buildKeys_equalKeys (by decide)] at hpanic
    exact ⟨order, congrArg some (GpuHashJoinExec.execute_cpu_of_error keyJoin_built hconforms.2
      hrows hpanic (cpuCalls_map rfl _))⟩

end OxideLake
