import OxideLake.Planner.CpuPath

/-!
# Batch boundaries

A table reaches a node as a stream of batches, and how its rows are cut into batches is
nobody's choice.  On the CPU path the cut does not show: a filter and a join map every row
on its own, the build side of a join and the input of an aggregation are concatenated first.

There is one limit.  The probe loop of a join numbers the rows of a batch in `u32`, so a
probe batch of more than `2 ^ 32` rows can fail where a finer cut succeeds.
-/

namespace OxideLake

open List JoinTable

variable {D : Type}

/-- Two cuts of the rows of one table into batches. -/
structure SameTable (schema : Schema) (cut cut' : List RecordBatch) : Prop where
  left : ∀ batch ∈ cut, batch.schema = schema
  right : ∀ batch ∈ cut', batch.schema = schema
  rows : streamRows cut = streamRows cut'

/-- The rows of a result, `none` for a failure. -/
def rowsOf (result : Result (List RecordBatch)) : Option (List Row) :=
  result.toOption.map streamRows

variable {backend : GpuBackend D} {cut cut' : List RecordBatch}

theorem GpuFilterExec.rowsOf_execute {exec : GpuFilterExec} {input : Schema}
    (hbuilt : tryNew input exec.predicate exec.projection exec.target = .ok exec)
    (hcpu : backend.kind.isGpu = false) (hcut : ∀ batch ∈ cut, batch.schema = input) :
    rowsOf (exec.execute (cut.map fun batch => (backend, batch))) =
      some (((streamRows cut).filter fun row => exec.predicate.truth row = some true).map
        (Row.select · exec.projection)) := by
  obtain ⟨outs, houts, -, hrows⟩ := execute_cpu_spec hbuilt (cpuCalls_map hcpu cut)
    (forall_mem_map.mpr hcut)
  rw [map_snd_calls] at hrows
  rw [houts, ← hrows]
  rfl

section Join

variable {order : MapOrder} {exec : GpuHashJoinExec} {left right : Schema}
  {buildSide : List RecordBatch}

theorem GpuHashJoinExec.rowsOf_execute (hbuilt : exec.Built left right)
    (hcpu : backend.kind.isGpu = false)
    (hside : ∀ batch ∈ buildSide, batch.schema = right)
    (hbuildRows : (streamRows buildSide).length < 2 ^ 63)
    (hcut : ∀ batch ∈ cut, batch.schema = left)
    (hrows : ∀ batch ∈ cut, batch.numRows ≤ 2 ^ 32)
    (hfew : ∀ batch ∈ cut,
      (exec.joined left right batch.rows (streamRows buildSide)).length < 2 ^ 63) :
    rowsOf (exec.execute order right buildSide (cut.map fun batch => (backend, batch))) =
      (ofKeys order (exec.buildKeys (streamRows buildSide))).toOption.map fun _ =>
        exec.joined left right (streamRows cut) (streamRows buildSide) := by
  have hcalls := cpuCalls_map hcpu cut
  cases htable : ofKeys order (exec.buildKeys (streamRows buildSide)) with
  | error e =>
    rw [execute_cpu_of_error hbuilt hside hbuildRows htable hcalls]
    rfl
  | ok table =>
    rcases execute_cpu_of_table hbuilt hside hbuildRows htable hcalls
      (forall_mem_map.mpr hcut) (forall_mem_map.mpr hfew) with
      ⟨outs, houts, -, hjoined⟩ | ⟨⟨call, hcall, hlong⟩, -⟩
    · rw [map_snd_calls] at hjoined
      rw [houts]
      exact congrArg some hjoined
    · obtain ⟨batch, hbatch, rfl⟩ := mem_map.mp hcall
      exact absurd (hrows batch hbatch) (Nat.not_le.mpr hlong.lt_numRows)

theorem JoinTable.ofKeys_toOption_isSome (order order' : MapOrder) (keys : Int64Array) :
    (ofKeys order keys).toOption.isSome = (ofKeys order' keys).toOption.isSome := by
  cases h : ofKeys order keys with
  | ok table =>
    obtain ⟨table', h'⟩ := ofKeys_ok_of_ok h order'
    rw [h']
    rfl
  | error e =>
    cases h' : ofKeys order' keys with
    | ok table' =>
      obtain ⟨table, hok⟩ := ofKeys_ok_of_ok h' order
      rw [h] at hok
      cases hok
    | error e' => rfl

theorem GpuHashJoinExec.execute_of_long (order : MapOrder) (exec : GpuHashJoinExec)
    (right : Schema) (hlong : ¬ (streamRows buildSide).length < 2 ^ 63) (calls : Calls D) :
    ∃ e, exec.execute order right buildSide calls = .error e := by
  rw [length_streamRows] at hlong
  refine ⟨.arrow "batches do not match the schema", ?_⟩
  rw [execute, concatBatches, dif_neg fun hok => hlong hok.2]
  rfl

/-- The probe batches a join can number, with results that fit an Arrow array. -/
def GpuHashJoinExec.Numbered (exec : GpuHashJoinExec) (left right : Schema) (build : List Row)
    (cut : List RecordBatch) : Prop :=
  ∀ batch ∈ cut, batch.numRows ≤ 2 ^ 32 ∧ (exec.joined left right batch.rows build).length < 2 ^ 63

/-- **Neither the cut of the probe side nor that of the build side shows in a join.** -/
theorem GpuHashJoinExec.rowsOf_cuts (hbuilt : exec.Built left right)
    (hcpu : backend.kind.isGpu = false) {buildSide' : List RecordBatch}
    (hprobe : SameTable left cut cut') (hbuild : SameTable right buildSide buildSide')
    (hcut : exec.Numbered left right (streamRows buildSide) cut)
    (hcut' : exec.Numbered left right (streamRows buildSide) cut') (order order' : MapOrder) :
    rowsOf (exec.execute order right buildSide (cut.map fun batch => (backend, batch))) =
      rowsOf (exec.execute order' right buildSide' (cut'.map fun batch => (backend, batch))) := by
  by_cases hbuildRows : (streamRows buildSide).length < 2 ^ 63
  · rw [rowsOf_execute hbuilt hcpu hbuild.left hbuildRows hprobe.left (fun b hb => (hcut b hb).1)
        fun b hb => (hcut b hb).2,
      rowsOf_execute hbuilt hcpu hbuild.right (hbuild.rows ▸ hbuildRows) hprobe.right
        (fun b hb => (hcut' b hb).1) fun b hb => hbuild.rows ▸ (hcut' b hb).2,
      ← hbuild.rows, ← hprobe.rows]
    have hsome := ofKeys_toOption_isSome order order'
      (exec.buildKeys (streamRows buildSide))
    revert hsome
    cases ofKeys order (exec.buildKeys (streamRows buildSide)) <;>
      cases ofKeys order' (exec.buildKeys (streamRows buildSide)) <;>
      simp [Except.toOption]
  · obtain ⟨e, he⟩ := execute_of_long order exec right hbuildRows
      (cut.map fun batch => (backend, batch))
    obtain ⟨e', he'⟩ := execute_of_long order' exec right (hbuild.rows ▸ hbuildRows)
      (cut'.map fun batch => (backend, batch))
    rw [he, he']
    rfl

theorem GpuHashJoinExec.rowsOf_exceeds (hbuilt : exec.Built left right)
    (hcpu : backend.kind.isGpu = false) (hcut : ∀ batch ∈ cut, batch.schema = left)
    {batch : RecordBatch} (hbatch : batch ∈ cut)
    (h : exec.Exceeds batch.rows (streamRows buildSide)) :
    rowsOf (exec.execute order right buildSide (cut.map fun batch => (backend, batch))) = none := by
  cases hrun : exec.execute order right buildSide (cut.map fun batch => (backend, batch)) with
  | error e => rfl
  | ok outs =>
    have hlimits := joinLimits_of_execute hbuilt (cpuCalls_map hcpu cut)
      (forall_mem_map.mpr hcut) hrun
    rw [map_snd_calls] at hlimits
    obtain ⟨n, key, hkey, hmatch, hn⟩ := h
    exact absurd (hlimits.probeIndex batch hbatch n key hkey hmatch) (Nat.not_lt.mpr hn)

end Join

/-- **The cut of an aggregation's input does not show**, not even in its errors. -/
theorem GpuAggregateExec.execute_cuts (fpu : FloatUnit) (exec : GpuAggregateExec) {input : Schema}
    (backend : GpuBackend D) (hcut : SameTable input cut cut') :
    exec.execute fpu input backend cut = exec.execute fpu input backend cut' := by
  rw [execute, execute, concatBatches_congr (fun b hb => congrArg Schema.fields (hcut.left b hb))
    (fun b hb => congrArg Schema.fields (hcut.right b hb)) hcut.rows]

/-- **Batch boundaries do not change results.**  On the CPU path two cuts of one table give a
filter the same rows, in the same order; a join the same rows, for any two cuts of its build
side and any two cuts of its probe side into batches of at most `2 ^ 32` rows, or no rows
from either; and an aggregation the same result. -/
theorem cuts_same_rows (fpu : FloatUnit) (hcpu : backend.kind.isGpu = false) :
    (∀ (exec : GpuFilterExec) (input : Schema) (cut cut' : List RecordBatch),
      GpuFilterExec.tryNew input exec.predicate exec.projection exec.target = .ok exec →
      SameTable input cut cut' → ∃ rows,
        rowsOf (exec.execute (cut.map fun batch => (backend, batch))) = some rows ∧
        rowsOf (exec.execute (cut'.map fun batch => (backend, batch))) = some rows) ∧
    (∀ (exec : GpuHashJoinExec) (left right : Schema) (order order' : MapOrder)
      (buildSide buildSide' cut cut' : List RecordBatch), exec.Built left right →
      SameTable right buildSide buildSide' → SameTable left cut cut' →
      exec.Numbered left right (streamRows buildSide) cut →
      exec.Numbered left right (streamRows buildSide) cut' →
      rowsOf (exec.execute order right buildSide (cut.map fun batch => (backend, batch))) =
        rowsOf (exec.execute order' right buildSide' (cut'.map fun batch => (backend, batch))) ∧
      ((streamRows buildSide).length < 2 ^ 32 →
        rowsOf (exec.execute order right buildSide (cut.map fun batch => (backend, batch))) =
          some (exec.joined left right (streamRows cut) (streamRows buildSide)))) ∧
    ∀ (exec : GpuAggregateExec) (input : Schema) (cut cut' : List RecordBatch),
      SameTable input cut cut' →
      exec.execute fpu input backend cut = exec.execute fpu input backend cut' := by
  refine ⟨fun exec input cut cut' hbuilt hcut => ?_, ?_, fun exec input cut cut' hcut =>
    exec.execute_cuts fpu backend hcut⟩
  · refine ⟨_, GpuFilterExec.rowsOf_execute hbuilt hcpu hcut.left, ?_⟩
    rw [GpuFilterExec.rowsOf_execute hbuilt hcpu hcut.right, hcut.rows]
  · intro exec left right order order' buildSide buildSide' cut cut' hbuilt hbuild hprobe hcut hcut'
    refine ⟨GpuHashJoinExec.rowsOf_cuts hbuilt hcpu hprobe hbuild hcut hcut' order order',
      fun hfew => ?_⟩
    have hlength : (exec.buildKeys (streamRows buildSide)).length < 2 ^ 32 := by
      rwa [GpuHashJoinExec.buildKeys, length_map]
    obtain ⟨table, htable⟩ := ofKeys_succeeds order hlength
    rw [GpuHashJoinExec.rowsOf_execute hbuilt hcpu hbuild.left (by omega) hprobe.left
      (fun b hb => (hcut b hb).1) fun b hb => (hcut b hb).2, htable]
    rfl

/-! ## Equal keys -/

theorem equalKeys_sameTable {n m : Nat} (h : n + m < 2 ^ 63) :
    SameTable keySchema [equalKeys (n + m) h]
      [equalKeys n (by omega), equalKeys m (by omega)] where
  left := by
    intro batch hbatch
    rw [mem_singleton.mp hbatch]
    rfl
  right := by
    intro batch hbatch
    rcases mem_pair.mp hbatch with rfl | rfl <;> rfl
  rows := by
    rw [streamRows_equalKeys, streamRows, flatMap_cons, flatMap_singleton,
      equalKeys_rows, equalKeys_rows, replicate_append_replicate]

theorem equalKeys_numbered {n m : Nat} (hn : n ≤ 2 ^ 32) (hm : m < 2 ^ 63) (h : n * m < 2 ^ 63) :
    ∀ batch ∈ [equalKeys n (by omega)], batch.numRows ≤ 2 ^ 32 ∧
      (keyJoin.joined keySchema keySchema batch.rows (streamRows [equalKeys m hm])).length <
        2 ^ 63 := by
  intro batch hbatch
  rw [mem_singleton.mp hbatch, equalKeys_rows, streamRows_equalKeys]
  exact ⟨hn, joined_equalKeys_length h⟩

/-- The theorem at two rows, in one batch and in two. -/
theorem cuts_same_rows_twoRows :
    rowsOf (keyJoin.execute .insertion keySchema [equalKeys 1 (by decide)]
        ([equalKeys 2 (by decide)].map fun batch => (cpuBackend, batch))) =
      rowsOf (keyJoin.execute .insertion keySchema [equalKeys 1 (by decide)]
        ([equalKeys 1 (by decide), equalKeys 1 (by decide)].map fun batch =>
          (cpuBackend, batch))) := by
  have hone := equalKeys_numbered (show 1 ≤ 2 ^ 32 by decide) (show 1 < 2 ^ 63 by decide)
    (by decide)
  refine ((@cuts_same_rows _ cpuBackend noFloats rfl).2.1 keyJoin keySchema keySchema
    .insertion .insertion _ _ _ _ keyJoin_built ⟨?_, ?_, rfl⟩
    (equalKeys_sameTable (show 1 + 1 < 2 ^ 63 by decide))
    (equalKeys_numbered (by decide) _ (by decide)) fun batch hbatch => ?_).1
  · intro batch hbatch
    rw [mem_singleton.mp hbatch]
    rfl
  · intro batch hbatch
    rw [mem_singleton.mp hbatch]
    rfl
  · rcases mem_pair.mp hbatch with rfl | rfl
    · exact hone _ mem_cons_self
    · exact hone _ mem_cons_self

theorem keyJoin_exceeds :
    rowsOf (keyJoin.execute .insertion keySchema [equalKeys 1 (by decide)]
      ([equalKeys (2 ^ 32 + 1) (by decide)].map fun batch => (cpuBackend, batch))) = none := by
  have hkey : ((equalKeys (2 ^ 32 + 1) (by decide)).rows.map (Row.key · keyJoin.leftKey))[2 ^ 32]? =
      some (some 0) := by
    rw [equalKeys_rows, map_replicate, getElem?_replicate, if_pos (Nat.lt_succ_self _)]
    rfl
  have hcut : ∀ batch ∈ [equalKeys (2 ^ 32 + 1) (by decide)], batch.schema = keySchema := by
    intro batch hbatch
    rw [mem_singleton.mp hbatch]
    rfl
  refine GpuHashJoinExec.rowsOf_exceeds keyJoin_built rfl hcut mem_cons_self
    ⟨2 ^ 32, 0, hkey, ?_, le_refl _⟩
  rw [buildKeys_equalKeys]
  exact mem_replicate.mpr ⟨one_ne_zero, rfl⟩

/-- A probe side whose cut shows: `2 ^ 32 + 1` matching rows fail in one batch and join in
two. -/
theorem cut_changes_join :
    SameTable keySchema [equalKeys (2 ^ 32 + 1) (by decide)]
        [equalKeys (2 ^ 32) (by decide), equalKeys 1 (by decide)] ∧
      rowsOf (keyJoin.execute .insertion keySchema [equalKeys 1 (by decide)]
        ([equalKeys (2 ^ 32 + 1) (by decide)].map fun batch => (cpuBackend, batch))) = none ∧
      rowsOf (keyJoin.execute .insertion keySchema [equalKeys 1 (by decide)]
        ([equalKeys (2 ^ 32) (by decide), equalKeys 1 (by decide)].map fun batch =>
          (cpuBackend, batch))) =
        some (replicate (2 ^ 32 + 1) [some (.int64 0), some (.int64 0)]) := by
  have hsame := equalKeys_sameTable (show 2 ^ 32 + 1 < 2 ^ 63 by decide)
  have hside : ∀ batch ∈ [equalKeys 1 (by decide)], batch.schema = keySchema := by
    intro batch hbatch
    rw [mem_singleton.mp hbatch]
    rfl
  refine ⟨hsame, keyJoin_exceeds, ?_⟩
  have hlong := equalKeys_numbered (le_refl (2 ^ 32)) (show 1 < 2 ^ 63 by decide) (by decide)
  have hone := equalKeys_numbered (show 1 ≤ 2 ^ 32 by decide) (show 1 < 2 ^ 63 by decide)
    (by decide)
  have hcut : keyJoin.Numbered keySchema keySchema (streamRows [equalKeys 1 (by decide)])
      [equalKeys (2 ^ 32) (by decide), equalKeys 1 (by decide)] := by
    intro batch hbatch
    rcases mem_pair.mp hbatch with rfl | rfl
    · exact hlong _ mem_cons_self
    · exact hone _ mem_cons_self
  have hkeys : (keyJoin.buildKeys (streamRows [equalKeys 1 (by decide)])).length < 2 ^ 32 := by
    rw [buildKeys_equalKeys, length_replicate]
    decide
  obtain ⟨table, htable⟩ := ofKeys_succeeds .insertion hkeys
  rw [GpuHashJoinExec.rowsOf_execute keyJoin_built rfl hside
    (by rw [streamRows_equalKeys, length_replicate]; decide) hsame.right
    (fun b hb => (hcut b hb).1) (fun b hb => (hcut b hb).2), htable, ← hsame.rows,
    streamRows_equalKeys, streamRows_equalKeys]
  exact congrArg some ((joined_equalKeys _ 1).trans (by rw [Nat.mul_one]))

end OxideLake
