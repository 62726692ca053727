import OxideLake.Planner.CpuPath
import OxideLake.Planner.RowLimit

/-!
# Filters and the projections fused into them

`lower_predicate` walks an expression of any depth, exchanges the operands of a comparison whose
literal stands on the left, and refuses everything outside a small grammar; `InGrammar` is that
grammar, said without the walk.  `fuse_projection` then reads the columns of a projection through
those of the filter below it, again and again along a chain of projections.

The original plan is a filter with its pushed projection and row limit, and the projections above
it, each with DataFusion's meaning of its expressions.  `lowering_keeps_meaning` says what the
replacement makes of the same batches on the CPU path: it keeps the rows the expression is true
on and emits the columns of the original.
-/

namespace OxideLake

open Partial

variable {D : Type}

/-! ## The grammar -/

/-- A column of the schema beside a literal of the column's own type that is not `NULL`. -/
inductive PhysicalExpr.OwnTyped (schema : Schema) : PhysicalExpr → PhysicalExpr → Prop where
  | int64 {name : String} {index : Nat} {field : Field} {value : Int64}
      (hfield : schema.fields[index]? = some field) (htype : field.dataType = .int64) :
      OwnTyped schema (.column name index) (.literal (.int64 (some value)))
  | float64 {name : String} {index : Nat} {field : Field} {value : F64}
      (hfield : schema.fields[index]? = some field) (htype : field.dataType = .float64) :
      OwnTyped schema (.column name index) (.literal (.float64 (some value)))

/-- The comparisons `=`, `<`, `<=`, `>` and `>=`. -/
def Operator.IsComparison (op : Operator) : Prop :=
  op = .eq ∨ op = .lt ∨ op = .ltEq ∨ op = .gt ∨ op = .gtEq

/-- An `AND`-tree of comparisons of a column with a literal, on either side. -/
inductive PhysicalExpr.InGrammar (schema : Schema) : PhysicalExpr → Prop where
  | and {left right : PhysicalExpr} (hleft : InGrammar schema left)
      (hright : InGrammar schema right) : InGrammar schema (.binary left .and right)
  | columnFirst {left right : PhysicalExpr} {op : Operator} (hop : op.IsComparison)
      (h : OwnTyped schema left right) : InGrammar schema (.binary left op right)
  | literalFirst {left right : PhysicalExpr} {op : Operator} (hop : op.IsComparison)
      (h : OwnTyped schema right left) : InGrammar schema (.binary left op right)

theorem comparison_isSome_iff {op : Operator} :
    (∃ cmp, comparison op = some cmp) ↔ op.IsComparison := by
  cases op <;> simp [comparison, Operator.IsComparison]

theorem ownTyped_iff {schema : Schema} {column literal' : PhysicalExpr} :
    PhysicalExpr.OwnTyped schema column literal' ↔
      ∃ index lit field, columnIndex column = some index ∧ literal literal' = some lit ∧
        schema.fields[index]? = some field ∧ field.dataType = lit.dataType := by
  constructor
  · rintro (⟨hfield, htype⟩ | ⟨hfield, htype⟩)
    · exact ⟨_, _, _, rfl, rfl, hfield, htype⟩
    · exact ⟨_, _, _, rfl, rfl, hfield, htype⟩
  · rintro ⟨index, lit, field, hcolumn, hlit, hfield, htype⟩
    unfold columnIndex at hcolumn
    split at hcolumn
    · cases hcolumn
      unfold literal at hlit
      split at hlit
      · cases hlit
        exact .int64 hfield htype
      · cases hlit
        exact .float64 hfield htype
      · cases hlit
    · cases hcolumn

/-- Which comparisons are lowered. -/
theorem lowerComparison_isSome_iff {left right : PhysicalExpr} {op : Operator} {schema : Schema} :
    (∃ predicate, lowerComparison left op right schema = some predicate) ↔
      op.IsComparison ∧ (PhysicalExpr.OwnTyped schema left right ∨
        PhysicalExpr.OwnTyped schema right left) := by
  constructor
  · rintro ⟨predicate, h⟩
    obtain ⟨cmp, column, lit, cmp', field, hcmp, hoperands, hfield, htype, -⟩ :=
      lowerComparison_eq_some h
    refine ⟨comparison_isSome_iff.mp ⟨cmp, hcmp⟩, ?_⟩
    unfold operands at hoperands
    split at hoperands
    · next c l hleft hright =>
      cases hoperands
      exact .inl (ownTyped_iff.mpr ⟨column, lit, field, hleft, hright, hfield, htype⟩)
    · split at hoperands
      · next l c hleft hright =>
        cases hoperands
        exact .inr (ownTyped_iff.mpr ⟨column, lit, field, hright, hleft, hfield, htype⟩)
      · cases hoperands
  · rintro ⟨hop, h⟩
    obtain ⟨cmp, hcmp⟩ := comparison_isSome_iff.mpr hop
    -- a column is no literal, so the two orders exclude each other
    rcases h with h | h
    · obtain ⟨index, lit, field, hcolumn, hlit, hfield, htype⟩ := ownTyped_iff.mp h
      refine ⟨.compare index cmp lit, ?_⟩
      simp [lowerComparison, hcmp, operands, hcolumn, hlit, hfield, htype]
    · obtain ⟨index, lit, field, hcolumn, hlit, hfield, htype⟩ := ownTyped_iff.mp h
      have hleft : columnIndex left = none := by
        cases h <;> rfl
      refine ⟨.compare index (flip cmp) lit, ?_⟩
      simp [lowerComparison, hcmp, operands, hcolumn, hlit, hfield, htype, hleft]

/-- **What lowers**: exactly the expressions of the grammar. -/
theorem lowerPredicate_isSome_iff (expr : PhysicalExpr) (schema : Schema) :
    (∃ predicate, lowerPredicate expr schema = some predicate) ↔ expr.InGrammar schema := by
  constructor
  · rintro ⟨predicate, h⟩
    fun_induction lowerPredicate expr schema generalizing predicate with
    | case1 left right schema ihLeft ihRight =>
      simp only [Option.bind_eq_bind, Option.bind_eq_some_iff] at h
      obtain ⟨l, hl, r, hr, -⟩ := h
      exact .and (ihLeft l hl) (ihRight r hr)
    | case2 left op right schema hand =>
      obtain ⟨hop, h | h⟩ := lowerComparison_isSome_iff.mp ⟨predicate, h⟩
      · exact .columnFirst hop h
      · exact .literalFirst hop h
    | case3 => cases h
  · intro h
    induction h with
    | and _ _ ihLeft ihRight =>
      obtain ⟨l, hl⟩ := ihLeft
      obtain ⟨r, hr⟩ := ihRight
      exact ⟨.and l r, by simp [lowerPredicate, hl, hr]⟩
    | @columnFirst left right op hop h =>
      rw [lowerPredicate, if_neg (by rintro rfl; simp [Operator.IsComparison] at hop)]
      exact lowerComparison_isSome_iff.mpr ⟨hop, .inl h⟩
    | @literalFirst left right op hop h =>
      rw [lowerPredicate, if_neg (by rintro rfl; simp [Operator.IsComparison] at hop)]
      exact lowerComparison_isSome_iff.mpr ⟨hop, .inr h⟩

/-! ## The original plan -/

/-- `ProjectionExec` on one row. -/
def ProjectionExec.apply (foreign : ForeignExprs) (projection : ProjectionExec) (row : Row) : Row :=
  projection.expr.map fun expr => expr.expr.value foreign row

/-- A chain of projections on one row, the lowest first. -/
def applyAll (foreign : ForeignExprs) (projections : List ProjectionExec) (row : Row) : Row :=
  projections.foldl (fun row projection => projection.apply foreign row) row

theorem applyAll_append (foreign : ForeignExprs) (projections : List ProjectionExec)
    (projection : ProjectionExec) (row : Row) :
    applyAll foreign (projections ++ [projection]) row =
      projection.apply foreign (applyAll foreign projections row) := by
  rw [applyAll, List.foldl_append]
  rfl

/-- The columns a filter emits of a row. -/
def FilterExec.columns (filter : FilterExec) (row : Row) : Row :=
  match filter.projection with
  | none => row
  | some indices => row.select indices

/-- The schema on top of a filter and the projections above it. -/
def topSchema (filter : FilterExec) (input : Schema) (projections : List ProjectionExec) : Schema :=
  (projections.getLast?.map ProjectionExec.schema).getD ((UnaryExec.filterExec filter).schema input)

section Fusing

variable {target : BackendKind} {filter : FilterExec} {input : Plan}
  {projections : List ProjectionExec} {exec : GpuFilterExec}

theorem FusesTo.schema_eq (h : FusesTo target filter input projections exec) :
    exec.schema = topSchema filter input.schema projections := by
  cases h with
  | lowered h =>
    obtain ⟨-, -, -, hschema⟩ := lowerFilter_eq_some (rewrite_filter_eq h)
    exact hschema
  | fused _ h =>
    obtain ⟨previous, -, hfuse⟩ := rewrite_projection_eq h
    obtain ⟨-, -, -, hschema⟩ := fuseProjection_eq_some hfuse
    simp [topSchema, hschema]

/-- **Columns read through a filter**: selecting the fused columns is selecting the filter's and
then evaluating the projection. -/
theorem fuseColumns_select (foreign : ForeignExprs) {filter : GpuFilterExec} (row : Row) :
    ∀ {exprs : List ProjectionExpr} {fused : List Nat},
      fuseColumns filter exprs = .ok (some fused) →
      row.select fused = exprs.map fun expr =>
        expr.expr.value foreign (row.select filter.projection)
  | [], fused, h => by
      cases h
      rfl
  | expr :: exprs, fused, h => by
      rw [fuseColumns] at h
      split at h
      · cases h
      next index hindex =>
        obtain ⟨field, -, h⟩ := bind_eq_ok_iff.mp h
        split at h
        · cases h
        obtain ⟨column, hcolumn, h⟩ := bind_eq_ok_iff.mp h
        obtain ⟨rest, hrest, h⟩ := bind_eq_ok_iff.mp h
        obtain ⟨rest', rfl, rfl⟩ := Option.map_eq_some_iff.mp (Except.ok.inj h)
        rw [List.map_cons, ← fuseColumns_select foreign row hrest, columnIndex_value foreign hindex,
          Row.select_at row (getOrPanic_eq_ok_iff.mp hcolumn)]
        rfl

theorem Row.select_range {row : Row} {n : Nat} (h : row.length = n) :
    row.select (List.range n) = row := by
  subst h
  refine List.ext_getElem (by simp [Row.select]) fun i hi hi' => ?_
  simp [Row.select, Row.at, List.getElem?_eq_getElem hi']

/-- **The replacement's columns** are those of the filter and the projections above it. -/
theorem FusesTo.select_eq (h : FusesTo target filter input projections exec)
    (foreign : ForeignExprs) {row : Row} (hrow : row.length = input.schema.width) :
    row.select exec.projection = applyAll foreign projections (filter.columns row) := by
  induction h with
  | lowered h =>
    obtain ⟨predicate, -, hnew, -⟩ := lowerFilter_eq_some (rewrite_filter_eq h)
    obtain ⟨-, -, -, schema, -, rfl⟩ := GpuFilterExec.tryNew_eq_ok_iff.mp hnew
    unfold FilterExec.columns
    cases filter.projection with
    | none => exact Row.select_range hrow
    | some indices => rfl
  | @fused projections projection exec exec' _ h ih =>
    obtain ⟨previous, hprevious, hfuse⟩ := rewrite_projection_eq h
    cases hprevious
    obtain ⟨fused, hfused, hnew, -⟩ := fuseProjection_eq_some hfuse
    obtain ⟨-, -, -, schema, -, rfl⟩ := GpuFilterExec.tryNew_eq_ok_iff.mp hnew
    rw [applyAll_append, ← ih]
    exact fuseColumns_select foreign row hfused

end Fusing

/-- **Lowering keeps the meaning.**  An expression lowers exactly if it is in the grammar.  For
every filter that was lowered, with the projections fused into it, the replacement on the CPU
path emits the rows the expression is true on, each with the columns of the filter and the
projections above it; the original plan emits the same rows up to the filter's row limit. -/
theorem lowering_keeps_meaning :
    (∀ (expr : PhysicalExpr) (schema : Schema),
      (∃ predicate, lowerPredicate expr schema = some predicate) ↔ expr.InGrammar schema) ∧
    ∀ {target : BackendKind} {filter : FilterExec} {input : Plan}
      {projections : List ProjectionExec} {exec : GpuFilterExec},
      FusesTo target filter input projections exec →
      ∀ (foreign : ForeignExprs) {calls : Calls D}, CpuCalls calls →
        (∀ call ∈ calls, call.2.schema = input.schema) →
        let rows := streamRows (calls.map Prod.snd)
        ∃ outs, exec.execute calls = .ok outs ∧
          (∀ out ∈ outs, out.schema = topSchema filter input.schema projections) ∧
          streamRows outs =
            (rows.filter fun row => filter.predicate.truth foreign row = some true).map
              (fun row => applyAll foreign projections (filter.columns row)) ∧
          (filter.output foreign rows).map (applyAll foreign projections) =
            match filter.fetch with
            | none => streamRows outs
            | some limit => (streamRows outs).take limit := by
  refine ⟨lowerPredicate_isSome_iff, ?_⟩
  intro target filter input projections exec h foreign calls hcpu hcalls rows
  obtain ⟨hpredicate, hbuilt⟩ := h.lowered_predicate
  obtain ⟨outs, houts, hschemas, hrows⟩ := GpuFilterExec.execute_cpu_spec hbuilt hcpu hcalls
  have hfields : ∀ batch ∈ calls.map Prod.snd, batch.schema.fields = input.schema.fields := by
    intro batch hbatch
    obtain ⟨call, hcall, rfl⟩ := List.mem_map.mp hbatch
    rw [hcalls call hcall]
  have hkept : (rows.filter fun row => exec.predicate.truth row = some true) =
      rows.filter fun row => filter.predicate.truth foreign row = some true :=
    List.filter_congr fun row hrow => by
      rw [lowerPredicate_truth foreign hpredicate (streamRows_hasTypes hfields hrow)]
  have hrows' : streamRows outs =
      (rows.filter fun row => filter.predicate.truth foreign row = some true).map
        (fun row => applyAll foreign projections (filter.columns row)) := by
    rw [hrows, ← hkept]
    refine List.map_congr_left fun row hrow => ?_
    exact h.select_eq foreign (length_of_mem_streamRows hfields (List.mem_of_mem_filter hrow))
  refine ⟨outs, houts, fun out hout => (hschemas out hout).trans h.schema_eq, hrows', ?_⟩
  simp only [hrows', FilterExec.output, FilterExec.columns]
  cases filter.fetch <;> cases filter.projection <;> simp [Function.comp_def]

/-- `SELECT k` above the filter of the keys. -/
def keysAgain : ProjectionExec := ⟨[⟨.column "k" 0, "k"⟩], scanOfKeys.schema⟩

/-- The theorem at a filter with one projection fused into it. -/
theorem lowering_keeps_meaning_keys : ∃ outs,
    placedFilter.execute [(cpuBackend, keyBatch)] = .ok outs ∧
      streamRows outs = [[some (.int64 4)], [some (.int64 5)]] := by
  have hfuses : FusesTo .cuda (limitedFilter 2) scanOfKeys [keysAgain] placedFilter :=
    .fused (.lowered rfl) rfl
  have hcpu : CpuCalls [(cpuBackend, keyBatch)] := fun call hcall => by
    cases List.mem_singleton.mp hcall
    rfl
  have hschema : ∀ call ∈ [(cpuBackend, keyBatch)], call.2.schema = scanOfKeys.schema :=
    fun call hcall => by
      cases List.mem_singleton.mp hcall
      rfl
  obtain ⟨outs, houts, -, hrows, -⟩ := lowering_keeps_meaning.2 hfuses noForeign hcpu hschema
  exact ⟨outs, houts, hrows.trans (by decide)⟩

end OxideLake
