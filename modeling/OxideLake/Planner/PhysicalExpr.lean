import OxideLake.Arrow.Rows
import OxideLake.Device.Kernels

/-!
# Physical expressions and the predicate grammar

The placement rule recognises DataFusion expressions by their shape: a column, a
literal, a binary operator, a scalar function call, or something else.
`lowerPredicate` walks a filter's expression and returns it in the bounded
grammar of `Predicate`, or refuses.

Below the translation stands its meaning.  `truth` is DataFusion's three-valued
evaluation of an expression on one row; the shapes the rule never lowers are left
to a parameter.  `lowerPredicate_truth` says that a lowered predicate has the
truth value of the expression it came from on every row, whatever is `NULL` in
it, and `evaluatePredicate_eq_truth` that the reference kernel computes just that
value for every row of a batch.
-/

namespace OxideLake

open Partial

variable {predicate : Predicate} {expr : PhysicalExpr} {schema : Schema}

/-! ## Expressions -/

/-- The operators of a `BinaryExpr`. -/
inductive Operator where
  | eq
  | notEq
  | lt
  | ltEq
  | gt
  | gtEq
  | and
  | or
  | other (symbol : String)
  deriving DecidableEq, Repr

/-- The `ScalarValue`s the rule tells apart; the rest by their text. -/
inductive ScalarValue where
  | int64 (value : Option Int64)
  | float64 (value : Option F64)
  | fixedSizeList (list : Column)
  | other (text : String)

/-- A physical expression, as far as the rule downcasts it. -/
inductive PhysicalExpr where
  | column (name : String) (index : Nat)
  | literal (value : ScalarValue)
  | binary (left : PhysicalExpr) (op : Operator) (right : PhysicalExpr)
  | scalarFunction (name : String) (args : List PhysicalExpr)
  | other (text : String)

/-- `column_index`: the index of a plain column. -/
def columnIndex : PhysicalExpr → Option Nat
  | .column _ index => some index
  | _ => none

/-- `literal`: a non-null `Int64` or `Float64` literal. -/
def literal : PhysicalExpr → Option Literal
  | .literal (.int64 (some v)) => some (.int64 v)
  | .literal (.float64 (some v)) => some (.float64 v)
  | _ => none

/-- `comparison`: the operators the device kernels implement. -/
def comparison : Operator → Option Comparison
  | .eq => some .eq
  | .lt => some .lt
  | .ltEq => some .ltEq
  | .gt => some .gt
  | .gtEq => some .gtEq
  | _ => none

/-- `flip`: the comparison with its operands exchanged. -/
def flip : Comparison → Comparison
  | .eq => .eq
  | .lt => .gt
  | .ltEq => .gtEq
  | .gt => .lt
  | .gtEq => .ltEq

/-! ## Lowering a predicate -/

/-- A column and a literal, on either side of a comparison; a literal on the left
flips it. -/
def operands (left right : PhysicalExpr) (op : Comparison) :
    Option (Nat × Literal × Comparison) :=
  match columnIndex left, literal right with
  | some c, some l => some (c, l, op)
  | _, _ =>
    match literal left, columnIndex right with
    | some l, some c => some (c, l, flip op)
    | _, _ => none

/-- One comparison of a column of `schema` with a literal of the column's type. -/
def lowerComparison (left : PhysicalExpr) (op : Operator) (right : PhysicalExpr)
    (schema : Schema) : Option Predicate := do
  let op ← comparison op
  let (column, lit, op) ← operands left right op
  let field ← schema.fields[column]?
  if field.dataType = lit.dataType then some (.compare column op lit) else none

/-- `lower_predicate`: a DataFusion predicate in the bounded grammar, or `none`
when any part of it is outside that grammar. -/
def lowerPredicate : PhysicalExpr → Schema → Option Predicate
  | .binary left op right, schema =>
    if op = .and then do
      let l ← lowerPredicate left schema
      let r ← lowerPredicate right schema
      some (.and l r)
    else lowerComparison left op right schema
  | _, _ => none

theorem lowerComparison_eq_some {left right : PhysicalExpr} {op : Operator}
    (h : lowerComparison left op right schema = some predicate) :
    ∃ cmp column lit cmp' field, comparison op = some cmp ∧
      operands left right cmp = some (column, lit, cmp') ∧
      schema.fields[column]? = some field ∧ field.dataType = lit.dataType ∧
      predicate = .compare column cmp' lit := by
  simp only [lowerComparison, Option.bind_eq_bind, Option.bind_eq_some_iff] at h
  obtain ⟨cmp, hcmp, ⟨column, lit, cmp'⟩, hoperands, field, hfield, h⟩ := h
  split at h
  · next htype =>
    cases h
    exact ⟨cmp, column, lit, cmp', field, hcmp, hoperands, hfield, htype, rfl⟩
  · cases h

/-! ## Three-valued evaluation -/

/-- How DataFusion evaluates the shapes the rule leaves alone. -/
structure ForeignExprs where
  value : PhysicalExpr → Row → Option Cell
  truth : PhysicalExpr → Row → Option Bool
  compare : Comparison → Cell → Cell → Option Bool

/-- No expression outside the grammar has a value. -/
def noForeign : ForeignExprs := ⟨fun _ _ => none, fun _ _ => none, fun _ _ _ => none⟩

namespace PhysicalExpr

variable (foreign : ForeignExprs)

/-- The value of an expression on a row. -/
def value : PhysicalExpr → Row → Option Cell
  | .column _ index, row => row.at index
  | .literal (.int64 v), _ => v.map Cell.int64
  | .literal (.float64 v), _ => v.map Cell.float64
  | expr, row => foreign.value expr row

/-- A comparison of two values: `NULL` when an operand is. -/
def compareValues (op : Comparison) : Option Cell → Option Cell → Option Bool
  | some (.int64 a), some (.int64 b) => some (Kernels.compareInt64 op a b)
  | some (.float64 a), some (.float64 b) => some (Kernels.compareTotal op a b)
  | some a, some b => foreign.compare op a b
  | _, _ => none

/-- The truth value of an expression on a row, in three-valued logic. -/
def truth : PhysicalExpr → Row → Option Bool
  | .binary left op right, row =>
    if op = .and then Kernels.andKleene (truth left row) (truth right row)
    else
      match comparison op with
      | some cmp => compareValues foreign cmp (left.value foreign row) (right.value foreign row)
      | none => foreign.truth (.binary left op right) row
  | expr, row => foreign.truth expr row

end PhysicalExpr

/-- The truth value of a lowered predicate on a row. -/
def Predicate.truth : Predicate → Row → Option Bool
  | .compare column op lit, row => (row.at column).bind (Kernels.compareCell op lit)
  | .and left right, row => Kernels.andKleene (left.truth row) (right.truth row)

/-! ## Lowering keeps the meaning -/

/-- The cell a literal stands for. -/
def Literal.cell : Literal → Cell
  | .int64 v => .int64 v
  | .float64 v => .float64 v

theorem literal_value (foreign : ForeignExprs) {lit : Literal} (h : literal expr = some lit)
    (row : Row) : expr.value foreign row = some lit.cell := by
  unfold literal at h
  split at h
  · cases h; rfl
  · cases h; rfl
  · cases h

theorem columnIndex_value (foreign : ForeignExprs) {index : Nat} (h : columnIndex expr = some index)
    (row : Row) : expr.value foreign row = row.at index := by
  unfold columnIndex at h
  split at h
  · cases h; rfl
  · cases h

theorem compareInt64_flip (op : Comparison) (a b : Int64) :
    Kernels.compareInt64 (flip op) a b = Kernels.compareInt64 op b a := by
  cases op with
  | eq => exact Bool.beq_comm
  | lt | ltEq | gt | gtEq => rfl

theorem compareTotal_flip (op : Comparison) (a b : F64) :
    Kernels.compareTotal (flip op) a b = Kernels.compareTotal op b a := by
  cases op with
  | eq => exact Bool.beq_comm
  | lt | ltEq | gt | gtEq => rfl

theorem compareValues_cell (foreign : ForeignExprs) (op : Comparison) {lit : Literal} {cell : Cell}
    (htype : cell.hasType lit.dataType = true) :
    PhysicalExpr.compareValues foreign op (some cell) (some lit.cell) =
        Kernels.compareCell op lit cell ∧
      PhysicalExpr.compareValues foreign op (some lit.cell) (some cell) =
        Kernels.compareCell (flip op) lit cell := by
  cases lit with
  | int64 b =>
    cases cell with
    | int64 a => exact ⟨rfl, congrArg some (compareInt64_flip op a b).symm⟩
    | _ => cases htype
  | float64 b =>
    cases cell with
    | float64 a => exact ⟨rfl, congrArg some (compareTotal_flip op a b).symm⟩
    | _ => cases htype

/-- A lowered comparison keeps its truth on every row. -/
theorem lowerComparison_truth (foreign : ForeignExprs) {left right : PhysicalExpr} {op : Operator}
    (h : lowerComparison left op right schema = some predicate) (hand : op ≠ .and) {row : Row}
    (hrow : row.HasTypes schema) :
    (PhysicalExpr.binary left op right).truth foreign row = predicate.truth row := by
  obtain ⟨cmp, column, lit, cmp', field, hcmp, hoperands, hfield, htype, rfl⟩ :=
    lowerComparison_eq_some h
  rw [PhysicalExpr.truth, if_neg hand, hcmp, Predicate.truth]
  -- the column's cell, when there is one, has the literal's type
  have hcell : ∀ value, row.at column = some value → value.hasType lit.dataType = true :=
    fun value hvalue => htype ▸ hrow column field hfield value hvalue
  unfold operands at hoperands
  split at hoperands
  · next c l hleft hright =>
    cases hoperands
    rw [columnIndex_value foreign hleft, literal_value foreign hright]
    cases hat : row.at column with
    | none => rfl
    | some value => exact (compareValues_cell foreign cmp (hcell value hat)).1
  · split at hoperands
    · next l c hleft hright =>
      cases hoperands
      rw [literal_value foreign hleft, columnIndex_value foreign hright]
      cases hat : row.at column with
      | none => cases lit <;> rfl
      | some value => exact (compareValues_cell foreign cmp (hcell value hat)).2
    · cases hoperands

/-- **Lowering keeps the meaning**: on every row of the schema's types a lowered
predicate has the truth value of the expression it came from. -/
theorem lowerPredicate_truth (foreign : ForeignExprs)
    (h : lowerPredicate expr schema = some predicate) {row : Row} (hrow : row.HasTypes schema) :
    expr.truth foreign row = predicate.truth row := by
  -- along the recursion of the lowering: an `AND` node, or a single comparison
  fun_induction lowerPredicate expr schema generalizing predicate with
  | case1 left right schema ihLeft ihRight =>
    simp only [Option.bind_eq_bind, Option.bind_eq_some_iff] at h
    obtain ⟨l, hl, r, hr, h⟩ := h
    cases h
    rw [PhysicalExpr.truth, if_pos rfl, ihLeft hl hrow, ihRight hr hrow]
    rfl
  | case2 left op right schema hand => exact lowerComparison_truth foreign h hand hrow
  | case3 => cases h

/-! ## The lowered predicate stays within the schema -/

/-- Every leaf compares a column of the schema with a literal of the column's type. -/
def Predicate.Typed (schema : Schema) : Predicate → Prop
  | .compare column _ lit => ∃ field, schema.fields[column]? = some field ∧
      field.dataType = lit.dataType
  | .and left right => left.Typed schema ∧ right.Typed schema

theorem lowerPredicate_typed (h : lowerPredicate expr schema = some predicate) :
    predicate.Typed schema := by
  fun_induction lowerPredicate expr schema generalizing predicate with
  | case1 left right schema ihLeft ihRight =>
    simp only [Option.bind_eq_bind, Option.bind_eq_some_iff] at h
    obtain ⟨l, hl, r, hr, h⟩ := h
    cases h
    exact ⟨ihLeft hl, ihRight hr⟩
  | case2 left op right schema hand =>
    obtain ⟨-, column, lit, -, field, -, -, hfield, htype, rfl⟩ := lowerComparison_eq_some h
    exact ⟨field, hfield, htype⟩
  | case3 => cases h

/-! ## The reference kernel computes the truth value of every row -/

/-- **The kernel's mask**: on a predicate typed by the batch's schema
`evaluate_predicate` returns each row's truth value. -/
theorem evaluatePredicate_eq_truth {batch : RecordBatch} (h : predicate.Typed batch.schema) :
    Kernels.evaluatePredicate batch predicate =
      .ok ((List.range batch.numRows).map fun i => predicate.truth (batch.row i)) := by
  induction predicate with
  | compare column op lit =>
    obtain ⟨field, hfield, htype⟩ := h
    obtain ⟨col, hcol, hcolType, hlen⟩ := RecordBatch.entry_of_field hfield
    rw [Kernels.evaluatePredicate, Kernels.column, hcol, ok_bind,
      if_pos (hcolType.trans htype), col.cells_eq_map_range, hlen, List.map_map]
    refine congrArg Except.ok (List.map_congr_left fun i _ => ?_)
    rw [Predicate.truth, RecordBatch.row_at, hcol]
    rfl
  | and left right ihLeft ihRight =>
    rw [Kernels.evaluatePredicate, ihLeft h.1, ok_bind, ihRight h.2, ok_bind]
    refine congrArg Except.ok ?_
    rw [List.zipWith_map, List.zipWith_self]
    rfl

end OxideLake
