import OxideLake.Compute.DistanceFunctions
import OxideLake.Device.Columns
import OxideLake.Planner.CpuPath

/-!
# Lowered distance projections

A projection that passes its input through and appends one `l2_distance` or `cosine_distance`
call is lowered to a `GpuVectorDistanceExec`.  Here both are run on stored batches: the
projection as DataFusion evaluates it, the call through the SQL function with the query broadcast
from a literal, and the node through its operator on the CPU path, the distances in the row loop
of the kernel.  They return the same batch (`lowered_distance_agrees`), whichever argument the
query was: of float arithmetic only the symmetry of the metrics is used.
-/

namespace OxideLake

open List Partial DistanceUdf FixedSizeListArray

variable {expr : PhysicalExpr} {value : ScalarValue}

/-! ## Evaluating a projection -/

/-- What evaluation leaves to DataFusion: the storage of list literals, and expressions that
are no column, list literal or distance call. -/
structure ExprEvaluator where
  literals : Column → FixedSizeListArray
  argument : PhysicalExpr → StoredBatch → DFResult ColumnarValue
  column : PhysicalExpr → StoredBatch → DFResult Column

/-- `into_array`: a scalar is repeated. -/
def DistanceUdf.Output.intoArray (rows : ℕ) : Output → Column
  | .array values => .ofFloat32 values
  | .scalar value => .ofFloat32 (replicate rows value)

namespace ExprEvaluator

variable (evaluator : ExprEvaluator) (ops : Float32Ops)

/-- The array of a column. -/
def columnArray (name : String) (index : ℕ) (stored : StoredBatch) :
    DFResult ArrayRef :=
  match stored.arrays[index]? with
  | some ref => .ok ref
  | none => .error (.internal ("PhysicalExpr Column references column '" ++ name ++
      "' at index " ++ toString index))

/-- An argument of a function call. -/
def evaluateArgument (expr : PhysicalExpr) (stored : StoredBatch) :
    DFResult ColumnarValue :=
  match expr with
  | .column name index => do
      let ref ← columnArray name index stored
      .ok (.array ref)
  | .literal (.fixedSizeList list) => .ok (.scalar (.fixedSizeList (evaluator.literals list)))
  | expr => evaluator.argument expr stored

/-- A column of a projection's output. -/
def evaluate (expr : PhysicalExpr) (stored : StoredBatch) : DFResult Column :=
  match expr with
  | .column name index => do
      let ref ← columnArray name index stored
      .ok ref.toColumn
  | .scalarFunction name args =>
    match distanceMetricFor name with
    | some metric => do
        let args ← args.mapM fun arg => evaluator.evaluateArgument arg stored
        let out ← invokeWithArgs ops metric args stored.numRows
        .ok (out.intoArray stored.numRows)
    | none => evaluator.column expr stored
  | expr => evaluator.column expr stored

/-- The list literals among the arguments of a call are stored. -/
def Stores : PhysicalExpr → Prop
  | .scalarFunction _ args => ∀ column, .literal (.fixedSizeList column) ∈ args →
      (evaluator.literals column).toColumn = column
  | _ => True

/-- `ProjectionExec` on one batch. -/
def project (projection : ProjectionExec) (stored : StoredBatch) :
    DFResult RecordBatch := do
  let columns ← projection.expr.mapM fun expr => evaluator.evaluate ops expr.expr stored
  (RecordBatch.tryNew projection.schema columns).mapError fun e => .arrow e.arrowText

end ExprEvaluator

/-- `GpuVectorDistanceExec` on one batch, through its operator. -/
def GpuVectorDistanceExec.onBatch {D : Type} (exec : GpuVectorDistanceExec) (ops : Float32Ops)
    (state : OperatorState D) (backend : GpuBackend D) (stored : StoredBatch) :
    Result RecordBatch × OperatorState D :=
  state.finish stored.numRows
    (match backend.noDevicePath true "vector distance" with
      | some why => .ok (.declined why)
      | none => backend.vectorDistanceOnDevice stored.batch exec.column exec.query exec.metric
          exec.outputName)
    (fun _ => stored.vectorDistance ops exec.column exec.query exec.metric exec.outputName)

/-! ## The call the rule recognises -/

theorem literalQuery_eq_some {query : List F32} (h : literalQuery value = some query) :
    ∃ list items, value = .fixedSizeList list ∧ list.cells = [some (.vector items)] ∧
      query = items.map ListItem.raw := by
  unfold literalQuery at h
  split at h
  · next list =>
    split at h
    · next items hcells =>
      obtain ⟨-, hquery⟩ := Option.ite_none_right_eq_some.mp h
      exact ⟨list, items, rfl, hcells, (Option.some.inj hquery).symm⟩
    · cases h
  · cases h

theorem columnIndex_eq_some {index : ℕ} (h : columnIndex expr = some index) :
    ∃ name, expr = .column name index := by
  cases expr with
  | column name i =>
    cases h
    exact ⟨name, rfl⟩
  | _ => cases h

theorem literalValue_eq_some (h : literalValue expr = some value) : expr = .literal value := by
  cases expr with
  | literal v =>
    cases h
    rfl
  | _ => cases h

theorem distanceOperands_eq_some {a b : PhysicalExpr} {column : ℕ}
    (h : distanceOperands a b = some (column, value)) :
    ∃ name, a = .column name column ∧ b = .literal value ∨
      a = .literal value ∧ b = .column name column := by
  unfold distanceOperands at h
  split at h
  · next c hcolumn _ =>
    obtain ⟨literal, hliteral, heq⟩ := Option.map_eq_some_iff.mp h
    cases heq
    obtain ⟨name, rfl⟩ := columnIndex_eq_some hcolumn
    exact ⟨name, .inl ⟨rfl, literalValue_eq_some hliteral⟩⟩
  · next c _ hcolumn =>
    obtain ⟨literal, hliteral, heq⟩ := Option.map_eq_some_iff.mp h
    cases heq
    obtain ⟨name, rfl⟩ := columnIndex_eq_some hcolumn
    exact ⟨name, .inr ⟨literalValue_eq_some hliteral, rfl⟩⟩
  · cases h

/-- **A distance call the rule takes**: a column and a list literal, in either order. -/
theorem distanceCall_eq_some {metric : DistanceMetric} {column : ℕ} {query : List F32}
    (h : distanceCall expr = some (metric, column, query)) :
    ∃ function name list items, distanceMetricFor function = some metric ∧
      list.cells = [some (.vector items)] ∧ query = items.map ListItem.raw ∧
      (expr = .scalarFunction function [.column name column, .literal (.fixedSizeList list)] ∨
        expr = .scalarFunction function [.literal (.fixedSizeList list), .column name column]) := by
  unfold distanceCall at h
  split at h
  · next function a b =>
    obtain ⟨metric', hmetric, h⟩ := Option.bind_eq_some_iff.mp h
    obtain ⟨⟨column', value⟩, hoperands, h⟩ := Option.bind_eq_some_iff.mp h
    obtain ⟨query', hquery, h⟩ := Option.bind_eq_some_iff.mp h
    cases h
    obtain ⟨list, items, rfl, hcells, rfl⟩ := literalQuery_eq_some hquery
    obtain ⟨name, ⟨rfl, rfl⟩ | ⟨rfl, rfl⟩⟩ := distanceOperands_eq_some hoperands
    · exact ⟨function, name, list, items, hmetric, hcells, rfl, .inl rfl⟩
    · exact ⟨function, name, list, items, hmetric, hcells, rfl, .inr rfl⟩
  · cases h

/-! ## The operands -/

section Operands

variable {stored : StoredBatch} {list literal : FixedSizeListArray} {array : Float32Array}
  {column : Column} {items : List ListItem} {c dim : ℕ}

/-- The storage of a literal the rule takes: one valid row with the items of the query. -/
theorem literal_stored (hstored : literal.toColumn = column)
    (hcells : column.cells = [some (.vector items)]) :
    ∃ array, literal.values = .float32 array ∧ literal.len = 1 ∧ literal.isValid 0 = true ∧
      literal.dim = items.length ∧ literal.slotsFrom array 0 = items.map ListItem.raw := by
  have hlen : literal.len = 1 := by
    rw [← literal.toColumn_len, hstored, Column.len, hcells]
    rfl
  have hcell : literal.cell 0 = some (.vector items) := by
    rw [← hstored] at hcells
    change (range literal.len).map literal.cell = _ at hcells
    rw [hlen] at hcells
    exact (cons.inj hcells).1
  rw [cell] at hcell
  split at hcell
  · next hvalid =>
    cases hvalues : literal.values with
    | other itemType notFloat bytes =>
      rw [hvalues] at hcell
      cases hcell
    | float32 array =>
      rw [hvalues] at hcell
      cases hcell
      refine ⟨array, rfl, hlen, hvalid, ?_, ?_⟩
      · rw [items, length_map, length_range]
      · rw [items_raw hvalues (hlen ▸ Nat.one_pos), Nat.zero_mul]
  · cases hcell

theorem vector_stored {field : Field} (hfield : stored.batch.schema.fields[c]? = some field)
    (hdim : vectorDimension field.dataType = some dim) :
    ∃ list array, stored.arrays[c]? = some (.fixedSizeList list) ∧
      list.values = .float32 array ∧ list.dim = dim := by
  obtain ⟨name, nullable, metadata, htype, -⟩ := vectorDimension_eq_some hdim
  obtain ⟨column, hcolumn, hcolumnType, -⟩ := RecordBatch.entry_of_field hfield
  rw [StoredBatch.columns_batch, getElem?_map] at hcolumn
  obtain ⟨ref, href, rfl⟩ := Option.map_eq_some_iff.mp hcolumn
  rw [htype] at hcolumnType
  cases ref with
  | other column notList =>
    rw [show column.dataType = _ from hcolumnType] at notList
    cases notList
  | fixedSizeList list =>
    obtain ⟨-, hitem, -, -, hsize⟩ := DataType.fixedSizeList.inj
      (show list.dataType = _ from hcolumnType)
    cases hvalues : list.values with
    | other itemType notFloat bytes =>
      rw [hvalues] at hitem
      exact absurd hitem notFloat
    | float32 array =>
      rw [list.valueLength_toInt] at hsize
      exact ⟨list, array, href, hvalues, Nat.cast_inj.mp hsize⟩

theorem covers_array (hlist : stored.arrays[c]? = some (.fixedSizeList list))
    (hvalues : list.values = .float32 array) :
    ListOperand.Covers ⟨list, false⟩ array stored.numRows :=
  ⟨hvalues, fun _ hrow => (StoredBatch.len_eq (mem_of_getElem? hlist)).symm ▸ hrow⟩

theorem covers_scalar (hvalues : literal.values = .float32 array) (hlen : literal.len = 1)
    (rows : ℕ) : ListOperand.Covers ⟨literal, true⟩ array rows :=
  ⟨hvalues, fun _ _ => hlen.symm ▸ Nat.one_pos⟩

end Operands

/-! ## Passing columns through -/

theorem mapM_passesThrough (evaluator : ExprEvaluator) (ops : Float32Ops) {input : Schema}
    {exprs : List ProjectionExpr} (h : passesThrough input exprs = true) {stored : StoredBatch}
    (hschema : stored.batch.schema.fields = input.fields) :
    exprs.mapM (fun expr => evaluator.evaluate ops expr.expr stored) =
      .ok stored.batch.columns := by
  obtain ⟨hlen, hexprs⟩ := of_decide_eq_true h
  have hwidth : exprs.length = stored.arrays.length := by
    rw [hlen, ← hschema, RecordBatch.schema, StoredBatch.batch, StoredBatch.arrays, map_map,
      length_map, length_map]
  rw [StoredBatch.columns_batch, mapM_eq_ok_iff, forall₂_map_right_iff, forall₂_iff_get]
  refine ⟨hwidth, fun i hi hi' => ?_⟩
  obtain ⟨hcolumn, -⟩ := hexprs (exprs.get ⟨i, hi⟩, i) (mem_iff_getElem?.mpr ⟨i, by
    rw [getElem?_zipIdx, getElem?_eq_getElem hi, Option.map_some, Nat.zero_add]
    rfl⟩)
  obtain ⟨name, hexpr⟩ := columnIndex_eq_some hcolumn
  rw [hexpr, ExprEvaluator.evaluate, ExprEvaluator.columnArray, getElem?_eq_getElem hi']
  rfl

/-! ## Agreement -/

section Agreement

variable {ops : Float32Ops} {stored : StoredBatch} {list literal : FixedSizeListArray}
  {array literalArray : Float32Array} {metric : DistanceMetric} {query : List F32}

theorem distanceOf_literal (hops : ops.Commutes) (metric : DistanceMetric)
    (list : FixedSizeListArray) (array : Float32Array) (hvalid : literal.isValid 0 = true)
    (hquery : literal.slotsFrom literalArray 0 = query) :
    distanceOf ops metric ⟨list, false⟩ ⟨literal, true⟩ array literalArray =
        list.distanceAt ops array query metric ∧
      distanceOf ops metric ⟨literal, true⟩ ⟨list, false⟩ literalArray array =
        list.distanceAt ops array query metric := by
  have hslots : ∀ row, ListOperand.slots ⟨literal, true⟩ literalArray row = query := fun row => by
    show literal.slotsFrom literalArray (literal.start 0) = query
    rw [literal.start_zero, hquery]
  have hliteral : ∀ row, ListOperand.isValid ⟨literal, true⟩ row = true := fun _ => hvalid
  constructor
  · funext row
    rw [distanceOf, hliteral, hslots, Bool.and_true, distanceAt]
    rfl
  · funext row
    rw [distanceOf, hliteral, hslots, Bool.true_and, distanceAt,
      Float32Ops.distance_comm hops metric query]
    rfl

theorem evaluate_call (evaluator : ExprEvaluator) {function : String}
    (hmetric : distanceMetricFor function = some metric) {a b : PhysicalExpr}
    {x y : ColumnarValue} (ha : evaluator.evaluateArgument a stored = .ok x)
    (hb : evaluator.evaluateArgument b stored = .ok y) {values : List (Option F32)}
    (hinvoke : invokeWithArgs ops metric [x, y] stored.numRows = .ok (.array values)) :
    evaluator.evaluate ops (.scalarFunction function [a, b]) stored = .ok (.ofFloat32 values) := by
  have hargs : [a, b].mapM (fun arg => evaluator.evaluateArgument arg stored) = .ok [x, y] :=
    mapM_eq_ok_iff.mpr (.cons ha (.cons hb .nil))
  rw [ExprEvaluator.evaluate]
  simp only [hmetric, hargs, ok_bind, hinvoke]
  rfl

/-- **The call of a lowered projection** gives the distances of the kernel. -/
theorem evaluate_distanceCall (hops : ops.Commutes) {evaluator : ExprEvaluator} {c : ℕ}
    (hcall : distanceCall expr = some (metric, c, query)) (hliterals : evaluator.Stores expr)
    (hlist : stored.arrays[c]? = some (.fixedSizeList list))
    (hvalues : list.values = .float32 array) (hdim : list.dim = query.length) :
    evaluator.evaluate ops expr stored = .ok (.ofFloat32
      ((range stored.numRows).map (list.distanceAt ops array query metric))) := by
  obtain ⟨function, name, column, items, hmetric, hcells, rfl, hexpr⟩ := distanceCall_eq_some hcall
  have hstored : (evaluator.literals column).toColumn = column := by
    rcases hexpr with rfl | rfl
    · exact hliterals column (.tail _ (.head _))
    · exact hliterals column (.head _)
  obtain ⟨literalArray, hliteral, hlen, hvalid, hitems, hslots⟩ := literal_stored hstored hcells
  have hcolumnCovers := covers_array hlist hvalues
  have hliteralCovers := covers_scalar hliteral hlen stored.numRows
  obtain ⟨hsecond, hfirst⟩ := distanceOf_literal hops metric list array hvalid hslots
  have hargument : evaluator.evaluateArgument (.column name c) stored =
      .ok (.array (.fixedSizeList list)) := by
    rw [ExprEvaluator.evaluateArgument, ExprEvaluator.columnArray, hlist]
    rfl
  rw [length_map, ← hitems] at hdim
  rcases hexpr with rfl | rfl
  · rw [← hsecond]
    exact evaluate_call evaluator hmetric hargument rfl
      (invokeWithArgs_eq hcolumnCovers hliteralCovers hdim rfl)
  · rw [← hfirst]
    exact evaluate_call evaluator hmetric rfl hargument
      (invokeWithArgs_eq hliteralCovers hcolumnCovers hdim.symm rfl)

variable {D : Type}

theorem GpuVectorDistanceExec.onBatch_cpu (exec : GpuVectorDistanceExec) (ops : Float32Ops)
    (state : OperatorState D) {backend : GpuBackend D} (h : backend.kind.isGpu = false)
    (stored : StoredBatch) :
    (exec.onBatch ops state backend stored).1 =
      stored.vectorDistance ops exec.column exec.query exec.metric exec.outputName := by
  obtain ⟨why, hwhy⟩ := backend.noDevicePath_of_cpu h true "vector distance"
  rw [onBatch, hwhy, OperatorState.finish_declined]

/-- **Distance lowering agrees with the SQL function.**  On every batch of the input's schema the
lowered node, on the CPU path and from any state of its operator, returns the batch that
evaluating the projection returns, and both do return one. -/
theorem lowered_distance_agrees (hops : ops.Commutes) {target : BackendKind}
    {projection : ProjectionExec} {input : Schema} {exec : GpuVectorDistanceExec}
    (h : lowerVectorDistance target projection input = some exec) {evaluator : ExprEvaluator}
    (hliterals : ∀ expr ∈ projection.expr, evaluator.Stores expr.expr)
    (hschema : stored.batch.schema.fields = input.fields) (state : OperatorState D)
    {backend : GpuBackend D} (hcpu : backend.kind.isGpu = false) :
    ∃ out, (exec.onBatch ops state backend stored).1 = .ok out ∧
      evaluator.project ops projection stored = .ok out := by
  obtain ⟨passthrough, last, metric, c, query, hexprs, hpasses, hcall, hnew, hdeclared⟩ :=
    lowerVectorDistance_inv h
  obtain ⟨⟨field, hfield, hdimension⟩, rfl⟩ := GpuVectorDistanceExec.tryNew_eq_ok hnew
  rw [← hschema] at hfield
  obtain ⟨list, array, hlist, hvalues, hdim⟩ := vector_stored hfield hdimension
  set distances := Column.ofFloat32
    ((range stored.numRows).map (list.distanceAt ops array query metric)) with hdistances
  have hcolumns : projection.expr.mapM (fun expr => evaluator.evaluate ops expr.expr stored) =
      .ok (stored.batch.columns ++ [distances]) := by
    rw [hexprs] at hliterals ⊢
    have hlast := evaluate_distanceCall hops hcall
      (hliterals last (mem_append_right _ (mem_singleton_self _))) hlist hvalues hdim
    have hfirst := mapM_eq_ok_iff.mp (mapM_passesThrough evaluator ops hpasses hschema)
    exact mapM_eq_ok_iff.mpr (rel_append hfirst (.cons hlast .nil))
  have hfits : FieldFits stored.batch.numRows ⟨last.aliasName, .float32, true, []⟩ distances := by
    refine ⟨rfl, ?_, fun hnullable => nomatch (hnullable : true = false)⟩
    rw [hdistances, Column.len, Column.ofFloat32, length_map, length_map,
      length_range]
    rfl
  obtain ⟨out, hout⟩ := stored.batch.tryNew_append hfits
  refine ⟨out, ?_, ?_⟩
  · rw [GpuVectorDistanceExec.onBatch_cpu _ ops state hcpu,
      StoredBatch.vectorDistance_eq hlist hvalues hdim.symm]
    exact hout
  · rw [ExprEvaluator.project, hcolumns, ok_bind, ← hdeclared, ← hschema, hout]
    rfl

end Agreement

/-! ## Two embeddings and a query -/

/-- Bitwise operations in the place of float ones. -/
def bitwiseOps : Float32Ops where
  add := fun x y => x ^^^ y
  sub := fun x y => x ^^^ y
  mul := fun x y => x &&& y
  div := fun x _ => x
  sqrt := id
  emptySum := 0#32
  isZero := fun x => x == 0#32

theorem bitwiseOps_commutes : bitwiseOps.Commutes where
  mul_comm := fun x y => BitVec.and_comm x y
  sqDiff_comm := fun x y => by
    show (x ^^^ y) &&& (x ^^^ y) = (y ^^^ x) &&& (y ^^^ x)
    rw [BitVec.xor_comm]

/-- The last two rows of three; the first of them is `NULL`. -/
def embeddings : FixedSizeListArray :=
  (ofRows 2 twoItems_pos [9, 9, 8, 8, 5, 6] [true, false, true]
    (by decide)).slice 1 2 (by decide)

def embeddingType : DataType := .fixedSizeList "item" .float32 true [] 2

def embeddingBatch : StoredBatch where
  metadata := []
  entries := [(⟨"emb", embeddingType, true, []⟩, .fixedSizeList embeddings)]
  numRows := 2
  fits := forall_mem_singleton.mpr ⟨by decide, by decide, nofun⟩
  numRows_lt := by decide

/-- The query `(1, 2)`. -/
def queryList : FixedSizeListArray :=
  .ofRows 2 twoItems_pos [1, 2] [true] (by decide)

/-- `SELECT *, l2_distance((1, 2), emb) AS d`. -/
def distanceProjection : ProjectionExec where
  expr := [⟨.column "emb" 0, "emb"⟩,
    ⟨.scalarFunction "l2_distance" [.literal (.fixedSizeList queryList.toColumn),
      .column "emb" 0], "d"⟩]
  schema := ⟨[⟨"emb", embeddingType, true, []⟩, ⟨"d", .float32, true, []⟩], []⟩

def queryEvaluator : ExprEvaluator where
  literals := fun _ => queryList
  argument := fun _ _ => .error (.internal "")
  column := fun _ _ => .error (.internal "")

theorem lowered_distance_agrees_embeddings :
    lowerVectorDistance .cuda distanceProjection ⟨[⟨"emb", embeddingType, true, []⟩], []⟩ =
        some ⟨0, [1, 2], .l2, "d", distanceProjection.schema, .cuda⟩ ∧
      ∃ out, queryEvaluator.project bitwiseOps distanceProjection embeddingBatch = .ok out := by
  have hlowered : lowerVectorDistance .cuda distanceProjection
      ⟨[⟨"emb", embeddingType, true, []⟩], []⟩ =
        some ⟨0, [1, 2], .l2, "d", distanceProjection.schema, .cuda⟩ := by decide
  refine ⟨hlowered, ?_⟩
  obtain ⟨out, -, hout⟩ := lowered_distance_agrees bitwiseOps_commutes hlowered
    (show ∀ expr ∈ distanceProjection.expr, queryEvaluator.Stores expr.expr by
      simp [distanceProjection, ExprEvaluator.Stores, queryEvaluator])
    (show embeddingBatch.batch.schema.fields = _ from rfl) {}
    (show cpuBackend.kind.isGpu = false from rfl)
  exact ⟨out, hout⟩

end OxideLake
