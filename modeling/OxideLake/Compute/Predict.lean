import OxideLake.Compute.DistanceFunctions

/-!
# `predict`

`predict(path, features)` of `predict.rs` runs a model over a column of feature vectors.  The
rows are copied into one matrix, a `NULL` row as zeros; the model runs once over the matrix; the
rows of its output are cut out again, `NULL` where the features were.

A scalar is not broadcast: the loop reads row `i` of the list whatever the argument is, and a
scalar's list has one row.  `predict_handles_iff` says for which arguments every row comes out
as the model applied to the features of that row.
-/

namespace OxideLake

open List RowMajor Partial FixedSizeListArray

namespace Predict

variable {list : FixedSizeListArray} {row : ℕ} {fs : List (List F32 → List F32)}

/-! ## Models -/

/-- An operation on a matrix of a number of rows, kept row after row. -/
abbrev MatrixOp := ℕ → List F32 → Except String (List F32)

/-- `Model`: the layers and the activation between them, as tensor operations. -/
structure Model where
  layers : List MatrixOp
  activation : MatrixOp
  inFeatures : ℕ
  outFeatures : ℕ

/-- The body of the loop of `forward`. -/
def layerStep (activation : MatrixOp) (last rows : ℕ) (x : List F32) (layer : MatrixOp × ℕ) :
    Except String (List F32) := do
  let x ← layer.1 rows x
  if layer.2 ≠ last then activation rows x else .ok x

/-- `Model::forward`: the activation stands between the layers and not after the last. -/
def Model.forward (model : Model) : MatrixOp := fun rows input =>
  model.layers.zipIdx.foldlM (layerStep model.activation (model.layers.length - 1) rows) input

/-! ## Arguments -/

def constantString : ColumnarValue → Option String
  | .scalar (.utf8 (some s)) => some s
  | .scalar (.largeUtf8 (some s)) => some s
  | .scalar (.utf8View (some s)) => some s
  | _ => none

def modelPath (value : ColumnarValue) : DFResult String :=
  match constantString value with
  | some path => .ok path
  | none => .error (.plan "predict: the model path must be a constant string, not a column")

def activationArgument (value : ColumnarValue) : DFResult String :=
  match constantString value with
  | some activation => .ok activation
  | none => .error (.plan "predict: the activation must be a constant string, not a column")

def featureList : ColumnarValue → DFResult FixedSizeListArray
  | .array (.fixedSizeList list) => .ok list
  | .array (.other col _) => .error (.execution
      ("predict: expected FixedSizeList features, got " ++ col.dataType.debug))
  | .scalar (.fixedSizeList list) => .ok list
  | .scalar other => .error (.execution
      ("predict: expected FixedSizeList features, got " ++ other.dataType.debug))

def featureValues (list : FixedSizeListArray) : DFResult (List F32 × ℕ) :=
  match list.values with
  | .other itemType _ _ => .error (.execution
      ("predict: feature elements are " ++ itemType.debug ++ ", expected Float32"))
  | .float32 array =>
    if list.valueLength.toInt < 0 then .error (.execution "predict: negative list size")
    else .ok (array.values, list.dim)

/-! ## The call -/

/-- The body of the row loop: a `NULL` row is marked, another one copied into the matrix. -/
def fillRow (list : FixedSizeListArray) (values : List F32) (dim : ℕ)
    (state : List F32 × List Bool) (row : ℕ) : Option (List F32 × List Bool) := do
  let null ← list.isNull row
  if null then some (state.1, state.2.set row true)
  else do
    let slice ← sliceOf values (list.start row) dim
    let flat ← copyInto state.1 (row * dim) slice
    some (flat, state.2)

/-- The matrix and the marks of the `NULL` rows. -/
def fill (list : FixedSizeListArray) (values : List F32) (dim rows : ℕ) :
    Option (List F32 × List Bool) :=
  (range rows).foldlM (fillRow list values dim)
    (replicate (rows * dim) 0, replicate rows false)

/-- The rows of the output. -/
def outputRows (out : List F32) (width : ℕ) (null : List Bool) :
    Option (List (Option (List F32))) :=
  null.zipIdx.mapM fun row =>
    if row.1 then some none else (sliceOf out (row.2 * width) width).map some

/-- How a path and an asserted activation are turned into a model: the cache, the file and the
names of the activations. -/
abbrev Loader := String → Option String → DFResult Model

/-- The call on its arguments. -/
def run (load : Loader) (path features : ColumnarValue) (activation : Option ColumnarValue)
    (numberRows : ℕ) : DFResult (List (Option (List F32))) := do
  let path ← modelPath path
  let activation ← activation.mapM activationArgument
  let model ← load path activation
  let list ← featureList features
  let (values, dim) ← featureValues list
  if dim ≠ model.inFeatures then
    .error (.execution ("predict: " ++ path ++ " expects " ++ toString model.inFeatures ++
      " features but the column has " ++ toString dim))
  else do
    let (flat, null) ← DataFusionError.orPanic (fill list values dim numberRows)
    let out ← (model.forward numberRows flat).mapError fun e =>
      .execution ("predict: " ++ path ++ ": " ++ e)
    DataFusionError.orPanic (outputRows out model.outFeatures null)

def invokeWithArgs (load : Loader) (args : List ColumnarValue) (numberRows : ℕ) :
    DFResult (List (Option (List F32))) :=
  match args with
  | [path, features] => run load path features none numberRows
  | [path, features, activation] => run load path features (some activation) numberRows
  | args => .error (.execution ("predict takes 2 or 3 arguments, got " ++ toString args.length))

/-! ## Filling the matrix -/

section Fill

variable {list : FixedSizeListArray} {values : List F32} {dim : ℕ}

/-- The row of the matrix for a row that is `NULL` or has features. -/
def matrixRow (dim : ℕ) : Option (List F32) → List F32
  | none => replicate dim 0
  | some features => features

/-- What the loop reads of a row, if it can: its features, or that it is `NULL`. -/
def readRow (list : FixedSizeListArray) (values : List F32) (dim row : ℕ) :
    Option (Option (List F32)) := do
  let null ← list.isNull row
  if null then some none else (sliceOf values (list.start row) dim).map some

theorem length_matrixRow {x : Option (List F32)} (h : readRow list values dim row = some x) :
    (matrixRow dim x).length = dim := by
  obtain ⟨null, -, h⟩ := Option.bind_eq_some_iff.mp h
  split at h
  · cases h
    exact length_replicate
  · obtain ⟨slice, hslice, rfl⟩ := Option.map_eq_some_iff.mp h
    unfold sliceOf at hslice
    split at hslice
    · next hle =>
      cases hslice
      show ((values.drop (list.start row)).take dim).length = dim
      rw [length_take, length_drop]
      omega
    · cases hslice

/-- **One row more**: the matrix and the marks grow by the row. -/
theorem fillRow_eq (xs : List (Option (List F32))) {x : Option (List F32)} (n : ℕ)
    (hxs : ∀ y ∈ xs, (matrixRow dim y).length = dim)
    (hread : readRow list values dim xs.length = some x) :
    fillRow list values dim ((xs.map (matrixRow dim)).flatten ++ replicate ((n + 1) * dim) 0,
        xs.map Option.isNone ++ replicate (n + 1) false) xs.length =
      some (((xs ++ [x]).map (matrixRow dim)).flatten ++ replicate (n * dim) 0,
        (xs ++ [x]).map Option.isNone ++ replicate n false) := by
  obtain ⟨null, hnull, hrest⟩ := Option.bind_eq_some_iff.mp hread
  have hrows : ∀ row ∈ xs.map (matrixRow dim), row.length = dim := forall_mem_map.mpr hxs
  have hmarks : xs.length = (xs.map Option.isNone).length := (length_map _).symm
  rw [fillRow, hnull, map_append, map_append, map_singleton, map_singleton]
  cases null with
  | true =>
    cases hrest
    have hset : (xs.map Option.isNone ++ replicate (n + 1) false).set xs.length true =
        xs.map Option.isNone ++ [true] ++ replicate n false := by
      rw [hmarks, set_append_right _ _ le_rfl, Nat.sub_self, replicate_succ,
        set_cons_zero, append_assoc]
      rfl
    rw [append_blank, hset]
    rfl
  | false =>
    obtain ⟨slice, hslice, rfl⟩ := Option.map_eq_some_iff.mp hrest
    have hcopy := copyInto_filled hrows (length_matrixRow hread) (0 : F32) n
    rw [length_map] at hcopy
    change copyInto _ _ slice = _ at hcopy
    simp only [hslice, Option.bind_eq_bind, Option.bind_some, hcopy]
    rw [replicate_succ, append_assoc (xs.map Option.isNone)]
    rfl

theorem fill_eq {x : ℕ → Option (List F32)} {rows : ℕ}
    (hread : ∀ row < rows, readRow list values dim row = some (x row)) :
    fill list values dim rows = some ((((range rows).map x).map (matrixRow dim)).flatten,
      ((range rows).map x).map Option.isNone) := by
  have hprogress : ∀ k ≤ rows, (range k).foldlM (fillRow list values dim)
      (replicate (rows * dim) 0, replicate rows false) =
        some ((((range k).map x).map (matrixRow dim)).flatten ++
            replicate ((rows - k) * dim) 0,
          ((range k).map x).map Option.isNone ++ replicate (rows - k) false) := by
    intro k
    induction k with
    | zero => exact fun _ => rfl
    | succ k ih =>
      intro hk
      have hlen : ((range k).map x).length = k := by
        rw [length_map, length_range]
      have hstep := fillRow_eq ((range k).map x) (rows - (k + 1))
        (forall_mem_map.mpr fun row hrow =>
          length_matrixRow (hread row ((mem_range.mp hrow).trans hk)))
        (by rw [hlen]; exact hread k hk)
      rw [hlen, show rows - (k + 1) + 1 = rows - k by omega] at hstep
      rw [range_succ, foldlM_append, ih (Nat.le_of_succ_le hk), map_append,
        map_singleton, ← hstep]
      exact (Option.bind_some _ _).trans (bind_pure _)
  have hall := hprogress rows le_rfl
  rw [Nat.sub_self, Nat.zero_mul, replicate_zero, replicate_zero, append_nil,
    append_nil] at hall
  exact hall

theorem fill_eq_none {rows : ℕ} (hrow : row < rows) (hread : readRow list values dim row = none) :
    fill list values dim rows = none := by
  by_contra hne
  obtain ⟨final, hfinal⟩ := Option.ne_none_iff_exists'.mp hne
  obtain ⟨state, state', hstep⟩ := foldlM_some_of_mem hfinal (mem_range.mpr hrow)
  obtain ⟨null, hnull, hrest⟩ := Option.bind_eq_some_iff.mp hstep
  rw [readRow, hnull] at hread
  cases null with
  | true => cases hread
  | false =>
    obtain ⟨slice, hslice, -⟩ := Option.bind_eq_some_iff.mp hrest
    rw [hslice] at hread
    cases hread

end Fill

/-! ## Models that act on rows -/

/-- An operation that acts on each row of a matrix independently: on rows of `width` items, by
`f`. -/
structure ActsOnRows (op : MatrixOp) (width width' : ℕ) (f : List F32 → List F32) : Prop where
  length : ∀ x, x.length = width → (f x).length = width'
  onRows : ∀ xs : List (List F32), (∀ x ∈ xs, x.length = width) →
    op xs.length xs.flatten = .ok (xs.map f).flatten

/-- Layers one after another that act on rows, with what each does to a row. -/
inductive Stack : List MatrixOp → List (List F32 → List F32) → ℕ → ℕ → Prop where
  | nil (width : ℕ) : Stack [] [] width width
  | cons {op ops f fs width width' width''} (h : ActsOnRows op width width' f)
      (rest : Stack ops fs width' width'') : Stack (op :: ops) (f :: fs) width width''

/-- What a stack does to a row: the activation stands between the layers. -/
def stacked (activation : List F32 → List F32) :
    List (List F32 → List F32) → List F32 → List F32
  | [], x => x
  | [f], x => f x
  | f :: g :: fs, x => stacked activation (g :: fs) (activation (f x))

section Models

variable {activation : MatrixOp} {act : List F32 → List F32}

theorem length_stacked (hact : ∀ width, ActsOnRows activation width width act) {ops : List MatrixOp}
    {width width' : ℕ} (h : Stack ops fs width width') (x : List F32) (hx : x.length = width) :
    (stacked act fs x).length = width' := by
  induction h generalizing x with
  | nil width => exact hx
  | @cons op ops f fs width mid width'' hop hrest ih =>
    have hmid := hop.length x hx
    cases hrest with
    | nil => exact hmid
    | cons hnext hrest => exact ih (act (f x)) ((hact mid).length _ hmid)

theorem foldlM_layers (hact : ∀ width, ActsOnRows activation width width act) {ops : List MatrixOp}
    {width width' last i n : ℕ} (h : Stack ops fs width width')
    (hlast : ops ≠ [] → i + ops.length = last + 1) {xs : List (List F32)}
    (hxs : ∀ x ∈ xs, x.length = width) (hn : xs.length = n) :
    (ops.zipIdx i).foldlM (layerStep activation last n) xs.flatten =
      .ok (xs.map (stacked act fs)).flatten := by
  induction h generalizing i xs with
  | nil width =>
    show Except.ok xs.flatten = .ok (xs.map fun x => x).flatten
    rw [map_id']
  | @cons op ops f fs width mid width'' hop hrest ih =>
    have hindex := hlast (cons_ne_nil _ _)
    have hmid : ∀ x ∈ xs.map f, x.length = mid :=
      forall_mem_map.mpr fun x hx => hop.length x (hxs x hx)
    have hlayer : op n xs.flatten = .ok (xs.map f).flatten := hn ▸ hop.onRows xs hxs
    rw [zipIdx_cons, foldlM_cons, layerStep]
    dsimp only
    rw [hlayer, ok_bind]
    cases hrest with
    | nil =>
      rw [if_neg (not_not.mpr (Nat.succ.inj hindex))]
      rfl
    | @cons op' ops f' fs _ width' _ hnext hrest =>
      have hne : i ≠ last := by
        rw [length_cons, length_cons] at hindex
        omega
      have hactivated : activation n (xs.map f).flatten = .ok ((xs.map f).map act).flatten := by
        have hrows := (hact mid).onRows (xs.map f) hmid
        rwa [length_map, hn] at hrows
      rw [if_pos hne, hactivated, ok_bind, ih (fun _ => by
          rw [length_cons] at hindex
          omega)
        (forall_mem_map.mpr fun x hx => (hact mid).length x (hmid x hx))
        (by rw [length_map, length_map, hn]), map_map, map_map]
      rfl

/-- **A stack of layers that act on rows acts on rows.** -/
theorem forward_actsOnRows {model : Model}
    (hstack : Stack model.layers fs model.inFeatures model.outFeatures)
    (hact : ∀ width, ActsOnRows model.activation width width act) :
    ActsOnRows model.forward model.inFeatures model.outFeatures (stacked act fs) where
  length := length_stacked hact hstack
  onRows := by
    intro xs hxs
    refine foldlM_layers hact hstack (fun hne => ?_) hxs rfl
    have hpos := length_pos_of_ne_nil hne
    omega

end Models

/-! ## Cutting the output -/

/-- **The rows of the output** are what the model makes of the rows that are not `NULL`. -/
theorem outputRows_eq {dim width : ℕ} {f : List F32 → List F32} {xs : List (Option (List F32))}
    (hwidth : ∀ x ∈ xs, (f (matrixRow dim x)).length = width) :
    outputRows ((xs.map (matrixRow dim)).map f).flatten width (xs.map Option.isNone) =
      some (xs.map (Option.map f)) := by
  have hrows : ∀ row ∈ (xs.map (matrixRow dim)).map f, row.length = width := by
    rw [map_map]
    exact forall_mem_map.mpr hwidth
  rw [outputRows, mapM_eq_some_iff, forall₂_iff_get]
  refine ⟨by simp, fun i hi hi' => ?_⟩
  have hlt : i < xs.length := by simpa using hi'
  have hrow : ((xs.map (matrixRow dim)).map f)[i]? =
      some (f (matrixRow dim (xs.get ⟨i, hlt⟩))) := by
    simp [hlt]
  simp only [get_eq_getElem, getElem_zipIdx, getElem_map, Nat.zero_add,
    sliceOf_flatten hrows hrow]
  cases xs[i] with
  | none | some x => rfl

/-! ## The features of a row -/

/-- The features of a row of the batch: of its own row in an array, of the only one in a
scalar. -/
def features (operand : ListOperand) (array : Float32Array) (row : ℕ) : Option (List F32) :=
  if operand.isValid row then
    some (operand.list.slotsFrom array (operand.row row * operand.list.dim))
  else none

/-- The argument stands for `rows` rows. -/
def StandsFor (operand : ListOperand) (rows : ℕ) : Prop :=
  operand.list.len = if operand.isScalar then 1 else rows

/-- The path and the activation, if one is asserted, are constants and name a model. -/
def Loads (load : Loader) (path : ColumnarValue) (activation : Option ColumnarValue)
    (model : Model) : Prop :=
  ∃ name asserted, constantString path = some name ∧
    activation.mapM constantString = some asserted ∧ load name asserted = .ok model

/-- **`predict` handles an argument**: whatever the model, if its width matches and it acts on
rows, a row of the result is the model applied to the features of the row, and `NULL` where they
are `NULL`. -/
def Handles (operand : ListOperand) (array : Float32Array) (rows : ℕ) : Prop :=
  ∀ load path activation model f, Loads load path activation model →
    model.inFeatures = operand.list.dim →
    ActsOnRows model.forward model.inFeatures model.outFeatures f →
    invokeWithArgs load (path :: operand.value :: activation.toList) rows =
      .ok ((range rows).map fun row => (features operand array row).map f)

section Calls

variable {operand : ListOperand} {array : Float32Array} {rows : ℕ} {load : Loader}
  {path : ColumnarValue} {activation : Option ColumnarValue} {model : Model}
  {f : List F32 → List F32}

theorem featureList_value (operand : ListOperand) :
    featureList operand.value = .ok operand.list := by
  obtain ⟨list, isScalar⟩ := operand
  cases isScalar <;> rfl

theorem featureValues_eq (h : list.values = .float32 array) :
    featureValues list = .ok (array.values, list.dim) := by
  rw [featureValues, h]
  exact if_neg (not_lt.mpr list.valueLength_nonneg)

theorem invokeWithArgs_eq_run (load : Loader) (path features : ColumnarValue)
    (activation : Option ColumnarValue) (rows : ℕ) :
    invokeWithArgs load (path :: features :: activation.toList) rows =
      run load path features activation rows := by
  cases activation <;> rfl

theorem invoke_loaded (hloads : Loads load path activation model)
    (hvalues : operand.list.values = .float32 array)
    (hwidth : model.inFeatures = operand.list.dim) (rows : ℕ) :
    ∃ name, invokeWithArgs load (path :: operand.value :: activation.toList) rows = (do
      let filled ← DataFusionError.orPanic (fill operand.list array.values operand.list.dim rows)
      let out ← (model.forward rows filled.1).mapError fun e =>
        .execution ("predict: " ++ name ++ ": " ++ e)
      DataFusionError.orPanic (outputRows out model.outFeatures filled.2)) := by
  obtain ⟨name, asserted, hname, hasserted, hmodel⟩ := hloads
  have hpath : modelPath path = .ok name := by rw [modelPath, hname]
  have hactivation : activation.mapM activationArgument = .ok asserted := by
    cases activation with
    | none =>
      cases hasserted
      rfl
    | some value =>
      obtain ⟨text, htext, rfl⟩ := Option.map_eq_some_iff.mp hasserted
      show some <$> activationArgument value = _
      rw [activationArgument, htext]
      rfl
  refine ⟨name, ?_⟩
  rw [invokeWithArgs_eq_run, run]
  simp only [hpath, hactivation, hmodel, featureList_value, featureValues_eq hvalues, ok_bind]
  rw [if_neg (not_not.mpr hwidth.symm)]

theorem invoke_eq {x : ℕ → Option (List F32)} (hloads : Loads load path activation model)
    (hvalues : operand.list.values = .float32 array)
    (hwidth : model.inFeatures = operand.list.dim)
    (hacts : ActsOnRows model.forward model.inFeatures model.outFeatures f)
    (hread : ∀ row < rows, readRow operand.list array.values operand.list.dim row = some (x row)) :
    invokeWithArgs load (path :: operand.value :: activation.toList) rows =
      .ok ((range rows).map fun row => (x row).map f) := by
  obtain ⟨name, hinvoke⟩ := invoke_loaded hloads hvalues hwidth rows
  rw [hwidth] at hacts
  set xs := (range rows).map x with hxs
  have hlengths : ∀ y ∈ xs, (matrixRow operand.list.dim y).length = operand.list.dim :=
    forall_mem_map.mpr fun row hrow => length_matrixRow (hread row (mem_range.mp hrow))
  have hforward : model.forward rows (xs.map (matrixRow operand.list.dim)).flatten =
      .ok ((xs.map (matrixRow operand.list.dim)).map f).flatten := by
    have hrows := hacts.onRows (xs.map (matrixRow operand.list.dim))
      (forall_mem_map.mpr hlengths)
    rwa [length_map, hxs, length_map, length_range] at hrows
  have hout : outputRows ((xs.map (matrixRow operand.list.dim)).map f).flatten model.outFeatures
      (xs.map Option.isNone) = some (xs.map (Option.map f)) :=
    outputRows_eq fun y hy => hacts.length _ (hlengths y hy)
  rw [hinvoke, fill_eq hread, ← hxs, DataFusionError.orPanic, ok_bind, hforward]
  show DataFusionError.orPanic (outputRows _ _ _) = _
  rw [hout, hxs, map_map]
  rfl

theorem invoke_panics (hloads : Loads load path activation model)
    (hvalues : operand.list.values = .float32 array) (hwidth : model.inFeatures = operand.list.dim)
    (hrow : row < rows) (hread : readRow operand.list array.values operand.list.dim row = none) :
    invokeWithArgs load (path :: operand.value :: activation.toList) rows =
      .error (.panicked "index out of bounds") := by
  obtain ⟨name, hinvoke⟩ := invoke_loaded hloads hvalues hwidth rows
  rw [hinvoke, fill_eq_none hrow hread]
  rfl

/-- The model that returns its features. -/
def identityModel (width : ℕ) : Model := ⟨[], fun _ x => .ok x, width, width⟩

theorem identityModel_actsOnRows (width : ℕ) :
    ActsOnRows (identityModel width).forward width width id where
  length := fun _ h => h
  onRows := fun xs _ => by
    rw [map_id]
    rfl

theorem forward_actsOnRows_twice :
    let model : Model := ⟨[(identityModel 1).forward, (identityModel 1).forward],
      (identityModel 1).forward, 1, 1⟩
    ActsOnRows model.forward 1 1 (stacked id [id, id]) :=
  forward_actsOnRows (.cons (identityModel_actsOnRows 1)
    (.cons (identityModel_actsOnRows 1) (.nil 1))) identityModel_actsOnRows

theorem identityModel_loads (width : ℕ) :
    Loads (fun _ _ => .ok (identityModel width)) (.scalar (.utf8 (some "identity"))) none
      (identityModel width) :=
  ⟨"identity", none, rfl, rfl, rfl⟩

/-- **An argument is handled exactly if every row reads as its features.** -/
theorem handles_iff_reads (hvalues : operand.list.values = .float32 array) :
    Handles operand array rows ↔ ∀ row < rows,
      readRow operand.list array.values operand.list.dim row =
        some (features operand array row) := by
  constructor
  · intro h row hrow
    have hresult := h _ _ _ _ _ (identityModel_loads operand.list.dim) rfl
      (identityModel_actsOnRows operand.list.dim)
    have hreadable : ∀ row < rows, ∃ x,
        readRow operand.list array.values operand.list.dim row = some x := by
      intro row hrow
      by_contra hnone
      rw [invoke_panics (identityModel_loads operand.list.dim) hvalues rfl hrow
        (Option.eq_none_iff_forall_ne_some.mpr fun x hx => hnone ⟨x, hx⟩)] at hresult
      cases hresult
    choose! x hx using hreadable
    rw [invoke_eq (identityModel_loads operand.list.dim) hvalues rfl
      (identityModel_actsOnRows operand.list.dim) hx] at hresult
    have hrows := map_inj_left.mp (Except.ok.inj hresult) row (mem_range.mpr hrow)
    rw [Option.map_id, id, id] at hrows
    rw [hx row hrow, hrows]
  · intro hread load path activation model f hloads hwidth hacts
    exact invoke_eq hloads hvalues hwidth hacts hread

theorem readRow_of_lt (h : list.values = .float32 array) (hrow : row < list.len) :
    readRow list array.values list.dim row = some (if list.isValid row then
      some (list.slotsFrom array (list.start row)) else none) := by
  rw [readRow, isNull_of_lt hrow, sliceOf_start h hrow]
  cases list.isValid row <;> rfl

theorem readRow_of_le (h : list.values = .float32 array) (hlen : list.len = 1) :
    readRow list array.values list.dim 1 = none ∨ list.dim = 0 ∧ list.nulls = none := by
  rcases isNull_of_le hlen.le with hnull | ⟨hnull, hnulls⟩
  · exact .inl (by rw [readRow, hnull]; rfl)
  · rcases Nat.eq_zero_or_pos list.dim with hdim | hpos
    · exact .inr ⟨hdim, hnulls⟩
    · have hholds := list.values_hold
      rw [h] at hholds
      have hend : array.values.length < (list.len + 1) * list.dim := hholds.2 hpos
      have hdim := list.dim_lt
      have hstart : list.start 1 = list.dim :=
        (start_eq (by omega)).trans (Nat.one_mul _)
      refine .inl ?_
      rw [readRow, hnull, hstart, sliceOf_eq_none (by rw [hlen] at hend; omega)]
      rfl

theorem readRow_of_empty (hdim : list.dim = 0) (hnulls : list.nulls = none) (row : ℕ) :
    readRow list array.values list.dim row = some (some []) := by
  have hnull : list.isNull row = some false := by rw [isNull, hnulls]
  have hstart : list.start row = 0 := by
    have hle := list.start_le row
    rwa [hdim, Nat.mul_zero, Nat.le_zero] at hle
  rw [readRow, hnull, hstart, hdim, sliceOf_eq_some (Nat.zero_le _)]
  rfl

/-- **Which features `predict` handles.**  Of an array, those each valid row of which is read at
its own slots: `value_offset` is exact below `2 ^ 31` items.  Of scalars, those that stand for no
more than one row, and empty vectors without a bitmap: past row 0 the loop reads out of bounds. -/
theorem predict_handles_iff (operand : ListOperand) (array : Float32Array) (rows : ℕ)
    (hvalues : operand.list.values = .float32 array) (hrows : StandsFor operand rows) :
    Handles operand array rows ↔
      if operand.isScalar then rows ≤ 1 ∨ operand.list.dim = 0 ∧ operand.list.nulls = none
      else ∀ row < rows, operand.list.isValid row = true →
        operand.list.slotsFrom array (operand.list.start row) =
          operand.list.slotsFrom array (row * operand.list.dim) := by
  rw [handles_iff_reads hvalues]
  obtain ⟨list, isScalar⟩ := operand
  cases isScalar with
  | false =>
    have hlen : list.len = rows := hrows
    rw [if_neg Bool.false_ne_true]
    refine forall₂_congr fun row hrow => ?_
    show readRow list array.values list.dim row = some (if list.isValid row then
      some (list.slotsFrom array (row * list.dim)) else none) ↔ _
    rw [readRow_of_lt hvalues (hlen ▸ hrow)]
    cases hvalid : list.isValid row with
    | false | true => simp
  | true =>
    have hlen : list.len = 1 := hrows
    rw [if_pos rfl]
    constructor
    · intro hread
      by_cases hone : rows ≤ 1
      · exact .inl hone
      · rcases readRow_of_le hvalues hlen with hnone | hempty
        · have h := hread 1 (by omega)
          rw [show readRow _ _ _ 1 = none from hnone] at h
          cases h
        · exact .inr hempty
    · rintro (hone | ⟨hdim, hnulls⟩) row hrow
      · obtain rfl : row = 0 := by omega
        show readRow list array.values list.dim 0 = some (if list.isValid 0 then
          some (list.slotsFrom array (0 * list.dim)) else none)
        rw [readRow_of_lt hvalues (hlen ▸ Nat.one_pos), list.start_zero, Nat.zero_mul]
      · show readRow list array.values list.dim row = some (if list.isValid 0 then
          some (list.slotsFrom array (0 * list.dim)) else none)
        rw [readRow_of_empty hdim hnulls, isValid, hnulls,
          slotsFrom, hdim]
        rfl

/-- The last three of four vectors, the second of them `NULL`. -/
def slicedFeatures : ListOperand :=
  ⟨.ofRows 2 twoItems_pos ([7, 8, 1, 2, 3, 4, 5, 6].drop 2) ([true, true, false, true].drop 1)
    (by decide), false⟩

theorem predict_handles_iff_slicedFeatures :
    Handles slicedFeatures ⟨[7, 8, 1, 2, 3, 4, 5, 6].drop 2, none, nofun⟩ 3 :=
  (predict_handles_iff slicedFeatures _ 3 rfl rfl).mpr (by decide)

/-- A scalar of one feature. -/
def oneFeature : ListOperand :=
  ⟨.ofRows 1 oneItem_pos [0x3F800000#32] [true] (by decide), true⟩


/-- Two rows of a scalar: the call panics. -/
theorem predict_scalar_panics :
    StandsFor oneFeature 2 ∧
      ActsOnRows (identityModel 1).forward 1 1 id ∧
      invokeWithArgs (fun _ _ => .ok (identityModel 1))
        [.scalar (.utf8 (some "identity")), oneFeature.value] 2 =
          .error (.panicked "index out of bounds") :=
  ⟨rfl, identityModel_actsOnRows 1, rfl⟩

end Calls

end Predict

end OxideLake
