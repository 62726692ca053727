import OxideLake.Compute.Predict
import OxideLake.Device.ColumnTransfer
import OxideLake.Foundations.TwoRuns

/-!
# Bytes under `NULL`s

Two batches are logically equal when their `NULL`s are the same, of rows and of list items, and
so are their values elsewhere.  Under a `NULL` their bytes may differ.  The distance kernel, the
distance functions and `predict` leave out the `NULL` rows and read the slots of the other rows
raw, from the row's `value_offset` on.

Every one of them reads a list through `is_null` and these slots only (`ReadsAlike`).  So no
result depends on a hidden byte exactly if the slots read for the valid rows are valid items of
valid rows (`oblivious_iff`).
-/

namespace OxideLake

open List RowMajor Partial TwoRuns Kernels

/-! ## Logical equality -/

/-- Batches of the same fields and number of rows, with logically equal columns. -/
structure RecordBatch.LogicallyEqual (a b : RecordBatch) : Prop where
  metadata : a.metadata = b.metadata
  numRows : a.numRows = b.numRows
  entries : List.Forall₂ (fun x y => x.1 = y.1 ∧ x.2.LogicallyEqual y.2) a.entries b.entries

/-- Stored batches that are equal but for the bytes under their `NULL`s. -/
def StoredBatch.LogicallyEqual (s t : StoredBatch) : Prop := s.batch.LogicallyEqual t.batch

theorem Cell.Same.refl (cell : Cell) : cell.Same cell := by
  cases cell with
  | vector items => exact forall₂_same.mpr fun item _ => ⟨rfl, fun _ => rfl⟩
  | _ => rfl

theorem Column.LogicallyEqual.refl (column : Column) : column.LogicallyEqual column := by
  refine ⟨rfl, forall₂_same.mpr fun cell _ => ?_⟩
  cases cell with
  | none => exact .none
  | some value => exact .some (Cell.Same.refl value)

theorem FieldFits.of_logicallyEqual {numRows : ℕ} {field : Field} {a b : Column}
    (h : FieldFits numRows field a) (hab : a.LogicallyEqual b) : FieldFits numRows field b := by
  obtain ⟨htype, hlen, hnulls⟩ := h
  refine ⟨hab.1 ▸ htype, hab.2.length_eq.symm.trans hlen, fun hnullable hnone => ?_⟩
  obtain ⟨cell, hcell, hrel⟩ := forall₂_exists_left hab.2 hnone
  cases hrel
  exact hnulls hnullable hcell

namespace FixedSizeListArray

variable {a b list : FixedSizeListArray} {array array' : Float32Array} {row : ℕ}

/-- What logically equal lists have in common. -/
structure Agrees (a b : FixedSizeListArray) : Prop where
  valueLength : a.valueLength = b.valueLength
  valueType : a.values.valueType = b.values.valueType
  len : a.len = b.len
  isValid : ∀ row < a.len, a.isValid row = b.isValid row
  items : ∀ {array array'}, a.values = .float32 array → b.values = .float32 array' →
    ∀ row < a.len, a.isValid row = true →
      List.Forall₂ ListItem.Same (a.items array row) (b.items array' row)

theorem cell_isSome (list : FixedSizeListArray) (row : ℕ) :
    (list.cell row).isSome = list.isValid row := by
  rw [cell]
  cases list.isValid row <;> rfl

theorem agrees_of_logicallyEqual (h : a.toColumn.LogicallyEqual b.toColumn) : a.Agrees b := by
  obtain ⟨htype, hcells⟩ := h
  have hlen : a.len = b.len := by
    rw [← a.toColumn_len, ← b.toColumn_len]
    exact hcells.length_eq
  have hcell : ∀ row < a.len, Option.Rel Cell.Same (a.cell row) (b.cell row) := by
    change List.Forall₂ _ ((range a.len).map a.cell) ((range b.len).map b.cell) at hcells
    rw [← hlen, forall₂_map_left_iff, forall₂_map_right_iff, forall₂_same] at hcells
    exact fun row hrow => hcells row (mem_range.mpr hrow)
  injection htype with _ hvalueType _ _ hsize
  refine ⟨Int32.toInt_inj.mp hsize, hvalueType, hlen, fun row hrow => ?_, ?_⟩
  · rw [← cell_isSome, ← cell_isSome, isSome_eq_of_rel (hcell row hrow)]
  · intro array array' ha hb row hrow hvalid
    have hrel := hcell row hrow
    rw [cell_float32 ha, cell_float32 hb, hvalid, if_pos rfl] at hrel
    split at hrel
    · cases hrel with
      | some hsame => exact hsame
    · cases hrel

namespace Agrees

theorem dim (h : a.Agrees b) : a.dim = b.dim := by
  rw [FixedSizeListArray.dim, FixedSizeListArray.dim, h.valueLength]

theorem start (h : a.Agrees b) (row : ℕ) : a.start row = b.start row := by
  rw [FixedSizeListArray.start, FixedSizeListArray.start, valueOffset, valueOffset, h.valueLength]

end Agrees

/-! ## What is read -/

/-- A slot whose value can be seen: a valid item of a valid row. -/
def Visible (list : FixedSizeListArray) (array : Float32Array) (slot : ℕ) : Prop :=
  list.isValid (slot / list.dim) = true ∧ validBit array.nulls slot = true

/-- Every slot that is read for a valid row can be seen. -/
def ReadsVisible (list : FixedSizeListArray) (array : Float32Array) : Prop :=
  ∀ row < list.len, list.isValid row = true → ∀ k < list.dim,
    list.Visible array (list.start row + k)

/-- Two lists that read alike, up to a number of rows: the same rows are `NULL`, and for the
others the same slots are read. -/
structure ReadsAlike (rows : ℕ) (a b : FixedSizeListArray) : Prop where
  valueLength : a.valueLength = b.valueLength
  valueType : a.values.valueType = b.values.valueType
  isNull : ∀ row < rows, a.isNull row = b.isNull row
  slice : ∀ {array array'}, a.values = .float32 array → b.values = .float32 array' →
    ∀ row < rows, a.isNull row = some false →
      sliceOf array.values (a.start row) a.dim = sliceOf array'.values (b.start row) b.dim

/-- **A visible slot** has the same value in logically equal lists. -/
theorem Agrees.raw_eq (h : a.Agrees b) (ha : a.values = .float32 array)
    (hb : b.values = .float32 array') {slot : ℕ} (hslot : slot < a.len * a.dim)
    (hvisible : a.Visible array slot) : (array.item slot).raw = (array'.item slot).raw := by
  have hpos : 0 < a.dim := Nat.pos_of_mul_pos_left (Nat.zero_lt_of_lt hslot)
  have hrow : slot / a.dim < a.len := Nat.div_lt_of_lt_mul (Nat.mul_comm _ _ ▸ hslot)
  have hitems := h.items ha hb (slot / a.dim) hrow hvisible.1
  rw [FixedSizeListArray.items, FixedSizeListArray.items, ← h.dim, forall₂_map_left_iff,
    forall₂_map_right_iff, forall₂_same] at hitems
  have hsame := hitems (slot % a.dim) (mem_range.mpr (Nat.mod_lt slot hpos))
  rw [Nat.div_add_mod'] at hsame
  exact hsame.2 hvisible.2

theorem Agrees.readsAlike (h : a.Agrees b)
    (hvisible : ∀ array, a.values = .float32 array → a.ReadsVisible array) :
    ReadsAlike a.len a b := by
  have hnull : ∀ row < a.len, a.isNull row = b.isNull row := fun row hrow => by
    rw [isNull_of_lt hrow, isNull_of_lt (h.len ▸ hrow), h.isValid row hrow]
  refine ⟨h.valueLength, h.valueType, hnull, ?_⟩
  intro array array' ha hb row hrow hread
  rw [isNull_of_lt hrow, Option.some.injEq, Bool.not_eq_false'] at hread
  have hrow' : row < b.len := h.len ▸ hrow
  have hend := row_le ha hrow
  have hend' := row_le hb hrow'
  have hstart := a.start_le row
  have hstart' := b.start_le row
  rw [sliceOf_start ha hrow, sliceOf_start hb hrow', slotsFrom_eq_map (by omega),
    slotsFrom_eq_map (by omega), ← h.dim, ← h.start row]
  refine congrArg some (map_congr_left fun k hk => ?_)
  have hk := mem_range.mp hk
  refine h.raw_eq ha hb ?_ (hvisible array ha row hrow hread k hk)
  have hnext : row * a.dim + a.dim ≤ a.len * a.dim :=
    Nat.succ_mul row a.dim ▸ Nat.mul_le_mul_right a.dim hrow
  omega

namespace ReadsAlike

variable {rows : ℕ}

theorem refl (rows : ℕ) (list : FixedSizeListArray) : ReadsAlike rows list list where
  valueLength := rfl
  valueType := rfl
  isNull := fun _ _ => rfl
  slice := fun ha hb _ _ _ => by
    cases ha.symm.trans hb
    rfl

theorem dim (h : ReadsAlike rows a b) : a.dim = b.dim := by
  rw [FixedSizeListArray.dim, FixedSizeListArray.dim, h.valueLength]

theorem values (h : ReadsAlike rows a b) :
    (∃ array array', a.values = .float32 array ∧ b.values = .float32 array') ∨
      ∃ itemType notFloat bytes bytes', a.values = .other itemType notFloat bytes ∧
        b.values = .other itemType notFloat bytes' := by
  have htype := h.valueType
  cases ha : a.values with
  | float32 array =>
    cases hb : b.values with
    | float32 array' => exact .inl ⟨array, array', rfl, rfl⟩
    | other itemType notFloat bytes =>
      rw [ha, hb] at htype
      exact absurd htype.symm notFloat
  | other itemType notFloat bytes =>
    cases hb : b.values with
    | float32 array' =>
      rw [ha, hb] at htype
      exact absurd htype notFloat
    | other itemType' notFloat' bytes' =>
      rw [ha, hb] at htype
      cases htype
      exact .inr ⟨itemType, notFloat, bytes, bytes', rfl, rfl⟩

end ReadsAlike

end FixedSizeListArray

/-- Arrays that read alike: of what is no list, the type alone is looked at. -/
inductive ArrayRef.Alike (rows : ℕ) : ArrayRef → ArrayRef → Prop where
  | fixedSizeList {a b : FixedSizeListArray} (h : FixedSizeListArray.ReadsAlike rows a b) :
      Alike rows (.fixedSizeList a) (.fixedSizeList b)
  | other {c c' : Column} {notList : c.dataType.isFixedSizeList = false}
      {notList' : c'.dataType.isFixedSizeList = false} (h : c.dataType = c'.dataType) :
      Alike rows (.other c notList) (.other c' notList')

/-- Arguments that read alike; a constant is the same in both runs. -/
inductive ColumnarValue.Alike (rows : ℕ) : ColumnarValue → ColumnarValue → Prop where
  | array {x y : ArrayRef} (h : x.Alike rows y) : Alike rows (.array x) (.array y)
  | scalar (value : Scalar) : Alike rows (.scalar value) (.scalar value)

namespace StoredBatch

variable {s t : StoredBatch}

/-- The lists of the batch are read where they can be seen. -/
def ReadsVisible (stored : StoredBatch) : Prop :=
  ∀ list, .fixedSizeList list ∈ stored.arrays → ∀ array, list.values = .float32 array →
    list.ReadsVisible array

theorem arrays_logicallyEqual (h : s.LogicallyEqual t) :
    List.Forall₂ (fun x y => x.toColumn.LogicallyEqual y.toColumn) s.arrays t.arrays := by
  have hentries := h.entries
  change List.Forall₂ _ (s.entries.map _) (t.entries.map _) at hentries
  rw [forall₂_map_left_iff, forall₂_map_right_iff] at hentries
  rw [arrays, arrays, forall₂_map_left_iff, forall₂_map_right_iff]
  exact hentries.imp fun x y hxy => hxy.2

/-- **Logically equal batches read alike** where only visible slots are read. -/
theorem arrays_alike (h : s.LogicallyEqual t) (hvisible : s.ReadsVisible) :
    List.Forall₂ (ArrayRef.Alike s.numRows) s.arrays t.arrays := by
  refine forall₂_imp_mem (arrays_logicallyEqual h) fun x hx y hxy => ?_
  cases x with
  | fixedSizeList a =>
    cases y with
    | fixedSizeList b =>
      rw [← len_eq hx]
      exact .fixedSizeList
        ((FixedSizeListArray.agrees_of_logicallyEqual hxy).readsAlike (hvisible a hx))
    | other c notList =>
      have htype : c.dataType = a.dataType := hxy.1.symm
      rw [htype] at notList
      cases notList
  | other c notList =>
    cases y with
    | fixedSizeList b =>
      have htype : c.dataType = b.dataType := hxy.1
      rw [htype] at notList
      cases notList
    | other c' notList' => exact .other hxy.1

end StoredBatch

/-! ## The kernel -/

section Kernel

variable {ops : Float32Ops} {s t : StoredBatch} {a b : FixedSizeListArray}
  {array array' : Float32Array} {query : List F32} {metric : DistanceMetric} {name : String}
  {rows row c : ℕ}

theorem rowDistance_alike (h : FixedSizeListArray.ReadsAlike rows a b)
    (ha : a.values = .float32 array) (hb : b.values = .float32 array') (hrow : row < rows) :
    rowDistance ops a array.values a.dim query metric row =
      rowDistance ops b array'.values b.dim query metric row := by
  rw [rowDistance, rowDistance, ← h.isNull row hrow]
  refine bind_unless_congr fun hnull => ?_
  rw [h.slice ha hb row hrow (EngineError.orPanic_eq_ok hnull)]

theorem RecordBatch.LogicallyEqual.tryNew_append {x y : RecordBatch} (h : x.LogicallyEqual y)
    {field : Field} {column : Column} (hfits : FieldFits x.numRows field column) :
    SameRun RecordBatch.LogicallyEqual
      (tryNew ⟨x.schema.fields ++ [field], []⟩ (x.columns ++ [column]))
      (tryNew ⟨y.schema.fields ++ [field], []⟩ (y.columns ++ [column])) := by
  rw [x.tryNew_append_eq hfits, y.tryNew_append_eq (h.numRows ▸ hfits)]
  refine .ok ⟨rfl, h.numRows, ?_⟩
  exact rel_append h.entries (.cons ⟨rfl, Column.LogicallyEqual.refl column⟩ .nil)

/-- **The kernel** tells batches that read alike apart by nothing but their hidden bytes. -/
theorem vectorDistance_sameRun (h : s.LogicallyEqual t)
    (halike : List.Forall₂ (ArrayRef.Alike s.numRows) s.arrays t.arrays) :
    SameRun RecordBatch.LogicallyEqual (s.vectorDistance ops c query metric name)
      (t.vectorDistance ops c query metric name) := by
  have hrows : s.numRows = t.numRows := h.numRows
  rw [StoredBatch.vectorDistance, StoredBatch.vectorDistance]
  cases hx : s.arrays[c]? with
  | none =>
    have hy : t.arrays[c]? = none :=
      getElem?_eq_none (halike.length_eq ▸ getElem?_eq_none_iff.mp hx)
    have hcolumns : s.batch.numColumns = t.batch.numColumns := h.entries.length_eq
    rw [hy, hcolumns]
    exact .error _
  | some x =>
    obtain ⟨y, hy, hxy⟩ := forall₂_getElem? halike hx
    rw [hy]
    cases hxy with
    | other htype =>
      dsimp only
      rw [htype]
      exact .error _
    | fixedSizeList hab =>
      rcases hab.values with ⟨array, array', ha, hb⟩ | ⟨_, _, _, _, ha, hb⟩
      · dsimp only
        rw [ha, hb]
        dsimp only
        rw [hab.valueLength]
        split
        · exact .error _
        · split
          · exact .error _
          · rw [← hrows, mapM_congr fun row hrow =>
              rowDistance_alike hab ha hb (mem_range.mp hrow)]
            cases hdistances : (range s.numRows).mapM
                (rowDistance ops _ array'.values _ query metric) with
            | error e => exact .error e
            | ok distances =>
              refine h.tryNew_append ⟨rfl, ?_, fun hnullable => by cases hnullable⟩
              have hlen := (mapM_eq_ok_iff.mp hdistances).length_eq
              rw [length_range] at hlen
              exact (length_map _).trans hlen.symm
      · dsimp only
        rw [ha, hb]
        exact .error _

end Kernel

/-! ## The distance functions -/

/-- List arguments that read alike, at the rows they are read at. -/
structure ListOperand.Alike (rows : ℕ) (a b : ListOperand) : Prop where
  isScalar : a.isScalar = b.isScalar
  list : FixedSizeListArray.ReadsAlike (if a.isScalar then 1 else rows) a.list b.list

theorem ListOperand.Alike.row_eq {rows : ℕ} {a b : ListOperand} (h : a.Alike rows b) (row : ℕ) :
    a.row row = b.row row := by
  rw [ListOperand.row, ListOperand.row, h.isScalar]

namespace DistanceUdf

variable {ops : Float32Ops} {metric : DistanceMetric} {x y : ColumnarValue}
  {a a' b b' : ListOperand} {rows row : ℕ}

theorem fixedSizeList_alike (name : String) (h : x.Alike rows y) :
    SameRun (ListOperand.Alike rows) (fixedSizeList name x) (fixedSizeList name y) := by
  cases h with
  | array h =>
    cases h with
    | fixedSizeList h => exact .ok ⟨rfl, h⟩
    | other htype =>
      rw [fixedSizeList, fixedSizeList, htype]
      exact .error _
  | scalar value =>
    cases value with
    | fixedSizeList list => exact .ok ⟨rfl, .refl 1 list⟩
    | _ => exact .error _

theorem floatValues_alike (name : String) {a b : FixedSizeListArray}
    (h : FixedSizeListArray.ReadsAlike rows a b) :
    SameRun (fun p q => ∃ array array', a.values = .float32 array ∧ b.values = .float32 array' ∧
      p = (array.values, a.dim) ∧ q = (array'.values, b.dim))
      (floatValues name a) (floatValues name b) := by
  rcases h.values with ⟨array, array', ha, hb⟩ | ⟨_, _, _, _, ha, hb⟩
  · rw [floatValues_eq name ha, floatValues_eq name hb]
    exact .ok ⟨array, array', ha, hb, rfl, rfl⟩
  · rw [floatValues, floatValues, ha, hb]
    exact .error _

theorem row_lt (h : a.isScalar = true ∨ row < rows) :
    a.row row < if a.isScalar then 1 else rows := by
  rw [ListOperand.row]
  split
  · exact Nat.one_pos
  · next hscalar => exact h.resolve_left hscalar

theorem distance_alike (ha : a.Alike rows a') (hb : b.Alike rows b')
    {aArray aArray' bArray bArray' : Float32Array}
    (hav : a.list.values = .float32 aArray) (hav' : a'.list.values = .float32 aArray')
    (hbv : b.list.values = .float32 bArray) (hbv' : b'.list.values = .float32 bArray')
    (harow : a.isScalar = true ∨ row < rows) (hbrow : b.isScalar = true ∨ row < rows) :
    distance ops metric a b aArray.values bArray.values a.list.dim b.list.dim row =
      distance ops metric a' b' aArray'.values bArray'.values a.list.dim b.list.dim row := by
  have halt := row_lt harow
  have hblt := row_lt hbrow
  rw [distance, distance, ← ha.row_eq, ← hb.row_eq, ← ha.list.isNull _ halt,
    ← hb.list.isNull _ hblt, slice, slice, slice, slice]
  refine bind_unless_congr fun hanull => bind_unless_congr fun hbnull => ?_
  rw [ha.list.slice hav hav' _ halt (DataFusionError.orPanic_eq_ok hanull),
    hb.list.slice hbv hbv' _ hblt (DataFusionError.orPanic_eq_ok hbnull), ha.list.dim,
    hb.list.dim]

/-- **The distance functions** return the same for arguments that read alike. -/
theorem invokeWithArgs_alike {args args' : List ColumnarValue}
    (h : List.Forall₂ (ColumnarValue.Alike rows) args args') :
    invokeWithArgs ops metric args rows = invokeWithArgs ops metric args' rows := by
  rcases h with _ | ⟨hx, _ | ⟨hy, _ | ⟨hz, hrest⟩⟩⟩
  · rfl
  · rfl
  · refine SameRun.eq ?_
    refine (fixedSizeList_alike _ hx).bind fun a a' ha => ?_
    refine (fixedSizeList_alike _ hy).bind fun b b' hb => ?_
    refine (floatValues_alike _ ha.list).bind fun p q hpq => ?_
    obtain ⟨aArray, aArray', hav, hav', rfl, rfl⟩ := hpq
    refine (floatValues_alike _ hb.list).bind fun p q hpq => ?_
    obtain ⟨bArray, bArray', hbv, hbv', rfl, rfl⟩ := hpq
    dsimp only
    rw [← ha.list.dim, ← hb.list.dim, ← ha.isScalar, ← hb.isScalar]
    split
    · exact .error _
    · split
      · next hscalars =>
        obtain ⟨hascalar, hbscalar⟩ := Bool.and_eq_true_iff.mp hscalars
        rw [distance_alike ha hb hav hav' hbv hbv' (.inl hascalar) (.inl hbscalar)]
        exact .refl _
      · rw [mapM_congr fun row hrow => distance_alike ha hb hav hav' hbv hbv'
          (.inr (mem_range.mp hrow)) (.inr (mem_range.mp hrow))]
        exact .refl _
  · show Except.error _ = Except.error _
    simp only [length_cons, hrest.length_eq]

end DistanceUdf

/-! ## `predict` -/

namespace Predict

variable {x y : ColumnarValue} {a b : FixedSizeListArray} {array array' : Float32Array} {rows : ℕ}

theorem constantString_alike (h : x.Alike rows y) : constantString x = constantString y := by
  cases h <;> rfl

theorem activationArgument_alike (h : x.Alike rows y) :
    activationArgument x = activationArgument y := by
  rw [activationArgument, activationArgument, constantString_alike h]

theorem featureList_alike (h : x.Alike rows y) :
    SameRun (FixedSizeListArray.ReadsAlike rows) (featureList x) (featureList y) := by
  cases h with
  | array h =>
    cases h with
    | fixedSizeList h => exact .ok h
    | other htype =>
      rw [featureList, featureList, htype]
      exact .error _
  | scalar value =>
    cases value with
    | fixedSizeList list => exact .ok (.refl rows list)
    | _ => exact .error _

theorem featureValues_alike (h : FixedSizeListArray.ReadsAlike rows a b) :
    SameRun (fun p q => ∃ array array', a.values = .float32 array ∧ b.values = .float32 array' ∧
      p = (array.values, a.dim) ∧ q = (array'.values, b.dim))
      (featureValues a) (featureValues b) := by
  rcases h.values with ⟨array, array', ha, hb⟩ | ⟨_, _, _, _, ha, hb⟩
  · rw [featureValues_eq ha, featureValues_eq hb]
    exact .ok ⟨array, array', ha, hb, rfl, rfl⟩
  · rw [featureValues, featureValues, ha, hb]
    exact .error _

theorem fill_alike (h : FixedSizeListArray.ReadsAlike rows a b) (ha : a.values = .float32 array)
    (hb : b.values = .float32 array') :
    fill a array.values a.dim rows = fill b array'.values b.dim rows := by
  rw [fill, fill, ← h.dim]
  refine foldlM_congr (fun row hrow state => ?_) _
  have hrow := mem_range.mp hrow
  rw [fillRow, fillRow, ← h.isNull row hrow]
  refine Option.bind_congr fun null hnull => ite_congr rfl (fun _ => rfl) fun hvalid => ?_
  rw [Bool.eq_false_of_not_eq_true hvalid] at hnull
  rw [h.slice ha hb row hrow hnull, h.dim]

/-- Arguments that read alike answer alike. -/
theorem run_alike {load : Loader} {path path' features features' : ColumnarValue}
    {activation activation' : Option ColumnarValue}
    (hpath : constantString path = constantString path') (hfeatures : features.Alike rows features')
    (hactivation : activation.mapM activationArgument = activation'.mapM activationArgument) :
    run load path features activation rows = run load path' features' activation' rows := by
  refine SameRun.eq ?_
  rw [run, run, modelPath, modelPath, hpath, hactivation]
  refine (SameRun.refl _).bind fun name _ hname => hname ▸ ?_
  refine (SameRun.refl _).bind fun asserted _ hasserted => hasserted ▸ ?_
  refine (SameRun.refl _).bind fun model _ hmodel => hmodel ▸ ?_
  refine (featureList_alike hfeatures).bind fun a b hab => ?_
  refine (featureValues_alike hab).bind fun p q hpq => ?_
  obtain ⟨array, array', ha, hb, rfl, rfl⟩ := hpq
  dsimp only
  rw [fill_alike hab ha hb, hab.dim]
  exact .refl _

/-- **`predict`** returns the same for arguments that read alike. -/
theorem invokeWithArgs_alike {load : Loader} {args args' : List ColumnarValue}
    (h : List.Forall₂ (ColumnarValue.Alike rows) args args') :
    invokeWithArgs load args rows = invokeWithArgs load args' rows := by
  rcases h with _ | ⟨hx, _ | ⟨hy, _ | ⟨hz, _ | ⟨hw, hrest⟩⟩⟩⟩
  · rfl
  · rfl
  · exact run_alike (constantString_alike hx) hy rfl
  · refine run_alike (constantString_alike hx) hy ?_
    exact congrArg (some <$> ·) (activationArgument_alike hz)
  · show Except.error _ = Except.error _
    simp only [length_cons, hrest.length_eq]

end Predict

/-! ## Calls over a batch -/

/-- An argument of a call over a batch: a column of the batch or a constant. -/
inductive Argument where
  | column (index : ℕ)
  | constant (value : Scalar)

/-- The value of an argument, if the batch has the column. -/
def Argument.value (stored : StoredBatch) : Argument → Option ColumnarValue
  | .column index => (stored.arrays[index]?).map .array
  | .constant value => some (.scalar value)

/-- A function called over the rows of a batch. -/
def StoredBatch.call {α : Type} (function : List ColumnarValue → ℕ → DFResult α)
    (args : List Argument) (stored : StoredBatch) : Option (DFResult α) :=
  (args.mapM (Argument.value stored)).map fun values => function values stored.numRows

namespace StoredBatch

variable {s t : StoredBatch}

/-- **No result depends on a byte under a `NULL`**: a batch that is logically equal looks the
same to the distance kernel, to the distance functions and to `predict`, whatever they are asked
for and whichever models there are. -/
structure Oblivious (ops : Float32Ops) (s : StoredBatch) : Prop where
  kernel : ∀ t, s.LogicallyEqual t → ∀ column query metric name,
    SameRun RecordBatch.LogicallyEqual (s.vectorDistance ops column query metric name)
      (t.vectorDistance ops column query metric name)
  distance : ∀ t, s.LogicallyEqual t → ∀ metric args,
    s.call (DistanceUdf.invokeWithArgs ops metric) args =
      t.call (DistanceUdf.invokeWithArgs ops metric) args
  predict : ∀ t, s.LogicallyEqual t → ∀ load args,
    s.call (Predict.invokeWithArgs load) args = t.call (Predict.invokeWithArgs load) args

theorem value_alike (h : List.Forall₂ (ArrayRef.Alike s.numRows) s.arrays t.arrays)
    (arg : Argument) :
    Option.Rel (ColumnarValue.Alike s.numRows) (arg.value s) (arg.value t) := by
  cases arg with
  | constant value => exact .some (.scalar value)
  | column index =>
    rw [Argument.value, Argument.value]
    cases hx : s.arrays[index]? with
    | none =>
      rw [getElem?_eq_none (h.length_eq ▸ getElem?_eq_none_iff.mp hx)]
      exact .none
    | some x =>
      obtain ⟨y, hy, hxy⟩ := forall₂_getElem? h hx
      rw [hy]
      exact .some (.array hxy)

theorem call_alike {α : Type} {function : List ColumnarValue → ℕ → DFResult α}
    (hfunction : ∀ {args args'}, List.Forall₂ (ColumnarValue.Alike s.numRows) args args' →
      function args s.numRows = function args' s.numRows)
    (hrows : s.numRows = t.numRows)
    (h : List.Forall₂ (ArrayRef.Alike s.numRows) s.arrays t.arrays) (args : List Argument) :
    s.call function args = t.call function args := by
  have hvalues := rel_mapM fun arg (_ : arg ∈ args) => value_alike h arg
  rw [call, call, ← hrows]
  generalize args.mapM (Argument.value s) = x, args.mapM (Argument.value t) = y at hvalues
  cases hvalues with
  | none => rfl
  | some hargs => exact congrArg some (hfunction hargs)

theorem oblivious_of_readsVisible (ops : Float32Ops) (h : s.ReadsVisible) : s.Oblivious ops where
  kernel := fun _ hst _ _ _ _ => vectorDistance_sameRun hst (arrays_alike hst h)
  distance := fun _ hst _ args =>
    call_alike DistanceUdf.invokeWithArgs_alike hst.numRows (arrays_alike hst h) args
  predict := fun _ hst _ args =>
    call_alike Predict.invokeWithArgs_alike hst.numRows (arrays_alike hst h) args

end StoredBatch

/-! ## Changing a hidden slot -/

/-- The child with another value in a slot. -/
def Float32Array.setSlot (array : Float32Array) (slot : ℕ) (value : F32) : Float32Array where
  values := array.values.set slot value
  nulls := array.nulls
  nulls_len := fun bits hbits => (array.nulls_len bits hbits).trans length_set.symm

/-- The list with another value in a slot of its child. -/
def FixedSizeListArray.setSlot (list : FixedSizeListArray) {array : Float32Array}
    (h : list.values = .float32 array) (slot : ℕ) (value : F32) : FixedSizeListArray :=
  { list with
    values := .float32 (array.setSlot slot value)
    values_hold := by
      have hholds := list.values_hold
      rw [h] at hholds
      rw [ListValues.Holds, Float32Array.setSlot, length_set]
      exact hholds }

section SetSlot

variable {list : FixedSizeListArray} {array : Float32Array} {slot : ℕ} {value : F32}

theorem item_setSlot_ne {i : ℕ} (h : slot ≠ i) :
    (array.setSlot slot value).item i = array.item i := by
  rw [Float32Array.item, Float32Array.item, Float32Array.setSlot, getElem?_set_ne h]

theorem item_setSlot_self (h : slot < array.values.length) :
    ((array.setSlot slot value).item slot).raw = value := by
  rw [Float32Array.item, Float32Array.setSlot, getElem?_set_self h, Option.getD_some]

theorem item_setSlot_same {row k : ℕ} (hhidden : ¬ list.Visible array slot)
    (hvalid : list.isValid row = true) (hk : k < list.dim) :
    (array.item (row * list.dim + k)).Same
      ((array.setSlot slot value).item (row * list.dim + k)) := by
  by_cases hslot : slot = row * list.dim + k
  · have hrow : slot / list.dim = row := hslot ▸ index_div hk
    exact ⟨rfl, fun hitem => absurd ⟨hrow.symm ▸ hvalid, hslot ▸ hitem⟩ hhidden⟩
  · rw [item_setSlot_ne hslot]
    exact ⟨rfl, fun _ => rfl⟩

theorem setSlot_logicallyEqual (h : list.values = .float32 array)
    (hhidden : ¬ list.Visible array slot) :
    list.toColumn.LogicallyEqual (list.setSlot h slot value).toColumn := by
  have hvalues : (list.setSlot h slot value).values = .float32 (array.setSlot slot value) := rfl
  constructor
  · show list.dataType = (list.setSlot h slot value).dataType
    rw [FixedSizeListArray.dataType, h]
    rfl
  · show List.Forall₂ _ ((range list.len).map list.cell)
      ((range list.len).map (list.setSlot h slot value).cell)
    rw [forall₂_map_left_iff, forall₂_map_right_iff, forall₂_same]
    intro row _
    rw [FixedSizeListArray.cell_float32 h, FixedSizeListArray.cell_float32 hvalues]
    show Option.Rel _ _ (if list.isValid row = true then _ else _)
    split
    · next hvalid =>
      refine .some ?_
      show List.Forall₂ _ ((range list.dim).map _) ((range list.dim).map _)
      rw [forall₂_map_left_iff, forall₂_map_right_iff, forall₂_same]
      exact fun k hk => item_setSlot_same hhidden hvalid (mem_range.mp hk)
    · exact .none

end SetSlot

namespace StoredBatch

variable {s : StoredBatch} {field : Field} {ref : ArrayRef} {i : ℕ}

/-- The batch with another array under a field. -/
def setArray (s : StoredBatch) (i : ℕ) (field : Field) (ref : ArrayRef)
    (h : FieldFits s.numRows field ref.toColumn) : StoredBatch :=
  { s with
    entries := s.entries.set i (field, ref)
    fits := by
      intro entry hentry
      rcases mem_or_eq_of_mem_set hentry with hold | rfl
      · exact s.fits entry hold
      · exact h }

theorem setArray_logicallyEqual {old : ArrayRef} (hi : s.entries[i]? = some (field, old))
    (h : FieldFits s.numRows field ref.toColumn)
    (hsame : old.toColumn.LogicallyEqual ref.toColumn) :
    s.LogicallyEqual (s.setArray i field ref h) := by
  refine ⟨rfl, rfl, ?_⟩
  show List.Forall₂ _ (s.entries.map _) ((s.entries.set i (field, ref)).map _)
  rw [forall₂_map_left_iff, forall₂_map_right_iff]
  refine forall₂_set (fun entry => ⟨rfl, Column.LogicallyEqual.refl _⟩) fun entry hentry => ?_
  cases hi.symm.trans hentry
  exact ⟨rfl, hsame⟩

theorem setArray_arrays {old : ArrayRef} (hi : s.entries[i]? = some (field, old))
    (h : FieldFits s.numRows field ref.toColumn) :
    (s.setArray i field ref h).arrays[i]? = some ref := by
  obtain ⟨hlt, -⟩ := List.getElem?_eq_some_iff.mp hi
  show ((s.entries.set i (field, ref)).map Prod.snd)[i]? = some ref
  rw [List.getElem?_map, List.getElem?_set_self hlt]
  rfl

theorem predict_shows {list : FixedSizeListArray} {array : Float32Array}
    (hi : s.arrays[i]? = some (.fixedSizeList list)) (hvalues : list.values = .float32 array) :
    s.call (Predict.invokeWithArgs fun _ _ => .ok (Predict.identityModel list.dim))
        [.constant (.utf8 (some "identity")), .column i] =
      some (.ok ((range s.numRows).map fun row =>
        if list.isValid row then some (list.slotsFrom array (list.start row)) else none)) := by
  have hlen : list.len = s.numRows := len_eq (mem_of_getElem? hi)
  have hargs : [.constant (.utf8 (some "identity")), .column i].mapM (Argument.value s) =
      some [.scalar (.utf8 (some "identity")), (⟨list, false⟩ : ListOperand).value] :=
    mapM_eq_some_iff.mpr (.cons rfl (.cons (congrArg (Option.map ColumnarValue.array) hi) .nil))
  have hinvoke := Predict.invoke_eq (Predict.identityModel_loads list.dim)
    (show (⟨list, false⟩ : ListOperand).list.values = .float32 array from hvalues) rfl
    (Predict.identityModel_actsOnRows list.dim)
    fun row (hrow : row < s.numRows) => Predict.readRow_of_lt hvalues (hlen ▸ hrow)
  simp only [Option.map_id, id] at hinvoke
  rw [call, hargs]
  exact congrArg some hinvoke

/-- An oblivious batch has in the slots it reads what every batch that is logically equal has. -/
theorem slots_eq_of_oblivious {ops : Float32Ops} {t : StoredBatch} (h : s.Oblivious ops)
    (hst : s.LogicallyEqual t) {list list' : FixedSizeListArray} {array array' : Float32Array}
    (hi : s.arrays[i]? = some (.fixedSizeList list)) (hvalues : list.values = .float32 array)
    (hi' : t.arrays[i]? = some (.fixedSizeList list')) (hvalues' : list'.values = .float32 array')
    {row : ℕ} (hrow : row < list.len) (hvalid : list.isValid row = true) :
    list.slotsFrom array (list.start row) = list'.slotsFrom array' (list'.start row) := by
  obtain ⟨ref, href, hsame⟩ := forall₂_getElem? (arrays_logicallyEqual hst) hi
  cases hi'.symm.trans href
  have hagrees := FixedSizeListArray.agrees_of_logicallyEqual hsame
  have hrows : s.numRows = t.numRows := hst.numRows
  have hshown := h.predict t hst (fun _ _ => .ok (Predict.identityModel list.dim))
    [.constant (.utf8 (some "identity")), .column i]
  have hshown' := predict_shows hi' hvalues'
  rw [← hagrees.dim, ← hrows] at hshown'
  rw [predict_shows hi hvalues, hshown'] at hshown
  have hcell := map_inj_left.mp (Except.ok.inj (Option.some.inj hshown)) row
    (mem_range.mpr (len_eq (mem_of_getElem? hi) ▸ hrow))
  rwa [if_pos hvalid, if_pos (hagrees.isValid row hrow ▸ hvalid), Option.some.injEq] at hcell

/-- **When hidden bytes stay hidden.**  No result depends on a byte under a `NULL` exactly if
every slot that is read for a valid row of a vector column, from its `value_offset` on, is a
valid item of a valid row: no `NULL` item stands in a valid row, and no wrapped offset leads to
one or to a `NULL` row. -/
theorem oblivious_iff (ops : Float32Ops) (s : StoredBatch) :
    s.Oblivious ops ↔
      ∀ list, .fixedSizeList list ∈ s.arrays → ∀ array, list.values = .float32 array →
        ∀ row < list.len, list.isValid row = true → ∀ k < list.dim,
          list.Visible array (list.start row + k) := by
  refine ⟨fun h list hlist array hvalues row hrow hvalid k hk => ?_,
    fun h => oblivious_of_readsVisible ops h⟩
  -- otherwise the slot can be changed without a trace, and a row shows the change
  by_contra hhidden
  obtain ⟨i, hi⟩ := mem_iff_getElem?.mp hlist
  obtain ⟨⟨field, _⟩, hentry, rfl⟩ := Option.map_eq_some_iff.mp (getElem?_map.symm.trans hi)
  have : Nontrivial F32 := ⟨0#32, 1#32, by decide⟩
  obtain ⟨value, hvalue⟩ := exists_ne (array.item (list.start row + k)).raw
  have hsame : list.toColumn.LogicallyEqual
      (list.setSlot hvalues (list.start row + k) value).toColumn :=
    setSlot_logicallyEqual hvalues hhidden
  have hfits : FieldFits s.numRows field
      (ArrayRef.fixedSizeList (list.setSlot hvalues (list.start row + k) value)).toColumn :=
    (s.fits _ (mem_of_getElem? hentry)).of_logicallyEqual hsame
  have hslots := slots_eq_of_oblivious h (setArray_logicallyEqual hentry hfits hsame) hi hvalues
    (setArray_arrays hentry hfits) rfl hrow hvalid
  have hend : list.start row + list.dim ≤ array.values.length :=
    (Nat.add_le_add_right (list.start_le row) _).trans (FixedSizeListArray.row_le hvalues hrow)
  have hend' : list.start row + list.dim ≤
      (array.setSlot (list.start row + k) value).values.length :=
    hend.trans length_set.ge
  have hraw := map_inj_left.mp ((FixedSizeListArray.slotsFrom_eq_map hend).symm.trans
    (hslots.trans (FixedSizeListArray.slotsFrom_eq_map hend'))) k (mem_range.mpr hk)
  exact hvalue (hraw.trans (item_setSlot_self (by omega))).symm

end StoredBatch

/-! ## A `NULL` item in a valid row -/

/-- One valid row, a vector whose only item is `NULL`. -/
def maskedItem (raw : F32) : FixedSizeListArray where
  itemName := "item"
  itemNullable := true
  itemMetadata := []
  valueLength := 1
  values := .float32 ⟨[raw], some [false], fun _ hbits => Option.some.inj hbits ▸ rfl⟩
  nulls := none
  len := 1
  valueLength_nonneg := by decide
  nulls_len := nofun
  values_hold := ⟨Nat.le_refl 1, fun _ => Nat.lt_succ_self 1⟩

/-- A batch of one column of vectors. -/
def StoredBatch.ofVectors (list : FixedSizeListArray) (hlen : list.len < 2 ^ 63) :
    StoredBatch where
  metadata := []
  entries := [(⟨"v", list.dataType, true, []⟩, .fixedSizeList list)]
  numRows := list.len
  fits := forall_mem_singleton.mpr ⟨rfl, list.toColumn_len, nofun⟩
  numRows_lt := hlen

def maskedBatch (raw : F32) : StoredBatch := .ofVectors (maskedItem raw) oneRow_lt

/-- Float operations on `0.0` and `1.0`, as far as distances from `0.0` take them. -/
def zeroOneOps : Float32Ops where
  add := fun x y => if x = 0#32 then y else x
  sub := fun x y => if y = 0#32 then x else 0#32
  mul := fun x y => if y = 0x3F800000#32 then x else 0#32
  div := fun x _ => x
  sqrt := id
  emptySum := 0#32
  isZero := fun x => x == 0#32

/-- Three vectors of two items, the second `NULL`, the first with a `NULL` item. -/
def maskedVectors : FixedSizeListArray where
  itemName := "item"
  itemNullable := true
  itemMetadata := []
  valueLength := 2
  values := .float32 ⟨[0x3F800000#32, 0#32, 0#32, 0x3F800000#32, 0#32, 0x3F800000#32],
    some [true, false, true, true, true, true], fun _ hbits => Option.some.inj hbits ▸ rfl⟩
  nulls := some [true, false, true]
  len := 3
  valueLength_nonneg := by decide
  nulls_len := fun _ hbits => Option.some.inj hbits ▸ rfl
  values_hold := ⟨Nat.le_refl 6, fun _ => Nat.lt_add_of_pos_right Nat.two_pos⟩

theorem vectorDistance_eq_kernel_masked :
    let fpu : FloatUnit := ⟨fun a _ => a, fun a _ => a, fun a _ => a, fun _ _ => 0, fun _ _ => 0⟩
    let stored := StoredBatch.ofVectors maskedVectors (by decide)
    stored.vectorDistance zeroOneOps 0 [0, 0] .l2 "d" =
        Kernels.vectorDistance (fpu.withOps zeroOneOps) stored.batch 0 [0, 0] .l2 "d" ∧
      (stored.vectorDistance zeroOneOps 0 [0, 0] .l2 "d").map
          (fun out => out.columns.getLast?.map Column.cells) =
        .ok (some [some (.float32 0x3F800000#32), none, some (.float32 0x3F800000#32)]) := by
  intro fpu stored
  refine ⟨StoredBatch.vectorDistance_eq_kernel fpu fun list hlist => ?_, rfl⟩
  cases hlist
  decide

/-- The query `[0.0]`. -/
def zeroQuery : FixedSizeListArray := .ofRows 1 oneItem_pos [0#32] [true] (by decide)

/-- Under the `NULL` item stands `0.0` or `1.0`: the kernel, `l2_distance` and `predict` return
that. -/
theorem masked_item_shows :
    (maskedBatch 0#32).LogicallyEqual (maskedBatch 0x3F800000#32) ∧
      ((maskedBatch 0#32).vectorDistance zeroOneOps 0 [0#32] .l2 "d").map
          (fun out => out.columns.getLast?.map Column.cells) =
        .ok (some [some (.float32 0#32)]) ∧
      ((maskedBatch 0x3F800000#32).vectorDistance zeroOneOps 0 [0#32] .l2 "d").map
          (fun out => out.columns.getLast?.map Column.cells) =
        .ok (some [some (.float32 0x3F800000#32)]) ∧
      (maskedBatch 0#32).call (DistanceUdf.invokeWithArgs zeroOneOps .l2)
          [.column 0, .constant (.fixedSizeList zeroQuery)] =
        some (.ok (.array [some 0#32])) ∧
      (maskedBatch 0x3F800000#32).call (DistanceUdf.invokeWithArgs zeroOneOps .l2)
          [.column 0, .constant (.fixedSizeList zeroQuery)] =
        some (.ok (.array [some 0x3F800000#32])) ∧
      (maskedBatch 0#32).call
          (Predict.invokeWithArgs fun _ _ => .ok (Predict.identityModel 1))
          [.constant (.utf8 (some "identity")), .column 0] =
        some (.ok [some [0#32]]) ∧
      (maskedBatch 0x3F800000#32).call
          (Predict.invokeWithArgs fun _ _ => .ok (Predict.identityModel 1))
          [.constant (.utf8 (some "identity")), .column 0] =
        some (.ok [some [0x3F800000#32]]) ∧
      ¬ (maskedBatch 0#32).Oblivious zeroOneOps := by
  have hsame : (maskedBatch 0#32).LogicallyEqual (maskedBatch 0x3F800000#32) :=
    ⟨rfl, rfl, .cons ⟨rfl, rfl, .cons (.some (.cons ⟨rfl, nofun⟩ .nil)) .nil⟩ .nil⟩
  refine ⟨hsame, rfl, rfl, rfl, rfl, rfl, rfl, fun h => ?_⟩
  have hshown : some (Except.ok (DistanceUdf.Output.array [some 0#32])) =
      some (Except.ok (.array [some 0x3F800000#32])) :=
    h.distance _ hsame .l2 [.column 0, .constant (.fixedSizeList zeroQuery)]
  cases hshown

end OxideLake
