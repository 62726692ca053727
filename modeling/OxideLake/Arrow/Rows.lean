import OxideLake.Arrow.RecordBatch
import Mathlib

/-!
# Batches as rows

What a query observes of a stream of batches is its rows, in order.  This module
gives the row view of the batch operations: a filtered batch keeps some rows, a
projected batch selects cells of every row, `concat_batches` appends rows.
-/

namespace OxideLake

open List

variable {batch : RecordBatch} {index : Nat} {batches : List RecordBatch} {row : Row}
  {schema : Schema}

/-! ## Rows -/

/-- One row: a cell a column, `none` for `NULL`. -/
abbrev Row := List (Option Cell)

/-- The cell of a row's column. -/
def Row.at (row : Row) (index : Nat) : Option Cell := (row[index]?).join

/-- The selected cells of a row. -/
def Row.select (row : Row) (indices : List Nat) : Row := indices.map row.at

/-- A row whose cells have the types of the schema's fields. -/
def Row.HasTypes (row : Row) (schema : Schema) : Prop :=
  ∀ index field, schema.fields[index]? = some field →
    ∀ value, row.at index = some value → value.hasType field.dataType = true

theorem Row.select_at {indices : List Nat} (row : Row) {j : Nat} (h : indices[j]? = some index) :
    Row.at (row.select indices) j = row.at index := by
  rw [Row.select, Row.at, getElem?_map, h]
  rfl

theorem Row.at_append_left (rest : Row) (h : index < row.length) :
    Row.at (row ++ rest) index = row.at index := by
  rw [Row.at, getElem?_append_left h, Row.at]

theorem Row.at_append_right (rest : Row) (h : row.length ≤ index) :
    Row.at (row ++ rest) index = rest.at (index - row.length) := by
  rw [Row.at, getElem?_append_right h, Row.at]

theorem Column.cells_eq_map_range (column : Column) :
    column.cells = (range column.len).map column.cell := by
  apply ext_getElem?
  intro i
  by_cases hi : i < column.cells.length
  · simp [cell, len, hi]
  · simp [len, hi]

namespace RecordBatch

theorem rows_eq_map_row (batch : RecordBatch) :
    batch.rows = (range batch.numRows).map batch.row := rfl

theorem row_at (batch : RecordBatch) (i index : Nat) :
    Row.at (batch.row i) index = (batch.columns[index]?).bind fun column => column.cell i := by
  rw [Row.at, row, getElem?_map]
  cases batch.columns[index]? <;> rfl

theorem entry_of_field {field : Field} (h : batch.schema.fields[index]? = some field) :
    ∃ column, batch.columns[index]? = some column ∧ column.dataType = field.dataType ∧
      column.len = batch.numRows := by
  rw [fields_getElem?, Option.map_eq_some_iff] at h
  obtain ⟨⟨field', column⟩, hentry, rfl⟩ := h
  have hfits := batch.fits _ (mem_of_getElem? hentry)
  refine ⟨column, ?_, hfits.1, hfits.2.1⟩
  rw [columns_getElem?, hentry, Option.map_some]

theorem row_hasTypes (batch : RecordBatch) (i : Nat) : Row.HasTypes (batch.row i) batch.schema := by
  intro index field hfield value hvalue
  obtain ⟨column, hcolumn, htype, -⟩ := entry_of_field hfield
  rw [row_at, hcolumn, Option.bind_some] at hvalue
  exact htype ▸ column.typed_cell hvalue

theorem mem_rows_hasTypes (h : row ∈ batch.rows) :
    row.HasTypes batch.schema := by
  obtain ⟨i, -, rfl⟩ := mem_map.mp h
  exact batch.row_hasTypes i

theorem at_ne_none (hrow : row ∈ batch.rows) {field : Field}
    (hfield : batch.schema.fields[index]? = some field) (hnullable : field.nullable = false) :
    Row.at row index ≠ none := by
  rw [fields_getElem?, Option.map_eq_some_iff] at hfield
  obtain ⟨⟨_, column⟩, hentry, rfl⟩ := hfield
  obtain ⟨-, hlen, hnone⟩ := batch.fits _ (mem_of_getElem? hentry)
  obtain ⟨i, hi, rfl⟩ := mem_map.mp hrow
  have hcell : i < column.cells.length := (mem_range.mp hi).trans_eq hlen.symm
  rw [row_at, columns_getElem?, hentry]
  intro hnull
  refine hnone hnullable ?_
  have hget : column.cells[i]?.join = none := hnull
  rw [getElem?_eq_getElem hcell] at hget
  exact hget ▸ getElem_mem hcell

/-! ## Rows of the batch operations -/

theorem SameColumns.rows_eq {a b : RecordBatch} (h : a.SameColumns b) : a.rows = b.rows := by
  rw [rows, rows, h.2]
  refine map_congr_left fun i _ => ?_
  rw [row, row, columns, columns, h.1]

theorem rows_filter (batch : RecordBatch) (mask : List (Option Bool)) :
    (batch.filter mask).rows = keep mask batch.rows := by
  rw [rows, rows, keep_map]
  apply ext_getElem
  · simp [filter]
  · intro n hn hn'
    have hlt : n < (keep mask (range batch.numRows)).length := by simpa using hn'
    rw [getElem_map, getElem_map, getElem_range, row, row, columns, columns]
    simp only [filter, map_map]
    refine map_congr_left fun entry hentry => ?_
    have hlen : entry.2.len = batch.numRows := (batch.fits entry hentry).2.1
    show (entry.2.filter mask).cell n = entry.2.cell _
    rw [Column.filter_eq_gather, hlen, Column.cell, Column.gather]
    simp [hlt]

theorem rows_project {out : RecordBatch} {indices : List Nat}
    (h : batch.project indices = .ok out) :
    out.rows = batch.rows.map (Row.select · indices) := by
  unfold project at h
  split at h
  · next entries hentries =>
    cases h
    rw [rows, rows, map_map]
    refine map_congr_left fun i _ => ?_
    show (entries.map Prod.snd).map (fun column => column.cell i) =
      indices.map (Row.at (batch.row i))
    rw [map_map, ← forall₂_eq_eq_eq, forall₂_map_left_iff,
      forall₂_map_right_iff]
    refine (Partial.mapM_eq_some_iff.mp hentries).flip.imp fun entry index hentry => ?_
    rw [row_at, columns_getElem?, hentry]
    rfl
  · cases h

theorem length_of_mem_rows (h : row ∈ batch.rows) :
    row.length = batch.numColumns := by
  obtain ⟨i, -, rfl⟩ := mem_map.mp h
  rw [RecordBatch.row, length_map, length_columns]

theorem cells_eq_map_rows {column : Column} (h : batch.columns[index]? = some column) :
    column.cells = batch.rows.map fun row => Row.at row index := by
  rw [column.cells_eq_map_range, column_len (mem_of_getElem? h), rows, map_map]
  refine map_congr_left fun i _ => ?_
  rw [Function.comp_apply, row_at, h, Option.bind_some]

/-- A batch is determined by its columns' cells: columns that hold the cells of a
list of rows make those rows. -/
theorem rows_eq_of_cells {expected : List Row} (hlen : expected.length = batch.numRows)
    (hwidth : ∀ row ∈ expected, row.length = batch.numColumns)
    (hcells : ∀ index column, batch.columns[index]? = some column →
      column.cells = expected.map fun row => Row.at row index) : batch.rows = expected := by
  apply ext_getElem
  · rw [length_rows, hlen]
  · intro n hn hn'
    simp only [rows, getElem_map, getElem_range]
    apply ext_getElem
    · rw [row, length_map, length_columns, hwidth _ (getElem_mem hn')]
    · intro i hi hi'
      have hcolumn : i < batch.columns.length := by
        simpa [row] using hi
      simp only [row, getElem_map]
      rw [Column.cell, hcells i _ (getElem?_eq_getElem hcolumn), getElem?_map,
        getElem?_eq_getElem hn', Option.map_some, Option.join_some, Row.at,
        getElem?_eq_getElem hi', Option.join_some]

end RecordBatch

/-! ## Concatenation -/

/-- One column of `concat_batches`: the cells of column `index` of every batch. -/
def concatColumn (batches : List RecordBatch) (field : Field) (index : Nat)
    (h : ∀ batch ∈ batches, batch.schema.fields[index]? = some field) : Column where
  dataType := field.dataType
  cells := batches.flatMap fun batch => batch.rows.map fun row => Row.at row index
  typed := by
    intro cell hcell value hvalue
    obtain ⟨batch, hbatch, hcell⟩ := mem_flatMap.mp hcell
    obtain ⟨row, hrow, rfl⟩ := mem_map.mp hcell
    exact RecordBatch.mem_rows_hasTypes hrow index field (h batch hbatch) value hvalue

theorem concatColumn_cells (batches : List RecordBatch) (field : Field) (index : Nat)
    (h : ∀ batch ∈ batches, batch.schema.fields[index]? = some field) :
    (concatColumn batches field index h).cells =
      (batches.flatMap RecordBatch.rows).map fun row => Row.at row index := by
  rw [map_flatMap]
  rfl

theorem concatColumn_fits (batches : List RecordBatch) (field : Field) (index : Nat)
    (h : ∀ batch ∈ batches, batch.schema.fields[index]? = some field) :
    FieldFits (batches.map RecordBatch.numRows).sum field (concatColumn batches field index h) := by
  refine ⟨rfl, ?_, fun hnullable hnone => ?_⟩
  · rw [Column.len, concatColumn_cells, length_map, length_flatMap]
    simp
  · obtain ⟨batch, hbatch, hnone⟩ := mem_flatMap.mp hnone
    have hfield := h batch hbatch
    obtain ⟨column, hcolumn, -⟩ := RecordBatch.entry_of_field hfield
    rw [← RecordBatch.cells_eq_map_rows hcolumn] at hnone
    rw [RecordBatch.fields_getElem?] at hfield
    obtain ⟨entry, hentry, rfl⟩ := Option.map_eq_some_iff.mp hfield
    rw [RecordBatch.columns_getElem?, hentry] at hcolumn
    cases hcolumn
    exact (batch.fits entry (mem_of_getElem? hentry)).2.2 hnullable hnone

/-- Batches of one schema that together stay below the largest Arrow buffer. -/
def Concatenable (schema : Schema) (batches : List RecordBatch) : Prop :=
  (∀ batch ∈ batches, batch.schema.fields = schema.fields) ∧
    (batches.map RecordBatch.numRows).sum < 2 ^ 63

instance (schema : Schema) (batches : List RecordBatch) :
    Decidable (Concatenable schema batches) :=
  inferInstanceAs (Decidable (_ ∧ _))

theorem Concatenable.field (h : Concatenable schema batches) (i : Fin schema.fields.length) :
    ∀ batch ∈ batches, batch.schema.fields[i.val]? = some (schema.fields.get i) := by
  intro batch hbatch
  rw [h.1 batch hbatch]
  exact getElem?_eq_getElem i.isLt

/-- The entries of a concatenation. -/
def concatEntries (schema : Schema) (batches : List RecordBatch)
    (h : Concatenable schema batches) : List (Field × Column) :=
  ofFn fun i : Fin schema.fields.length =>
    (schema.fields.get i, concatColumn batches (schema.fields.get i) i (h.field i))

theorem concatEntries_fits (h : Concatenable schema batches) :
    ∀ entry ∈ concatEntries schema batches h,
      FieldFits (batches.map RecordBatch.numRows).sum entry.1 entry.2 := by
  intro entry hentry
  obtain ⟨i, rfl⟩ := mem_ofFn.mp hentry
  exact concatColumn_fits batches _ _ (h.field i)

/-- `concat_batches`: every column of the batches, one after the other. -/
def concatBatches (schema : Schema) (batches : List RecordBatch) :
    Result RecordBatch :=
  if h : Concatenable schema batches then
    .ok ⟨schema.metadata, concatEntries schema batches h,
      (batches.map RecordBatch.numRows).sum, concatEntries_fits h, h.2⟩
  else .error (.arrow "batches do not match the schema")

theorem concatBatches_eq_ok (h : Concatenable schema batches) :
    ∃ out, concatBatches schema batches = .ok out :=
  ⟨_, dif_pos h⟩

/-- A concatenation has all rows in order. -/
theorem concatBatches_ok {out : RecordBatch} (h : concatBatches schema batches = .ok out) :
    Concatenable schema batches ∧ out.schema = schema ∧
      out.rows = batches.flatMap RecordBatch.rows := by
  unfold concatBatches at h
  split at h
  · next hok =>
    cases h
    have hschema : (concatEntries schema batches hok).map Prod.fst = schema.fields := by
      rw [concatEntries, map_ofFn]
      exact ofFn_get schema.fields
    refine ⟨hok, congrArg (Schema.mk · _) hschema, ?_⟩
    have hcolumns : (concatEntries schema batches hok).length = schema.fields.length := by
      rw [concatEntries, length_ofFn]
    apply RecordBatch.rows_eq_of_cells
    · rw [length_flatMap]
      simp
    · intro row hrow
      obtain ⟨batch, hbatch, hrow⟩ := mem_flatMap.mp hrow
      rw [RecordBatch.length_of_mem_rows hrow, ← RecordBatch.length_schema_fields,
        hok.1 batch hbatch]
      exact hcolumns.symm
    · intro index column hcolumn
      rw [RecordBatch.columns_getElem?] at hcolumn
      obtain ⟨entry, hentry, rfl⟩ := Option.map_eq_some_iff.mp hcolumn
      obtain ⟨hlt, rfl⟩ := List.getElem?_eq_some_iff.mp hentry
      simp only [concatEntries, List.getElem_ofFn]
      exact concatColumn_cells batches _ _ (hok.field _)
  · cases h

/-- **A concatenation is its rows**: it does not depend on how they are cut into batches. -/
theorem concatBatches_congr {batches' : List RecordBatch}
    (h : ∀ batch ∈ batches, batch.schema.fields = schema.fields)
    (h' : ∀ batch ∈ batches', batch.schema.fields = schema.fields)
    (hrows : batches.flatMap RecordBatch.rows = batches'.flatMap RecordBatch.rows) :
    concatBatches schema batches = concatBatches schema batches' := by
  have hsum : (batches.map RecordBatch.numRows).sum = (batches'.map RecordBatch.numRows).sum := by
    simpa only [length_flatMap, RecordBatch.length_rows] using congrArg length hrows
  unfold concatBatches
  by_cases hfew : (batches.map RecordBatch.numRows).sum < 2 ^ 63
  · have hok : Concatenable schema batches := ⟨h, hfew⟩
    have hok' : Concatenable schema batches' := ⟨h', hsum ▸ hfew⟩
    rw [dif_pos hok, dif_pos hok']
    refine congrArg Except.ok (RecordBatch.ext rfl ?_ hsum)
    refine congrArg ofFn (funext fun i => Prod.ext rfl (Column.ext rfl ?_))
    rw [concatColumn_cells, concatColumn_cells, hrows]
  · rw [dif_neg fun hok => hfew hok.2, dif_neg fun hok => hfew (hsum ▸ hok.2)]

theorem keep_map_eq_filter {α : Type} (f : α → Option Bool) (xs : List α) :
    keep (xs.map f) xs = xs.filter fun x => f x = some true := by
  induction xs with
  | nil => rfl
  | cons x xs ih =>
    rw [map_cons, keep_cons, filter_cons, ih]
    simp only [decide_eq_true_eq]

end OxideLake
