import OxideLake.Core.Error
import OxideLake.Foundations.Partial

/-!
# Arrays and record batches

A `Column` is an Arrow array seen logically: a type and one optional cell a row,
every cell of the array's type.  A `RecordBatch` pairs each column with its field
and carries the facts Arrow's constructor checks — lengths, types, and no `NULL`
under a non-nullable field — so that every batch in the model is one Arrow would
have accepted.  Row counts stay below `2 ^ 63`: an Arrow buffer is at most
`isize::MAX` bytes.

The Arrow kernels the engine calls are here as well: `take`, `filter` and
`RecordBatch::{try_new, project}`.
-/

namespace OxideLake

open List Partial

variable {column : Column} {batch : RecordBatch} {indices : List Nat} {field : Field}
  {numRows : Nat} {entries : List (Field × Column)}

/-! ## Selecting by a mask -/

section Keep

variable {α β : Type}

/-- The elements of `xs` whose mask bit is a non-null `true`, in order. -/
def keep : List (Option Bool) → List α → List α
  | some true :: mask, x :: xs => x :: keep mask xs
  | _ :: mask, _ :: xs => keep mask xs
  | _, _ => []

variable (mask : List (Option Bool))

@[simp] theorem keep_nil : keep mask ([] : List α) = [] := by
  cases mask with
  | nil => rfl
  | cons m mask => cases m with
    | none => rfl
    | some b => cases b <;> rfl

variable (xs : List α)

@[simp] theorem keep_nil_left : keep [] xs = [] := by
  cases xs <;> rfl

theorem keep_cons (m : Option Bool) (mask : List (Option Bool)) (x : α) (xs : List α) :
    keep (m :: mask) (x :: xs) =
      if m = some true then x :: keep mask xs else keep mask xs := by
  cases m with
  | none => rfl
  | some b => cases b <;> rfl

theorem keep_map (f : α → β) (mask : List (Option Bool)) (xs : List α) :
    keep mask (xs.map f) = (keep mask xs).map f := by
  induction xs generalizing mask with
  | nil => simp
  | cons x xs ih =>
    cases mask with
    | nil => simp
    | cons m mask =>
      rw [map_cons, keep_cons, keep_cons, ih]
      split <;> rfl

theorem mem_of_mem_keep {mask : List (Option Bool)} {xs : List α} {x : α}
    (h : x ∈ keep mask xs) : x ∈ xs := by
  induction xs generalizing mask with
  | nil => simp at h
  | cons y xs ih =>
    cases mask with
    | nil => simp at h
    | cons m mask =>
      rw [keep_cons] at h
      split at h
      · rcases mem_cons.mp h with rfl | h
        · exact mem_cons_self
        · exact mem_cons_of_mem _ (ih h)
      · exact mem_cons_of_mem _ (ih h)

theorem keep_eq_map_range :
    (keep mask xs).map some = (keep mask (range xs.length)).map fun i => xs[i]? := by
  rw [← keep_map, ← keep_map]
  congr 1
  apply ext_getElem?
  intro i
  by_cases hi : i < xs.length
  · simp [hi]
  · simp [hi]

theorem length_keep_of_length_eq {xs : List α} {ys : List β}
    (h : xs.length = ys.length) (mask : List (Option Bool)) :
    (keep mask xs).length = (keep mask ys).length := by
  have hx : keep mask (xs.map fun _ => ()) = keep mask (ys.map fun _ => ()) := by
    rw [map_const', map_const', h]
  have hlen := congrArg length hx
  rwa [keep_map, keep_map, length_map, length_map] at hlen

theorem length_keep_le :
    (keep mask xs).length ≤ xs.length := by
  induction xs generalizing mask with
  | nil => simp
  | cons x xs ih =>
    cases mask with
    | nil => simp
    | cons m mask =>
      rw [keep_cons]
      split
      · exact Nat.succ_le_succ (ih mask)
      · exact Nat.le_succ_of_le (ih mask)

end Keep

/-! ## Columns -/

/-- An Arrow array: its type and one optional cell a row. -/
@[ext] structure Column where
  dataType : DataType
  cells : List (Option Cell)
  /-- Every non-null cell has the array's type. -/
  typed : ∀ cell ∈ cells, ∀ value ∈ cell, value.hasType dataType = true

namespace Column

instance : DecidableEq Column := fun a b =>
  decidable_of_iff (a.dataType = b.dataType ∧ a.cells = b.cells) (by
    constructor
    · rintro ⟨h₁, h₂⟩
      exact Column.ext h₁ h₂
    · rintro rfl
      exact ⟨rfl, rfl⟩)

/-- Number of rows. -/
def len (column : Column) : Nat := column.cells.length

/-- The cell of a row; a row past the end reads as `NULL`. -/
def cell (column : Column) (row : Nat) : Option Cell := (column.cells[row]?).join

theorem typed_cell (column : Column) {row : Nat} {value : Cell}
    (h : column.cell row = some value) : value.hasType column.dataType = true := by
  rw [cell, Option.join_eq_some_iff] at h
  exact column.typed _ (mem_of_getElem? h) value rfl

/-- The rows named by `indices`, a `NULL` index giving a `NULL` cell. -/
def gather (column : Column) (indices : List (Option Nat)) : Column where
  dataType := column.dataType
  cells := indices.map fun index => index.bind column.cell
  typed := by
    intro cell hcell value hvalue
    obtain ⟨index, -, rfl⟩ := mem_map.mp hcell
    cases index with
    | none => cases hvalue
    | some row => exact column.typed_cell (Option.mem_def.mp hvalue)

/-- Arrow `take`: an index past the end panics. -/
def take (column : Column) (indices : List (Option Nat)) : Result Column :=
  if indices.all fun index => index.all (· < column.len) then .ok (column.gather indices)
  else .error (.panicked "take: index out of bounds")

/-- Arrow `filter`: the rows whose mask bit is a non-null `true`. -/
def filter (column : Column) (mask : List (Option Bool)) : Column where
  dataType := column.dataType
  cells := keep mask column.cells
  typed := fun cell hcell => column.typed cell (mem_of_mem_keep hcell)

@[simp] theorem gather_len (column : Column) (indices : List (Option Nat)) :
    (column.gather indices).len = indices.length := by
  simp [gather, len]

theorem take_eq_gather {indices : List (Option Nat)} (h : ∀ i, some i ∈ indices → i < column.len) :
    column.take indices = .ok (column.gather indices) := by
  rw [take, if_pos]
  rw [all_eq_true]
  intro index hindex
  cases index with
  | none => rfl
  | some i => simpa using h i hindex

theorem take_ok {out : Column} {indices : List (Option Nat)} (h : column.take indices = .ok out) :
    out = column.gather indices := by
  unfold take at h
  split at h
  · exact (Except.ok.inj h).symm
  · cases h

theorem filter_eq_gather (column : Column) (mask : List (Option Bool)) :
    column.filter mask =
      column.gather ((keep mask (range column.len)).map some) := by
  refine Column.ext rfl ?_
  have h := congrArg (map Option.join) (keep_eq_map_range mask column.cells)
  simpa [filter, gather, len, cell, Function.comp_def] using h

end Column

/-! ## Record batches -/

/-- A column a batch of `numRows` rows may hold under `field`. -/
def FieldFits (numRows : Nat) (field : Field) (column : Column) : Prop :=
  column.dataType = field.dataType ∧ column.len = numRows ∧
    (field.nullable = false → none ∉ column.cells)

instance (numRows : Nat) (field : Field) (column : Column) :
    Decidable (FieldFits numRows field column) :=
  inferInstanceAs (Decidable (_ ∧ _ ∧ _))

theorem FieldFits.gather (h : FieldFits numRows field column)
    (hrange : ∀ i ∈ indices, i < numRows) :
    FieldFits indices.length field (column.gather (indices.map some)) := by
  obtain ⟨htype, hlen, hnull⟩ := h
  refine ⟨htype, by simp, fun hfield hnone => ?_⟩
  obtain ⟨index, hindex, hcell⟩ := mem_map.mp hnone
  obtain ⟨i, hi, rfl⟩ := mem_map.mp hindex
  have hlt : i < column.cells.length := (hlen ▸ hrange i hi : i < column.len)
  rw [Option.bind_some, Column.cell, getElem?_eq_getElem hlt, Option.join_some] at hcell
  exact hnull hfield (hcell ▸ getElem_mem hlt)

theorem FieldFits.take (h : FieldFits numRows field column) (hrange : ∀ i ∈ indices, i < numRows) :
    ∃ out, column.take (indices.map some) = .ok out ∧ FieldFits indices.length field out := by
  refine ⟨_, Column.take_eq_gather fun i hi => ?_, h.gather hrange⟩
  rw [h.2.1]
  exact hrange i (by simpa using hi)

/-- An Arrow record batch: each field with its column. -/
@[ext] structure RecordBatch where
  metadata : Metadata
  entries : List (Field × Column)
  numRows : Nat
  fits : ∀ entry ∈ entries, FieldFits numRows entry.1 entry.2
  numRows_lt : numRows < 2 ^ 63

theorem oneRow_lt : 1 < 2 ^ 63 := by decide

namespace RecordBatch

/-- A batch of a few rows. -/
def ofEntries (entries : List (Field × Column)) (numRows : UInt8)
    (fits : ∀ entry ∈ entries, FieldFits numRows.toNat entry.1 entry.2) : RecordBatch :=
  ⟨[], entries, numRows.toNat, fits, numRows.toNat_lt.trans (by decide)⟩

instance : DecidableEq RecordBatch := fun a b =>
  decidable_of_iff (a.metadata = b.metadata ∧ a.entries = b.entries ∧ a.numRows = b.numRows) (by
    constructor
    · rintro ⟨h₁, h₂, h₃⟩
      exact RecordBatch.ext h₁ h₂ h₃
    · rintro rfl
      exact ⟨rfl, rfl, rfl⟩)

/-- The batch's schema. -/
def schema (batch : RecordBatch) : Schema := ⟨batch.entries.map Prod.fst, batch.metadata⟩

/-- The batch's columns. -/
def columns (batch : RecordBatch) : List Column := batch.entries.map Prod.snd

/-- Number of columns. -/
def numColumns (batch : RecordBatch) : Nat := batch.entries.length

@[simp] theorem length_columns (batch : RecordBatch) :
    batch.columns.length = batch.numColumns := by
  simp [columns, numColumns]

@[simp] theorem length_schema_fields (batch : RecordBatch) :
    batch.schema.fields.length = batch.numColumns := by
  simp [schema, numColumns]

theorem columns_getElem? (batch : RecordBatch) (i : Nat) :
    batch.columns[i]? = (batch.entries[i]?).map Prod.snd := by
  simp [columns]

theorem fields_getElem? (batch : RecordBatch) (i : Nat) :
    batch.schema.fields[i]? = (batch.entries[i]?).map Prod.fst := by
  simp [schema]

theorem column_len (h : column ∈ batch.columns) :
    column.len = batch.numRows := by
  obtain ⟨entry, hentry, rfl⟩ := mem_map.mp h
  exact (batch.fits entry hentry).2.1

/-- One row of the batch, left to right. -/
def row (batch : RecordBatch) (i : Nat) : List (Option Cell) :=
  batch.columns.map fun column => column.cell i

/-- The rows of the batch, in order. -/
def rows (batch : RecordBatch) : List (List (Option Cell)) :=
  (range batch.numRows).map batch.row

@[simp] theorem length_rows (batch : RecordBatch) : batch.rows.length = batch.numRows := by
  simp [rows]

/-- `RecordBatch::try_new`: one column a field, lengths and types checked, no
`NULL` under a non-nullable field.  Without columns the row count is unknown. -/
def tryNew (schema : Schema) (columns : List Column) : Result RecordBatch :=
  match columns with
  | [] => .error (.arrow "must either specify a row count or at least one column")
  | first :: rest =>
    if h : schema.fields.length = (first :: rest).length ∧
        (∀ entry ∈ schema.fields.zip (first :: rest), FieldFits first.len entry.1 entry.2) ∧
        first.len < 2 ^ 63 then
      .ok ⟨schema.metadata, schema.fields.zip (first :: rest), first.len, h.2.1, h.2.2⟩
    else .error (.arrow "columns do not match the schema")

theorem tryNew_eq_ok (metadata : Metadata) (hne : entries ≠ [])
    (hfits : ∀ entry ∈ entries, FieldFits numRows entry.1 entry.2) (hlt : numRows < 2 ^ 63) :
    tryNew ⟨entries.map Prod.fst, metadata⟩ (entries.map Prod.snd) =
      .ok ⟨metadata, entries, numRows, hfits, hlt⟩ := by
  cases entries with
  | nil => exact absurd rfl hne
  | cons entry rest =>
    have hlen : entry.2.len = numRows := (hfits entry mem_cons_self).2.1
    have hzip : ((entry :: rest).map Prod.fst).zip ((entry :: rest).map Prod.snd) =
        entry :: rest := (zip_of_prod rfl rfl).symm
    have hok : ((entry :: rest).map Prod.fst).length = ((entry :: rest).map Prod.snd).length ∧
        (∀ e ∈ ((entry :: rest).map Prod.fst).zip ((entry :: rest).map Prod.snd),
          FieldFits entry.2.len e.1 e.2) ∧ entry.2.len < 2 ^ 63 := by
      refine ⟨by simp, ?_, hlen ▸ hlt⟩
      rw [hzip, hlen]
      exact hfits
    simp only [map_cons] at hok hzip ⊢
    rw [tryNew, dif_pos hok]
    exact congrArg Except.ok (RecordBatch.ext rfl hzip hlen)

theorem tryNew_ok {schema : Schema} {columns : List Column}
    (h : tryNew schema columns = .ok batch) :
    batch.schema = schema ∧ batch.columns = columns ∧ columns ≠ [] := by
  cases columns with
  | nil => cases h
  | cons first rest =>
    rw [tryNew] at h
    split at h
    · next hok =>
      cases h
      refine ⟨?_, ?_, cons_ne_nil _ _⟩
      · rw [RecordBatch.schema, map_fst_zip (le_of_eq hok.1)]
      · rw [RecordBatch.columns, map_snd_zip (ge_of_eq hok.1)]
    · cases h

theorem tryNew_of_forall₂ {schema : Schema} {columns : List Column} (hne : columns ≠ [])
    (hfits : List.Forall₂ (FieldFits numRows) schema.fields columns) (hlt : numRows < 2 ^ 63) :
    ∃ batch, tryNew schema columns = .ok batch := by
  obtain ⟨hlength, hzip⟩ := forall₂_iff_zip.mp hfits
  have hfirst : (schema.fields.zip columns).map Prod.fst = schema.fields :=
    map_fst_zip hlength.le
  have hsecond : (schema.fields.zip columns).map Prod.snd = columns :=
    map_snd_zip hlength.ge
  have hentries : schema.fields.zip columns ≠ [] := by
    intro hnil
    rw [hnil] at hsecond
    exact hne hsecond.symm
  have hnew := tryNew_eq_ok schema.metadata hentries (fun entry hentry => hzip hentry) hlt
  rw [hfirst, hsecond] at hnew
  exact ⟨_, hnew⟩

theorem tryNew_append_eq (batch : RecordBatch) (hfits : FieldFits batch.numRows field column) :
    tryNew ⟨batch.schema.fields ++ [field], []⟩ (batch.columns ++ [column]) =
      .ok ⟨[], batch.entries ++ [(field, column)], batch.numRows,
        forall_mem_append.mpr ⟨batch.fits, forall_mem_singleton.mpr hfits⟩,
        batch.numRows_lt⟩ := by
  have hall : ∀ entry ∈ batch.entries ++ [(field, column)],
      FieldFits batch.numRows entry.1 entry.2 :=
    forall_mem_append.mpr ⟨batch.fits, forall_mem_singleton.mpr hfits⟩
  have hnew := tryNew_eq_ok [] (append_ne_nil_of_right_ne_nil _ (cons_ne_nil _ _)) hall
    batch.numRows_lt
  rw [map_append, map_append] at hnew
  exact hnew

theorem tryNew_append (batch : RecordBatch) (hfits : FieldFits batch.numRows field column) :
    ∃ out, tryNew ⟨batch.schema.fields ++ [field], []⟩ (batch.columns ++ [column]) = .ok out :=
  ⟨_, batch.tryNew_append_eq hfits⟩

theorem tryNew_entries {metadata : Metadata}
    (h : tryNew ⟨entries.map Prod.fst, metadata⟩ (entries.map Prod.snd) = .ok batch) :
    batch.entries = entries ∧ entries ≠ [] := by
  obtain ⟨hschema, hcolumns, hne⟩ := tryNew_ok h
  refine ⟨?_, fun hnil => hne (by rw [hnil]; rfl)⟩
  exact (zip_of_prod (congrArg Schema.fields hschema) hcolumns).trans
    (zip_of_prod rfl rfl).symm

/-- `RecordBatch::project`: the selected columns, row count and metadata kept. -/
def project (batch : RecordBatch) (indices : List Nat) : Result RecordBatch :=
  match h : indices.mapM fun i => batch.entries[i]? with
  | some entries =>
    .ok ⟨batch.metadata, entries, batch.numRows,
      fun entry hentry => by
        obtain ⟨i, -, hi⟩ := mapM_some_mem h hentry
        exact batch.fits entry (mem_of_getElem? hi),
      batch.numRows_lt⟩
  | none => .error (.arrow (projectOutOfBounds indices batch.numColumns))

/-- `filter_record_batch`: every column filtered by the same mask. -/
def filter (batch : RecordBatch) (mask : List (Option Bool)) : RecordBatch where
  metadata := batch.metadata
  entries := batch.entries.map fun entry => (entry.1, entry.2.filter mask)
  numRows := (keep mask (range batch.numRows)).length
  fits := by
    intro entry hentry
    obtain ⟨⟨field, column⟩, hmem, rfl⟩ := mem_map.mp hentry
    obtain ⟨htype, hlen, hnull⟩ := batch.fits _ hmem
    refine ⟨htype, ?_, fun hfield hnone => hnull hfield (mem_of_mem_keep hnone)⟩
    exact length_keep_of_length_eq (by simpa [Column.len] using hlen) mask
  numRows_lt := lt_of_le_of_lt (by simpa using length_keep_le mask (range batch.numRows))
    batch.numRows_lt

/-- Two batches with the same fields and columns; schema-level metadata is not
compared. -/
def SameColumns (a b : RecordBatch) : Prop := a.entries = b.entries ∧ a.numRows = b.numRows

end RecordBatch

theorem project_eq_ok (h : indices.mapM (fun i => batch.entries[i]?) = some entries) :
    ∃ out, batch.project indices = .ok out ∧ out.entries = entries ∧
      out.numRows = batch.numRows := by
  unfold RecordBatch.project
  split
  · next entries' h' =>
    rw [h] at h'
    cases h'
    exact ⟨_, rfl, rfl, rfl⟩
  · next h' =>
    rw [h] at h'
    cases h'

theorem mapM_of_project {out : RecordBatch} (h : batch.project indices = .ok out) :
    indices.mapM (fun i => batch.entries[i]?) = some out.entries := by
  unfold RecordBatch.project at h
  split at h
  · next entries h' => cases h; exact h'
  · cases h

theorem project_schema {out : RecordBatch} (h : batch.project indices = .ok out) :
    batch.schema.project indices = some out.schema := by
  have hfields : indices.mapM (fun i => batch.schema.fields[i]?) =
      some (out.entries.map Prod.fst) := by
    rw [mapM_eq_some_iff, forall₂_map_right_iff]
    refine (mapM_eq_some_iff.mp (mapM_of_project h)).imp fun i entry hentry => ?_
    rw [RecordBatch.fields_getElem?, hentry, Option.map_some]
  have hmetadata : out.metadata = batch.metadata := by
    unfold RecordBatch.project at h
    split at h
    · cases h
      rfl
    · cases h
  rw [Schema.project, hfields, Option.map_some]
  exact congrArg (fun metadata => some (Schema.mk _ metadata)) hmetadata.symm

theorem filter_schema (batch : RecordBatch) (mask : List (Option Bool)) :
    (batch.filter mask).schema = batch.schema := by
  show (⟨(batch.entries.map fun entry => (entry.1, entry.2.filter mask)).map Prod.fst,
    batch.metadata⟩ : Schema) = _
  rw [map_map]
  rfl

/-- Two results agree: both batches with the same columns, or both an error. -/
def SameResult : Result RecordBatch → Result RecordBatch → Prop
  | .ok a, .ok b => a.SameColumns b
  | .error _, .error _ => True
  | _, _ => False

end OxideLake
