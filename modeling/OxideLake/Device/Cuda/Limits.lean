import OxideLake.Device.Cuda.Backend
import OxideLake.Foundations.Settled

/-!
# What the CUDA backend has room for

Every step of the backend either succeeds exactly if its sizes are within its limits, or fails with
an error that is not `Unsupported` (`Hard`): a step is `Settled` by its limits.
-/

namespace OxideLake

open Cuda OxideLake.Filter Partial ColumnBytes CudaBackend

variable {bytes col : ColumnBytes} {data : ArrayData} {column : Column} {numRows : ℕ}

/-- Errors that do not send a batch to the CPU reference. -/
def Hard (e : EngineError) : Prop := e.isUnsupported = false

theorem u32Len_settled (n : ℕ) (what : String) :
    Settled Hard (n < 2 ^ 32) (u32Len n what) (· = n) := by
  unfold u32Len
  split
  · next h => exact .ok h rfl
  · next h => exact .error h rfl

/-! ## Moving columns -/

theorem extractPrimitive_validity (h : extractPrimitive data = .ok bytes) :
    bytes.validity = data.nulls.map NullBuffer.sliced := by
  unfold extractPrimitive at h
  split at h
  · cases h
  · obtain ⟨values, -, h⟩ := bind_eq_ok_iff.mp h
    cases h
    rfl

theorem extractList_validity {size : ℤ} (h : extractList data size = .ok bytes) :
    bytes.validity = data.nulls.map NullBuffer.sliced := by
  unfold extractList at h
  split at h
  · cases h
  split at h
  · cases h
  split at h
  · cases h
  · obtain ⟨values, -, h⟩ := bind_eq_ok_iff.mp h
    cases h
    rfl

theorem extract_validity {array : ArrowArray} (h : extract array = .ok bytes) :
    bytes.validity = array.data.nulls.map NullBuffer.sliced := by
  unfold extract at h
  split at h
  · exact extractPrimitive_validity h
  · exact extractPrimitive_validity h
  · exact extractPrimitive_validity h
  · split at h
    · exact extractList_validity h
    · cases h
  · cases h

/-- The bytes of a column on the device. -/
structure Moved (layout : Layout) (column : Column) (bytes : ColumnBytes) : Prop where
  dataType : bytes.dataType = column.dataType
  rebuildable : Rebuildable bytes
  fits : ∀ numRows field, FieldFits numRows field column → FieldFits numRows field bytes.toColumn
  same : vectorDimension column.dataType = none → bytes.toColumn = column
  validity : bytes.validity.isSome ↔ layout.HasBitmap column

theorem ArrayData.map_withValidItems_cell {width : ℕ}
    (hwidth : primitiveWidth data.dataType = some width) (i : ℕ) :
    (data.cell i).map Cell.withValidItems = data.cell i := by
  rw [ArrayData.cell]
  split
  · rw [ArrayData.value_primitive (vectorDimension_of_primitiveWidth hwidth) hwidth,
      withValidItems_cellOfBytes hwidth]
  · rfl

theorem moved_of_extracts {layout : Layout} {array : ArrowArray}
    (harray : layout.array array.data.toColumn = some array)
    (heligible : isDeviceEligible array.data.dataType = true) (h : Extracts array.data bytes)
    (hvalidity : bytes.validity = array.data.nulls.map NullBuffer.sliced) :
    Moved layout array.data.toColumn bytes := by
  have hcells : bytes.toColumn.cells =
      (List.range array.data.len).map fun i => (array.data.cell i).map Cell.withValidItems := by
    show (List.range bytes.len).map bytes.cell = _
    rw [h.len]
    exact List.map_congr_left fun i hi => h.cell i (List.mem_range.mp hi)
  refine ⟨h.dataType, ⟨h.dataType ▸ heligible, h.wellFormed, h.values_lt, ?_⟩, ?_,
    fun hdim => ?_, ?_⟩
  · rw [h.childLen, h.len, h.dataType]
  · rintro numRows field ⟨htype, hlen, hnull⟩
    refine ⟨h.dataType.trans htype, ?_, fun hfield hnone => hnull hfield ?_⟩
    · rw [Column.len, hcells, ← hlen]
      simp [ArrayData.toColumn, Column.len]
    · rw [hcells] at hnone
      obtain ⟨i, hi, hcell⟩ := List.mem_map.mp hnone
      exact List.mem_map.mpr ⟨i, hi, Option.map_eq_none_iff.mp hcell⟩
  · refine Column.ext h.dataType (hcells.trans (List.map_congr_left fun i _ => ?_))
    rcases isDeviceEligible_iff.mp heligible with ⟨width, hwidth⟩ | ⟨dim, hdim'⟩
    · exact ArrayData.map_withValidItems_cell hwidth i
    · exact absurd (hdim.symm.trans hdim') (by simp)
  · rw [hvalidity, Option.isSome_map]
    constructor
    · exact fun hsome => ⟨array, harray, hsome⟩
    · rintro ⟨found, hfound, hsome⟩
      rw [harray] at hfound
      cases hfound
      exact hsome

variable (backend : CudaBackend)

/-- A column goes to the device if it is in memory. -/
theorem extractColumn_settled (heligible : isDeviceEligible column.dataType = true) :
    Settled Hard ((backend.layout.array column).isSome) (backend.extractColumn column)
      (Moved backend.layout column) := by
  unfold extractColumn
  cases harray : backend.layout.array column with
  | none =>
    rw [if_pos heligible]
    exact .error nofun rfl
  | some array =>
    obtain rfl := backend.layout.sound column array harray
    obtain ⟨bytes, hextract, hbytes⟩ :=
      (extract_ok heligible : ∃ bytes, extract array = .ok bytes ∧ Extracts array.data bytes)
    dsimp only
    rw [hextract]
    exact .ok rfl (moved_of_extracts harray heligible hbytes (extract_validity hextract))

/-- A batch on the device. -/
structure Resident (layout : Layout) (batch : RecordBatch) (dev : DeviceBatch)
    (columns : List ColumnBytes) : Prop where
  schema : dev.schema = batch.schema
  inner : dev.inner = .cuda ⟨batch.numRows, columns⟩
  moved : List.Forall₂ (Moved layout) batch.columns columns

/-- A batch goes to the device if its columns do. -/
theorem upload_settled {batch : RecordBatch}
    (heligible : ∀ column ∈ batch.columns, isDeviceEligible column.dataType = true) :
    Settled Hard (∀ column ∈ batch.columns, (backend.layout.array column).isSome)
      (backend.upload batch) fun dev => ∃ columns, Resident backend.layout batch dev columns := by
  have hcolumns := Settled.mapM fun column hcolumn =>
    extractColumn_settled backend (heligible column hcolumn)
  refine (hcolumns.bind fun columns _ hmoved => ?_).congr (and_true _).to_iff fun _ => id
  exact .ok trivial ⟨columns, rfl, rfl, hmoved⟩

/-! ## Moving columns back -/

theorem build_too_large (h : data.validate ≠ true) :
    ∃ e, data.build = .error e ∧ Hard e :=
  ⟨_, dif_neg h, rfl⟩

theorem PrimitiveData.validate_values_lt {data : PrimitiveData} {values : List UInt8}
    (hbuffers : data.buffers = [values]) (h : data.validate = true) : values.length < 2 ^ 63 := by
  obtain ⟨-, width, buffer, -, hbuffer, -, hlt⟩ := PrimitiveData.validate_iff.mp h
  rw [hbuffers] at hbuffer
  cases hbuffer
  exact hlt

theorem rebuild_too_large (heligible : isDeviceEligible col.dataType = true) (hwf : col.WellFormed)
    (hlarge : ¬ col.values.length < 2 ^ 63) :
    ∃ e, rebuild col = .error e ∧ Hard e := by
  obtain ⟨nulls, hnulls, -, -⟩ := rebuildNulls_eq hwf
  rw [rebuild, hnulls, ok_bind]
  rcases isDeviceEligible_iff.mp heligible with ⟨width, hwidth⟩ | ⟨dim, hdim⟩
  · have hbuild : ∃ e, ArrayData.build ⟨⟨col.dataType, col.len, 0, nulls, [col.values]⟩, []⟩ =
        .error e ∧ Hard e := by
      refine build_too_large fun hvalid => hlarge ?_
      rw [ArrayData.validate_primitive hwidth] at hvalid
      exact PrimitiveData.validate_values_lt rfl hvalid
    rcases primitiveWidth_eq_some hwidth with htype | htype | htype
    · simpa only [htype] using hbuild
    · simpa only [htype] using hbuild
    · simpa only [htype] using hbuild
  · obtain ⟨name, nullable, metadata, htype, -⟩ := vectorDimension_eq_some hdim
    have hchild : PrimitiveData.build ⟨.float32, col.childLen, 0, none, [col.values]⟩ =
        .error (.arrow "invalid child data") :=
      if_neg fun hvalid => hlarge (PrimitiveData.validate_values_lt rfl hvalid)
    simp only [htype, hchild, error_bind]
    exact ⟨_, rfl, rfl⟩

/-- A column comes back unless it is too large. -/
theorem rebuildColumn_settled (heligible : isDeviceEligible col.dataType = true)
    (hwf : col.WellFormed)
    (hchild : col.childLen = col.len * (vectorDimension col.dataType).getD 0) :
    Settled Hard (col.values.length < 2 ^ 63) (rebuildColumn col)
      (· = col.toColumn) := by
  by_cases hlt : col.values.length < 2 ^ 63
  · obtain ⟨array, harray, hcolumn⟩ := rebuild_ok ⟨heligible, hwf, hlt, hchild⟩
    rw [rebuildColumn, harray]
    exact .ok hlt hcolumn
  · obtain ⟨e, he, hhard⟩ := rebuild_too_large heligible hwf hlt
    rw [rebuildColumn, he]
    exact .error hlt hhard

theorem tryNew_settled {schema : Schema} {columns : List Column}
    (hlen : ∀ column ∈ columns, column.len = numRows) (hlt : numRows < 2 ^ 63) :
    Settled Hard (columns ≠ [] ∧ List.Forall₂ (FieldFits numRows) schema.fields columns)
      (RecordBatch.tryNew schema columns)
      fun batch => batch.schema = schema ∧ batch.columns = columns ∧ batch.numRows = numRows := by
  constructor
  · rintro ⟨hne, hfits⟩
    obtain ⟨batch, hbatch⟩ := RecordBatch.tryNew_of_forall₂ hne hfits hlt
    obtain ⟨hschema, hcolumns, -⟩ := RecordBatch.tryNew_ok hbatch
    refine ⟨batch, hbatch, hschema, hcolumns, ?_⟩
    obtain ⟨column, hcolumn⟩ := List.exists_mem_of_ne_nil _ hne
    rw [← batch.column_len (hcolumns ▸ hcolumn), hlen column hcolumn]
  · intro hnot
    unfold RecordBatch.tryNew
    split
    · exact ⟨_, rfl, rfl⟩
    · next first rest =>
      split
      · next h =>
        refine absurd ⟨List.cons_ne_nil _ _, ?_⟩ hnot
        rw [← hlen first List.mem_cons_self]
        exact List.forall₂_iff_zip.mpr ⟨h.1, fun {a b} hmem => h.2.1 (a, b) hmem⟩
      · exact ⟨_, rfl, rfl⟩

/-! ## Gathers -/

section Gather

variable {device : FilterDevice} {out : ℕ} {col : ColumnBytes} {indices : ℕ → ℕ} {rows : List ℕ}

theorem gatherColumn_settled (device : FilterDevice) (out : ℕ) (hwf : col.WellFormed)
    (indices : ℕ → ℕ) {total : ℕ} (htotal : total < 2 ^ 32) :
    Settled Hard (col.width < 2 ^ 32) (gatherColumn .cuda device out col indices total)
      (· = gathered .cuda device out col indices col.width total) := by
  by_cases hwidth : col.width < 2 ^ 32
  · rw [gatherColumn_eq .cuda device out hwf hwidth indices htotal]
    exact .ok hwidth rfl
  · have hfails : u32Len col.width "row width" =
        .error (.execution ("row width" ++ " exceeds u32::MAX rows")) := if_neg hwidth
    rw [gatherColumn, hwf.width, ok_bind]
    rw [hfails]
    exact .error hwidth rfl

theorem gathered_wellFormed (device : FilterDevice) (out : ℕ) (hwf : col.WellFormed)
    (indices : ℕ → ℕ) (total : ℕ) :
    (gathered .cuda device out col indices col.width total).download.WellFormed := by
  have hwidth : (gathered .cuda device out col indices col.width total).download.width =
      col.width := width_eq hwf.width
  refine ⟨hwidth ▸ hwf.width, ?_, fun bits hbits => ?_⟩
  · rw [hwidth]
    simp [DeviceColumn.download, gathered, Scatter.read]
  · obtain ⟨stored, -, rfl⟩ := Option.map_eq_some_iff.mp hbits
    simp [DeviceColumn.download, gathered, Scatter.read]

theorem length_gathered_values (device : FilterDevice) (out : ℕ) (col : ColumnBytes)
    (indices : ℕ → ℕ) (total : ℕ) :
    (gathered .cuda device out col indices col.width total).download.values.length =
      total * col.width := by
  simp [DeviceColumn.download, gathered, Scatter.read]

/-- Where `n_out + 7` wraps the launch stores no bitmap, and every row reads as `NULL`. -/
theorem gathered_cell_wrapped (hzeroed : device.Zeroed) {src : List UInt8}
    (hsrc : col.validity = some src) {total : ℕ} (htotal : total < 2 ^ 32)
    (hwraps : 2 ^ 32 ≤ total + 7) (j : ℕ) :
    (gathered .cuda device out col indices col.width total).download.cell j = none := by
  have hnone := rowLaunch_gatherValidity_wrapped src indices htotal hwraps
  have hbits : (gathered .cuda device out col indices col.width total).download.validity =
      some (List.replicate ((total + 7) / 8) 0) := by
    have hwrites := (device.validity out).perm []
    simp only [DeviceColumn.download, gathered, hsrc, if_pos (show 0 < total by omega), hnone,
      Option.map_some, Fresh.launch, List.perm_nil.mp hwrites, Scatter.scatter, List.foldl_nil,
      Scatter.read]
    rw [funext (hzeroed out), List.map_const', List.length_range]
  rw [cell, isValid, hbits]
  refine if_neg ?_
  simp only [Bytes.bit, List.getD_eq_getElem?_getD, List.getElem?_replicate]
  split <;> simp

theorem gathered_fits_iff (hzeroed : device.Zeroed) (hwf : col.WellFormed) {field : Field}
    (hfits : FieldFits numRows field col.toColumn)
    (hindices : ∀ j, ∀ hj : j < rows.length, indices j = rows[j]) (htotal : rows.length < 2 ^ 32)
    (hrows : ∀ row ∈ rows, row < numRows) :
    FieldFits rows.length field
        (gathered .cuda device out col indices col.width rows.length).download.toColumn ↔
      field.nullable = true ∨ col.validity = none ∨ rows.length + 7 < 2 ^ 32 := by
  have hlen : col.len = numRows := col.toColumn_len.symm.trans hfits.2.1
  by_cases hbits : col.validity = none ∨ rows.length ≤ 2 ^ 32 - 8
  · rw [gathered_toColumn .cuda device out hwf hindices htotal hbits
      fun row hrow => hlen ▸ hrows row hrow]
    refine iff_of_true (hfits.gather hrows) (.inr (hbits.imp_right fun h => ?_))
    omega
  · rw [not_or] at hbits
    obtain ⟨src, hsrc⟩ := Option.ne_none_iff_exists'.mp hbits.1
    have hcell : ∀ j, (gathered .cuda device out col indices col.width
        rows.length).download.cell j = none := gathered_cell_wrapped hzeroed hsrc htotal (by omega)
    constructor
    · rintro ⟨-, -, hnull⟩
      refine .inl ((Bool.eq_false_or_eq_true _).resolve_right fun hfield => hnull hfield ?_)
      exact List.mem_map.mpr ⟨0, List.mem_range.mpr (by show 0 < rows.length; omega), hcell 0⟩
    · rintro (hfield | hnone | hshort)
      · exact ⟨hfits.1, by rw [toColumn_len]; rfl, fun h => absurd hfield (by simp [h])⟩
      · exact absurd hnone hbits.1
      · omega

end Gather

/-! ## Gathered batches -/

/-- Bytes a row of the column takes on a device. -/
def Column.rowBytes (column : Column) : ℕ := (rowWidth column.dataType).toOption.getD 0

/-- `total` gathered rows of a column can be read back: Arrow counts the bytes of a buffer in
`isize`, and the bitmap of a column that is not nullable must survive. -/
structure Layout.ReadsBack (layout : Layout) (total : ℕ) (entry : Field × Column) : Prop where
  bytes : total * entry.2.rowBytes < 2 ^ 63
  bitmap : entry.1.nullable = true ∨ ¬ layout.HasBitmap entry.2 ∨ total + 7 < 2 ^ 32

/-- A column that can be gathered into `total` rows and read back; the kernels count the bytes of a
row in `u32`. -/
structure Layout.Gathers (layout : Layout) (total : ℕ) (entry : Field × Column) : Prop
    extends layout.ReadsBack total entry where
  width : entry.2.rowBytes < 2 ^ 32

/-- A column a gather of the rows left on the device. -/
structure IsGather (layout : Layout) (device : FilterDevice) (rows : List ℕ)
    (entry : Field × Column) (col : DeviceColumn) : Prop where
  fits : FieldFits entry.2.len entry.1 entry.2
  rows_lt : ∀ row ∈ rows, row < entry.2.len
  gathered : ∃ bytes out indices, Moved layout entry.2 bytes ∧
    (∀ j, ∀ hj : j < rows.length, indices j = rows[j]) ∧
    col = gathered .cuda device out bytes indices bytes.width rows.length

/-- A column that came back: gathered rows of the column, where there is no bitmap to lose. -/
def Returned (layout : Layout) (total : ℕ) (entry out : Field × Column) : Prop :=
  out.1 = entry.1 ∧ (vectorDimension entry.2.dataType = none → ¬ layout.HasBitmap entry.2 →
    ∃ rows : List ℕ, rows.length = total ∧ (∀ row ∈ rows, row < entry.2.len) ∧
      out.2 = entry.2.gather (rows.map some))

/-- A batch of gathered columns that came back. -/
structure CameBack (layout : Layout) (total : ℕ) (entries : List (Field × Column))
    (out : RecordBatch) : Prop where
  numRows : out.numRows = total
  returned : List.Forall₂ (Returned layout total) entries out.entries

section Batches

variable {layout : Layout} {device : FilterDevice} {rows : List ℕ} {entry : Field × Column}
  {col : DeviceColumn}

theorem Moved.width_eq (h : Moved layout column bytes) :
    bytes.width = column.rowBytes := by
  rw [width, h.dataType, Column.rowBytes]

/-- Rows of a moved column. -/
theorem gather_settled (device : FilterDevice) (out : ℕ) {indices : ℕ → ℕ}
    (hindices : ∀ j, ∀ hj : j < rows.length, indices j = rows[j]) (htotal : rows.length < 2 ^ 32)
    (hrows : ∀ row ∈ rows, row < numRows) (hfits : FieldFits numRows entry.1 entry.2)
    (hmoved : Moved layout entry.2 bytes) :
    Settled Hard (entry.2.rowBytes < 2 ^ 32)
      (gatherColumn .cuda device out bytes indices rows.length)
      (IsGather layout device rows entry) := by
  obtain rfl := hfits.2.1
  rw [← hmoved.width_eq]
  exact (gatherColumn_settled device out hmoved.rebuildable.wellFormed indices htotal).imp
    fun col hcol => ⟨hfits, hrows, bytes, out, indices, hmoved, hindices, hcol⟩

theorem IsGather.length_values (h : IsGather layout device rows entry col) :
    col.download.values.length = rows.length * entry.2.rowBytes := by
  obtain ⟨-, -, bytes, out, indices, hmoved, -, rfl⟩ := h
  rw [length_gathered_values, hmoved.width_eq]

theorem IsGather.rebuild_settled (h : IsGather layout device rows entry col) :
    Settled Hard (col.download.values.length < 2 ^ 63)
      (rebuildColumn col.download) (· = col.download.toColumn) := by
  obtain ⟨-, -, bytes, out, indices, hmoved, -, rfl⟩ := h
  refine rebuildColumn_settled ?_ ?_ rfl
  · exact hmoved.rebuildable.eligible
  · exact gathered_wellFormed device out hmoved.rebuildable.wellFormed indices rows.length

theorem IsGather.fits_iff (hzeroed : device.Zeroed) (htotal : rows.length < 2 ^ 32)
    (h : IsGather layout device rows entry col) :
    FieldFits rows.length entry.1 col.download.toColumn ↔
      entry.1.nullable = true ∨ ¬ layout.HasBitmap entry.2 ∨ rows.length + 7 < 2 ^ 32 := by
  obtain ⟨hfits, hrows, bytes, out, indices, hmoved, hindices, rfl⟩ := h
  rw [gathered_fits_iff hzeroed hmoved.rebuildable.wellFormed (hmoved.fits _ _ hfits)
    hindices htotal hrows, ← hmoved.validity, Option.not_isSome_iff_eq_none]

theorem IsGather.returned (htotal : rows.length < 2 ^ 32)
    (h : IsGather layout device rows entry col) :
    Returned layout rows.length entry (entry.1, col.download.toColumn) := by
  refine ⟨rfl, fun hdim hbitmap => ⟨rows, rfl, h.rows_lt, ?_⟩⟩
  obtain ⟨hfits, hrows, bytes, out, indices, hmoved, hindices, rfl⟩ := h
  have hlen : bytes.len = entry.2.len :=
    bytes.toColumn_len.symm.trans (hmoved.fits _ _ hfits).2.1
  rw [← hmoved.validity, Option.not_isSome_iff_eq_none] at hbitmap
  rw [← hmoved.same hdim]
  exact gathered_toColumn .cuda device out hmoved.rebuildable.wellFormed hindices htotal
    (.inl hbitmap) fun row hrow => hlen ▸ hrows row hrow

/-- When gathered columns come back as a batch. -/
theorem download_settled (hzeroed : device.Zeroed) {total : ℕ} (htotal : total < 2 ^ 32)
    {entries : List (Field × Column)} {cols : List DeviceColumn}
    (h : List.Forall₂ (fun entry col => ∃ rows : List ℕ, rows.length = total ∧
      IsGather layout device rows entry col) entries cols) :
    Settled Hard (entries ≠ [] ∧ ∀ entry ∈ entries, layout.ReadsBack total entry)
      (download ⟨⟨entries.map Prod.fst, []⟩, total,
        .cuda ⟨total, cols.map DeviceColumn.download⟩⟩)
      (CameBack layout total entries) := by
  have hrebuild : Settled Hard (∀ col ∈ cols, col.download.values.length < 2 ^ 63)
      ((cols.map DeviceColumn.download).mapM rebuildColumn)
      (· = cols.map fun col => col.download.toColumn) := by
    rw [List.mapM_map]
    refine Settled.mapM_eq fun col hcol => ?_
    obtain ⟨entry, -, rows, -, hentry⟩ := forall₂_exists_left h hcol
    exact hentry.rebuild_settled
  have hlen : ∀ column ∈ cols.map fun col => col.download.toColumn, column.len = total := by
    refine List.forall_mem_map.mpr fun col hcol => ?_
    obtain ⟨entry, -, rows, rfl, -, -, bytes, out, indices, -, -, rfl⟩ := forall₂_exists_left h hcol
    exact toColumn_len _
  have hnew : Settled Hard _
      (RecordBatch.tryNew ⟨entries.map Prod.fst, []⟩
        (cols.map fun col => col.download.toColumn)) _ :=
    tryNew_settled hlen (by omega)
  refine (hrebuild.bind_eq hnew).congr ?_ fun out hout => ⟨hout.2.2, ?_⟩
  · rw [List.forall₂_map_left_iff, List.forall₂_map_right_iff,
      forall_right_iff h (p := fun entry => total * entry.2.rowBytes < 2 ^ 63),
      forall₂_iff_forall h (p := fun entry => entry.1.nullable = true ∨
        ¬ layout.HasBitmap entry.2 ∨ total + 7 < 2 ^ 32)]
    · have hne : (cols.map fun col => col.download.toColumn) ≠ [] ↔ entries ≠ [] := by
        rw [Ne, Ne, List.map_eq_nil_iff, ← List.length_eq_zero_iff, ← h.length_eq,
          List.length_eq_zero_iff]
      rw [hne]
      constructor
      · exact fun ⟨hbytes, hne, hbitmaps⟩ =>
          ⟨hne, fun entry hentry => ⟨hbytes entry hentry, hbitmaps entry hentry⟩⟩
      · exact fun ⟨hne, hall⟩ =>
          ⟨fun entry hentry => (hall entry hentry).bytes, hne, fun entry hentry =>
            (hall entry hentry).bitmap⟩
    · rintro entry col ⟨rows, rfl, hcol⟩
      exact hcol.fits_iff hzeroed htotal
    · rintro entry col ⟨rows, rfl, hcol⟩
      rw [hcol.length_values]
  · have hentries : out.entries =
        (entries.map Prod.fst).zip (cols.map fun col => col.download.toColumn) :=
      List.zip_of_prod (congrArg Schema.fields hout.1) hout.2.1
    rw [hentries, List.zip_map, List.forall₂_map_right_iff]
    refine (forall₂_zip h).imp fun entry pair hpair => ?_
    obtain ⟨rfl, rows, rfl, hcol⟩ := hpair
    exact hcol.returned htotal

end Batches

/-! ## The rows a filter keeps -/

variable (compareF64 : ℕ → F64 → F64 → Bool)

/-- A comparison on the device: false of a `NULL`, doubles by the device's own comparison. -/
def comparesTrue (op : Comparison) :
    Literal → Option Cell → Bool
  | .int64 literal, some (.int64 v) => Kernels.compareInt64 op v literal
  | .float64 literal, some (.float64 v) => compareF64 (opCode op) v literal
  | _, _ => false

/-- The rows a predicate holds on. -/
def keeps (compareF64 : ℕ → F64 → F64 → Bool) (batch : RecordBatch) : Predicate → ℕ → Bool
  | .compare idx op literal, i =>
    comparesTrue compareF64 op literal ((batch.columns[idx]?).bind (Column.cell · i))
  | .and left right, i => keeps compareF64 batch left i && keeps compareF64 batch right i

section Mask

variable {device : FilterDevice} {layout : Layout} {batch : RecordBatch}
  {columns : List ColumnBytes}

theorem compareThread_contents (buffer : Fresh UInt8) (col : ColumnBytes) (test : ℕ → Bool) {n : ℕ}
    (hn : n < 2 ^ 32) {i : ℕ} (hi : i < n) :
    (buffer.launch (rowLaunch (compareThread col test n) n)).contents i =
      if col.isValid i && test i then 1 else 0 := by
  have hfills := rowLaunch_fills buffer (compareThread col test n)
    (fun i => if col.isValid i && test i then 1 else 0) hn (fun i hi => if_pos hi) fun i hi => by
      rw [compareThread, if_neg (by omega)]
      cases col.isValid i <;> rfl
  rw [hfills.contents_getD (by simpa using hi) 0]
  simp [List.getD_eq_getElem?_getD, List.getElem?_range hi]

theorem cell_float64 (htype : col.dataType = .float64) (i : ℕ) :
    col.cell i = if col.isValid i then
      some (.float64 (BitVec.ofNat 64 (Bytes.leNat (Bytes.slice col.values (i * 8) 8))))
        else none := by
  rw [cell, rowBytes, width, htype]
  rfl

theorem Moved.cell_eq (h : Moved layout column bytes)
    (hdim : vectorDimension column.dataType = none) {i : ℕ} (hi : i < column.len) :
    column.cell i = bytes.cell i := by
  have hsame := h.same hdim
  have hlen : bytes.len = column.len := by rw [← bytes.toColumn_len, hsame]
  rw [← hsame, Column.cell, toColumn, List.getElem?_map,
    List.getElem?_range (hlen.symm ▸ hi)]
  rfl

/-- The mask on the device, row by row. -/
theorem evaluateMask_keeps (device : FilterDevice)
    (hmoved : List.Forall₂ (Moved layout) batch.columns columns) (hn : batch.numRows < 2 ^ 32)
    {predicate : Predicate} {reference : List (Option Bool)}
    (href : Kernels.evaluatePredicate batch predicate = .ok reference) (path : List Bool) :
    ∃ mask, evaluateMask .cuda device columns batch.numRows path predicate = .ok mask ∧
      ∀ i < batch.numRows,
        mask.contents i = if keeps device.compareF64 batch predicate i then 1 else 0 := by
  induction predicate generalizing reference path with
  | compare idx op literal =>
    obtain ⟨column, hcolumn, href⟩ := bind_eq_ok_iff.mp href
    have hget := Kernels.column_ok hcolumn
    have htype : column.dataType = literal.dataType := by
      split at href
      · assumption
      · cases href
    obtain ⟨bytes, hbytes, hcol⟩ := forall₂_getElem? hmoved hget
    have hfound : Filter.column columns idx = .ok bytes := by rw [Filter.column, hbytes]
    have hlen := batch.column_len (List.mem_of_getElem? hget)
    have hdim : vectorDimension column.dataType = none := by
      rw [htype]
      cases literal <;> rfl
    have hbytesType := hcol.dataType.trans htype
    rw [evaluateMask, hfound, ok_bind]
    cases literal with
    | int64 v =>
      refine ⟨_, if_pos hbytesType, fun i hi => ?_⟩
      rw [keeps, hget, Option.bind_some, hcol.cell_eq hdim (hlen.symm ▸ hi),
        cell_int64 hbytesType]
      refine (compareThread_contents _ _ _ hn hi).trans ?_
      cases bytes.isValid i with
      | true => simp [comparesTrue, compareCode_opCode]
      | false => rfl
    | float64 v =>
      refine ⟨_, if_pos hbytesType, fun i hi => ?_⟩
      rw [keeps, hget, Option.bind_some, hcol.cell_eq hdim (hlen.symm ▸ hi),
        cell_float64 hbytesType]
      refine (compareThread_contents _ _ _ hn hi).trans ?_
      cases bytes.isValid i with
      | true => simp [comparesTrue]
      | false => rfl
  | and left right ihLeft ihRight =>
    obtain ⟨leftMask, hleft, href⟩ := bind_eq_ok_iff.mp href
    obtain ⟨rightMask, hright, -⟩ := bind_eq_ok_iff.mp href
    obtain ⟨l, hl, hlkeeps⟩ := ihLeft hleft (false :: path)
    obtain ⟨r, hr, hrkeeps⟩ := ihRight hright (true :: path)
    refine ⟨_, by rw [evaluateMask, hl, ok_bind, hr, ok_bind], fun i hi => ?_⟩
    have hfills := rowLaunch_fills (device.masks path)
      (maskAnd l.contents r.contents batch.numRows) (fun i => l.contents i &&& r.contents i) hn
      (fun i hi => if_pos hi) (fun i hi => if_neg (by omega))
    rw [hfills.contents_getD (by simpa using hi) 0]
    simp only [List.getD_eq_getElem?_getD, List.getElem?_map, List.getElem?_range hi,
      Option.map_some, Option.getD_some, hlkeeps i hi, hrkeeps i hi, keeps]
    by_cases hleftHolds : keeps device.compareF64 batch left i = true
    · by_cases hrightHolds : keeps device.compareF64 batch right i = true
      · simp [hleftHolds, hrightHolds]
      · simp [hleftHolds, hrightHolds]
    · simp [hleftHolds]

end Mask

/-! ## Filters -/

/-- The rows a filter keeps. -/
def keptRows (batch : RecordBatch) (predicate : Predicate) :
    List ℕ :=
  (List.range batch.numRows).filter (keeps compareF64 batch predicate)

section Filter

variable {batch : RecordBatch} {dev : DeviceBatch} {columns : List ColumnBytes}
  {predicate : Predicate} {reference : List (Option Bool)} {projection : List ℕ}
  {picked : List (Field × Column)}

theorem length_keptRows_le (batch : RecordBatch)
    (predicate : Predicate) : (keptRows compareF64 batch predicate).length ≤ batch.numRows := by
  have := List.length_filter_le (keeps compareF64 batch predicate) (List.range batch.numRows)
  rwa [List.length_range] at this

theorem keptRows_lt {compareF64 : ℕ → F64 → F64 → Bool} {row : ℕ}
    (h : row ∈ keptRows compareF64 batch predicate) : row < batch.numRows :=
  List.mem_range.mp (List.mem_filter.mp h).1

theorem compact_keptRows (device : FilterDevice) (hn : batch.numRows < 2 ^ 32) {mask : ℕ → UInt8}
    (hmask : ∀ i < batch.numRows,
      mask i = if keeps device.compareF64 batch predicate i then 1 else 0) :
    ∃ indices : Stored ℕ, compact .cuda device mask batch.numRows =
        .ok (indices, (keptRows device.compareF64 batch predicate).length) ∧
      indices.Fills (keptRows device.compareF64 batch predicate) := by
  obtain ⟨indices, hcompact, hfills⟩ := compact_fills .cuda device mask hn
  have hkept : Compaction.kept (Selected mask batch.numRows) batch.numRows =
      keptRows device.compareF64 batch predicate := by
    refine List.filter_congr fun i hi => ?_
    have hlt := List.mem_range.mp hi
    rw [← Bool.decide_coe (keeps device.compareF64 batch predicate i)]
    refine decide_eq_decide.mpr ?_
    rw [Selected, hmask i hlt]
    by_cases hkeeps : keeps device.compareF64 batch predicate i = true
    · simp [hkeeps, hlt]
    · simp [hkeeps]
  rw [← Compaction.length_kept, hkept] at hcompact
  exact ⟨indices, hcompact, hkept ▸ hfills⟩

theorem gatherProjection_settled (device : FilterDevice)
    (hmoved : List.Forall₂ (Moved backend.layout) batch.columns columns) {indices : ℕ → ℕ}
    {rows : List ℕ} (hindices : ∀ j, ∀ hj : j < rows.length, indices j = rows[j])
    (htotal : rows.length < 2 ^ 32) (hrows : ∀ row ∈ rows, row < batch.numRows)
    (hpicked : List.Forall₂ (fun i entry => batch.entries[i]? = some entry) projection picked) :
    Settled Hard (∀ entry ∈ picked, entry.2.rowBytes < 2 ^ 32)
      (projection.zipIdx.mapM fun entry => Filter.column columns entry.1 >>= fun col =>
        gatherColumn .cuda device entry.2 col indices rows.length)
      (List.Forall₂ (IsGather backend.layout device rows) picked) := by
  have hzip : List.Forall₂ (fun i entry => batch.entries[i.1]? = some entry)
      projection.zipIdx picked :=
    List.forall₂_map_left_iff.mp ((List.zipIdx_map_fst 0 projection).symm ▸ hpicked)
  refine Settled.mapM_of_forall₂ hzip.flip fun entry _ i hentry => ?_
  obtain ⟨bytes, hbytes, hcol⟩ := forall₂_getElem? hmoved
    (show batch.columns[i.1]? = some entry.2 by rw [batch.columns_getElem?, hentry]; rfl)
  rw [Filter.column, hbytes, ok_bind]
  exact gather_settled device i.2 hindices htotal hrows
    (batch.fits _ (List.mem_of_getElem? hentry)) hcol

/-- What a run of the filter leaves on the device. -/
structure IsFilterRun (layout : Layout) (device : FilterDevice) (rows : List ℕ)
    (picked : List (Field × Column)) (run : FilterRun) : Prop where
  fields : run.fields = picked.map Prod.fst
  length : run.numRows = rows.length
  gathers : List.Forall₂ (IsGather layout device rows) picked run.columns

/-- **When a filter runs on the device.** -/
theorem filterRun_settled (hmoved : List.Forall₂ (Moved backend.layout) batch.columns columns)
    (href : Kernels.evaluatePredicate batch predicate = .ok reference)
    (hpicked : List.Forall₂ (fun i entry => batch.entries[i]? = some entry) projection picked) :
    Settled Hard (batch.numRows < 2 ^ 32 ∧ ∀ entry ∈ picked, entry.2.rowBytes < 2 ^ 32)
      (Filter.filterProject .cuda backend.filter batch.schema batch.numRows columns predicate
        projection)
      (IsFilterRun backend.layout backend.filter
        (keptRows backend.filter.compareF64 batch predicate) picked) := by
  by_cases hn : batch.numRows < 2 ^ 32
  · obtain ⟨mask, hmask, hkeeps⟩ := evaluateMask_keeps backend.filter hmoved hn href []
    obtain ⟨indices, hcompact, hfills⟩ := compact_keptRows backend.filter hn hkeeps
    have hle := length_keptRows_le backend.filter.compareF64 batch predicate
    have hfields : projection.mapM (Filter.field .cuda batch.schema) =
        .ok (picked.map Prod.fst) := by
      rw [mapM_eq_ok_iff, List.forall₂_map_right_iff]
      refine hpicked.imp fun i entry hentry => ?_
      rw [Filter.field, batch.fields_getElem?, hentry]
      rfl
    obtain ⟨found, hfound⟩ : ∃ found, projection.mapM (Filter.column columns) = .ok found := by
      refine mapM_ok_of_forall fun i hi => ?_
      obtain ⟨entry, -, hentry⟩ := forall₂_exists_right hpicked hi
      obtain ⟨bytes, hbytes, -⟩ := forall₂_getElem? hmoved
        (show batch.columns[i]? = some entry.2 by rw [batch.columns_getElem?, hentry]; rfl)
      exact ⟨bytes, by rw [Filter.column, hbytes]⟩
    have hlen : u32Len batch.numRows "filter input" = .ok batch.numRows := if_pos hn
    have hgathers := gatherProjection_settled backend backend.filter hmoved
      (fun j hj => hfills.contents_getElem hj) (hle.trans_lt hn) (fun row hrow => keptRows_lt hrow)
      hpicked
    simp only [Filter.filterProject, hlen, hfields, hfound, hmask, hcompact, ok_bind]
    refine (hgathers.bind fun cols _ hcols => .ok trivial ⟨rfl, rfl, hcols⟩).congr ?_ fun _ => id
    rw [and_true, and_iff_right hn]
  · have hlen : u32Len batch.numRows "filter input" =
        .error (.execution ("filter input" ++ " exceeds u32::MAX rows")) := if_neg hn
    rw [Filter.filterProject, hlen]
    exact .error (fun h => hn h.1) rfl

/-- **Filters.**  A filter comes back if the batch has less than `2 ^ 32` rows and the columns it
projects can be gathered. -/
theorem filterProject_settled (hdev : Resident backend.layout batch dev columns)
    (href : Kernels.evaluatePredicate batch predicate = .ok reference)
    (hpicked : List.Forall₂ (fun i entry => batch.entries[i]? = some entry) projection picked) :
    Settled Hard
      (batch.numRows < 2 ^ 32 ∧ picked ≠ [] ∧ ∀ entry ∈ picked, backend.layout.Gathers
        (keptRows backend.filter.compareF64 batch predicate).length entry)
      (backend.filterProject dev predicate projection >>= CudaBackend.download)
      (CameBack backend.layout (keptRows backend.filter.compareF64 batch predicate).length
        picked) := by
  have hle := length_keptRows_le backend.filter.compareF64 batch predicate
  have hdownload : ∀ run,
      batch.numRows < 2 ^ 32 ∧ (∀ entry ∈ picked, entry.2.rowBytes < 2 ^ 32) →
      IsFilterRun backend.layout backend.filter
        (keptRows backend.filter.compareF64 batch predicate) picked run →
      Settled Hard (picked ≠ [] ∧ ∀ entry ∈ picked, backend.layout.ReadsBack
          (keptRows backend.filter.compareF64 batch predicate).length entry)
        (CudaBackend.download ⟨⟨run.fields, []⟩, run.numRows,
          .cuda ⟨run.numRows, run.columns.map DeviceColumn.download⟩⟩)
        (CameBack backend.layout (keptRows backend.filter.compareF64 batch predicate).length
          picked) := by
    rintro run ⟨hn, -⟩ ⟨hfields, hlength, hcols⟩
    rw [hfields, hlength]
    exact download_settled backend.filter_zeroed (hle.trans_lt hn)
      (hcols.imp fun entry col hcol => ⟨_, rfl, hcol⟩)
  rw [CudaBackend.filterProject, DeviceBatch.cudaBatch, hdev.inner, hdev.schema]
  simp only [bind_assoc, ok_bind]
  refine ((filterRun_settled backend hdev.moved href hpicked).bind hdownload).congr ?_ fun _ => id
  constructor
  · rintro ⟨⟨hn, hwidths⟩, hne, hback⟩
    exact ⟨hn, hne, fun entry hentry => ⟨hback entry hentry, hwidths entry hentry⟩⟩
  · rintro ⟨hn, hne, hall⟩
    exact ⟨⟨hn, fun entry hentry => (hall entry hentry).width⟩, hne, fun entry hentry =>
      (hall entry hentry).toReadsBack⟩

end Filter

end OxideLake
