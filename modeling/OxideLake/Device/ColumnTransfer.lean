import OxideLake.Device.Columns
import Mathlib

/-!
# Moving a column to a device and back

`extract` cuts the raw bytes of a column out of an Arrow array and `rebuild` makes an
array of such bytes.  An array is its physical layout here: a value buffer read from an
offset on, a validity bitmap read from a bit on, and for a list the child array with an
offset and a bitmap of its own.  `toColumn` reads the layout as values.

The bytes carry the validity of rows only.  What comes back has every item of every list
valid, so the round trip is the identity exactly on the arrays without a `NULL` item in a
valid row (`rebuild_extract_iff`).
-/

namespace OxideLake

open List Bytes ColumnBytes Partial

variable {width : ℕ} {data : ArrayData} {dt : DataType} {col : ColumnBytes}

/-! ## Arrow arrays by layout -/

/-- A validity bitmap: `len` bits from bit `offset` of a buffer on. -/
structure NullBuffer where
  bytes : List UInt8
  offset : ℕ
  len : ℕ
  /-- `BooleanBuffer::new` asserts that the bits are there. -/
  fits : offset + len ≤ bytes.length * 8

namespace NullBuffer

/-- `NullBuffer::new(BooleanBuffer::new(bytes, 0, len))`. -/
def new (bytes : List UInt8) (len : ℕ) : Result NullBuffer :=
  if h : 0 + len ≤ bytes.length * 8 then .ok ⟨bytes, 0, len, h⟩
  else .error (.panicked "the offset of the new BooleanBuffer cannot exceed the existing length")

variable (nulls : NullBuffer)

/-- Bit `i` of the bitmap. -/
def isValid (i : ℕ) : Bool := bit nulls.bytes (nulls.offset + i)

/-- `Buffer::bit_slice`: the bytes themselves from a byte boundary on, otherwise a packed copy. -/
def sliced : List UInt8 :=
  if nulls.offset % 8 = 0 then slice nulls.bytes (nulls.offset / 8) ((nulls.len + 7) / 8)
  else pack nulls.isValid nulls.len

theorem bit_sliced {i : ℕ} (h : i < nulls.len) :
    bit nulls.sliced i = nulls.isValid i := by
  rw [sliced]
  split
  · next haligned =>
    rw [bit_slice nulls.bytes (by omega), isValid]
    congr 1
    omega
  · exact bit_pack nulls.isValid h

theorem length_sliced : nulls.sliced.length = (nulls.len + 7) / 8 := by
  have hfits := nulls.fits
  rw [sliced]
  split
  · exact length_slice (by omega)
  · exact length_pack _ _

end NullBuffer

/-- Validity at a position; without a bitmap everything is valid. -/
def validAt (nulls : Option NullBuffer) (i : ℕ) : Bool :=
  match nulls with
  | none => true
  | some nulls => nulls.isValid i

/-- A bitmap has a bit for each of `len` positions. -/
def nullsFit (nulls : Option NullBuffer) (len : ℕ) : Bool := nulls.all fun bits => bits.len == len

/-- `ArrayData` of a fixed-width array. -/
structure PrimitiveData where
  dataType : DataType
  len : ℕ
  offset : ℕ
  nulls : Option NullBuffer
  buffers : List (List UInt8)

/-- What Arrow's validation asks of a fixed-width array: one buffer that holds the values. -/
def PrimitiveData.validate (data : PrimitiveData) : Bool :=
  nullsFit data.nulls data.len &&
    match primitiveWidth data.dataType, data.buffers with
    | some width, [buffer] =>
      decide ((data.offset + data.len) * width ≤ buffer.length) && decide (buffer.length < 2 ^ 63)
    | _, _ => false

/-- `ArrayData`: fixed-width arrays and lists over them. -/
structure ArrayData extends PrimitiveData where
  childData : List PrimitiveData

/-- What Arrow's validation asks of an array: of a list, one child that holds the items, and
no `NULL` item in a valid row under an item field that is not nullable. -/
def ArrayData.validate (data : ArrayData) : Bool :=
  match data.dataType with
  | .fixedSizeList _ itemType nullable _ size =>
    match data.childData with
    | [child] =>
      nullsFit data.nulls data.len && child.dataType == itemType && child.validate &&
        decide (0 ≤ size) && decide ((data.offset + data.len) * size.toNat ≤ child.len) &&
        (nullable || (range data.len).all fun i => !validAt data.nulls i ||
          (range size.toNat).all fun k =>
            validAt child.nulls ((data.offset + i) * size.toNat + k))
    | _ => false
  | _ => data.toPrimitiveData.validate

/-- An array: data that passed the validation. -/
structure ArrowArray where
  data : ArrayData
  valid : data.validate = true

/-! ## The values of an array -/

namespace ArrayData

variable (data : ArrayData)

/-- Item `k` of row `row` of a list of `dim` items a row. -/
def item (dim row k : ℕ) : ListItem :=
  match data.childData with
  | [] => ⟨0#32, false⟩
  | child :: _ =>
    let position := (data.offset + row) * dim + k
    ⟨BitVec.ofNat 32 (leNat (slice (child.buffers.headD []) ((child.offset + position) * 4) 4)),
      validAt child.nulls position⟩

/-- The value of a row of a device-eligible array. -/
def value (row : ℕ) : Option Cell :=
  match vectorDimension data.dataType with
  | some dim => some (.vector ((range dim).map (data.item dim row)))
  | none =>
    let width := (primitiveWidth data.dataType).getD 0
    cellOfBytes data.dataType
      (slice (data.buffers.headD []) ((data.offset + row) * width) width)

/-- The row, `NULL` when its bit is unset. -/
def cell (row : ℕ) : Option Cell :=
  if validAt data.nulls row then data.value row else none

variable {data} in
theorem value_vector {dim : ℕ} (h : vectorDimension data.dataType = some dim) (row : ℕ) :
    data.value row = some (.vector ((range dim).map (data.item dim row))) := by
  rw [value, h]

variable {data} in
theorem value_primitive (hdim : vectorDimension data.dataType = none)
    (h : primitiveWidth data.dataType = some width) (row : ℕ) :
    data.value row = cellOfBytes data.dataType
      (slice (data.buffers.headD []) ((data.offset + row) * width) width) := by
  rw [value, hdim, h]
  rfl

theorem value_hasType {row : ℕ} {cell : Cell} (h : data.value row = some cell) :
    cell.hasType data.dataType = true := by
  rw [value] at h
  split at h
  · next dim hdim =>
    obtain ⟨name, nullable, metadata, htype, -⟩ := vectorDimension_eq_some hdim
    cases h
    rw [htype]
    simp [Cell.hasType]
  · exact cellOfBytes_hasType h

/-- The array seen logically. -/
def toColumn : Column where
  dataType := data.dataType
  cells := (range data.len).map data.cell
  typed := by
    intro cell hcell value hvalue
    obtain ⟨row, -, rfl⟩ := mem_map.mp hcell
    rw [Option.mem_def, cell] at hvalue
    split at hvalue
    · exact data.value_hasType hvalue
    · cases hvalue

end ArrayData

/-! ## `extract` -/

def sliceChecked (buffer : List UInt8) (start len : ℕ) (what : String) :
    Result (List UInt8) :=
  if start + len < 2 ^ 64 then
    if buffer.length < start + len then
      .error (.format (what ++ ": array needs " ++ toString (start + len) ++
        " bytes but its buffer holds " ++ toString buffer.length))
    else .ok (slice buffer start len)
  else .error (.execution (what ++ ": buffer range overflows"))

/-- The fixed-width case of `extract`. -/
def extractPrimitive (data : ArrayData) : Result ColumnBytes :=
  let width := (primitiveWidth data.dataType).getD 8
  match data.buffers with
  | [] => .error (.format "primitive array without a value buffer")
  | buffer :: _ => do
      let values ← sliceChecked buffer (data.offset * width) (data.len * width) "primitive column"
      .ok ⟨data.dataType, data.len, values, data.nulls.map NullBuffer.sliced, 0⟩

/-- The list case of `extract`. -/
def extractList (data : ArrayData) (size : ℤ) : Result ColumnBytes :=
  if size < 0 then .error (.plan "negative FixedSizeList size")
  else
    match data.childData with
    | [] => .error (.format "FixedSizeList array without child data")
    | child :: _ =>
      match child.buffers with
      | [] => .error (.format "FixedSizeList child without a value buffer")
      | buffer :: _ => do
          let values ← sliceChecked buffer ((child.offset + data.offset * size.toNat) * 4)
            (data.len * size.toNat * 4) "vector column"
          .ok ⟨data.dataType, data.len, values, data.nulls.map NullBuffer.sliced,
            data.len * size.toNat⟩

/-- `extract`: the raw bytes of a supported column. -/
def extract (array : ArrowArray) : Result ColumnBytes :=
  match array.data.dataType with
  | .int64 | .float64 | .float32 => extractPrimitive array.data
  | .fixedSizeList name itemType nullable metadata size =>
    if itemType = .float32 then extractList array.data size
    else .error (.unsupported "device.column_type"
      ((DataType.fixedSizeList name itemType nullable metadata size).debug ++
        " columns are not device-resident in v1"))
  | other => .error (.unsupported "device.column_type"
      (other.debug ++ " columns are not device-resident in v1"))

/-! ## `rebuild` -/

/-- `ArrayDataBuilder::build` of a child array. -/
def PrimitiveData.build (data : PrimitiveData) : Result PrimitiveData :=
  if data.validate then .ok data else .error (.arrow "invalid child data")

/-- `ArrayDataBuilder::build` and `make_array`. -/
def ArrayData.build (data : ArrayData) : Result ArrowArray :=
  if h : data.validate = true then .ok ⟨data, h⟩ else .error (.arrow "invalid array data")

/-- The validity of the rebuilt array. -/
def rebuildNulls (col : ColumnBytes) : Result (Option NullBuffer) :=
  match col.validity with
  | none => .ok none
  | some bytes => do
      let nulls ← NullBuffer.new bytes col.len
      .ok (some nulls)

/-- `rebuild`: an array of extracted or downloaded bytes. -/
def rebuild (col : ColumnBytes) : Result ArrowArray := do
  let nulls ← rebuildNulls col
  match col.dataType with
  | .int64 | .float64 | .float32 =>
    ArrayData.build ⟨⟨col.dataType, col.len, 0, nulls, [col.values]⟩, []⟩
  | .fixedSizeList _ itemType _ _ _ => do
      -- the child is built without a bitmap
      let child ← PrimitiveData.build ⟨itemType, col.childLen, 0, none, [col.values]⟩
      ArrayData.build ⟨⟨col.dataType, col.len, 0, nulls, []⟩, [child]⟩
  | other => .error (.unsupported "device.column_type"
      ("cannot rebuild " ++ other.debug ++ " columns"))

/-! ## What validation says -/

theorem nullsFit_iff {nulls : Option NullBuffer} {len : ℕ} :
    nullsFit nulls len = true ↔ ∀ bits ∈ nulls, bits.len = len := by
  cases nulls with
  | none | some bits => simp [nullsFit]

theorem PrimitiveData.validate_iff {data : PrimitiveData} :
    data.validate = true ↔ (∀ bits ∈ data.nulls, bits.len = data.len) ∧
      ∃ width buffer, primitiveWidth data.dataType = some width ∧ data.buffers = [buffer] ∧
        (data.offset + data.len) * width ≤ buffer.length ∧ buffer.length < 2 ^ 63 := by
  rw [validate, Bool.and_eq_true, nullsFit_iff]
  refine and_congr_right fun _ => ?_
  split
  · next width buffer hwidth hbuffers => simp [hwidth, hbuffers]
  · next hnot =>
    refine iff_of_false (by simp) ?_
    rintro ⟨width, buffer, hwidth, hbuffers, -⟩
    exact hnot width buffer hwidth hbuffers

theorem ArrayData.validate_list_iff {name : String} {itemType : DataType} {nullable : Bool}
    {metadata : Metadata} {size : ℤ}
    (htype : data.dataType = .fixedSizeList name itemType nullable metadata size) :
    data.validate = true ↔ (∀ bits ∈ data.nulls, bits.len = data.len) ∧
      ∃ child, data.childData = [child] ∧ child.dataType = itemType ∧ child.validate = true ∧
        0 ≤ size ∧ (data.offset + data.len) * size.toNat ≤ child.len ∧
        (nullable = false → ∀ i < data.len, validAt data.nulls i = true →
          ∀ k < size.toNat, validAt child.nulls ((data.offset + i) * size.toNat + k) = true) := by
  unfold validate
  simp only [htype]
  split
  · next child hchild =>
    have hitems : (nullable || (range data.len).all fun i => !validAt data.nulls i ||
        (range size.toNat).all fun k =>
          validAt child.nulls ((data.offset + i) * size.toNat + k)) = true ↔
        (nullable = false → ∀ i < data.len, validAt data.nulls i = true →
          ∀ k < size.toNat, validAt child.nulls ((data.offset + i) * size.toNat + k) = true) := by
      cases nullable <;> simp [or_iff_not_imp_left]
    simp only [Bool.and_eq_true, nullsFit_iff, beq_iff_eq, decide_eq_true_eq, hitems, hchild,
      cons.injEq, and_true, exists_eq_left', and_assoc]
  · next hnot =>
    refine iff_of_false (by simp) ?_
    rintro ⟨-, child, hchild, -⟩
    exact hnot child hchild

theorem ArrayData.validate_primitive (hwidth : primitiveWidth data.dataType = some width) :
    data.validate = data.toPrimitiveData.validate := by
  unfold validate
  split
  · next htype =>
    rw [htype] at hwidth
    cases hwidth
  · rfl

/-! ## The way to the device -/

theorem sliceChecked_eq {buffer : List UInt8} {start len : ℕ} (what : String)
    (hle : start + len ≤ buffer.length) (hlt : buffer.length < 2 ^ 63) :
    sliceChecked buffer start len what = .ok (slice buffer start len) := by
  rw [sliceChecked, if_pos (by omega), if_neg (by omega)]

/-- A cell whose items are all valid. -/
def Cell.withValidItems : Cell → Cell
  | .vector items => .vector (items.map fun item => ⟨item.raw, true⟩)
  | cell => cell

/-- The bytes of an array: the validity of its rows, and the values with every item valid. -/
structure Extracts (data : ArrayData) (bytes : ColumnBytes) : Prop where
  dataType : bytes.dataType = data.dataType
  len : bytes.len = data.len
  childLen : bytes.childLen = data.len * (vectorDimension data.dataType).getD 0
  wellFormed : bytes.WellFormed
  values_lt : bytes.values.length < 2 ^ 63
  cell : ∀ i < data.len, bytes.cell i = (data.cell i).map Cell.withValidItems

theorem isValid_sliced (hnulls : ∀ bits ∈ data.nulls, bits.len = data.len) {bytes : ColumnBytes}
    (hvalidity : bytes.validity = data.nulls.map NullBuffer.sliced) {i : ℕ} (hi : i < data.len) :
    bytes.isValid i = validAt data.nulls i := by
  unfold isValid validAt
  rw [hvalidity]
  cases h : data.nulls with
  | none => rfl
  | some nulls => exact nulls.bit_sliced ((hnulls nulls h).symm ▸ hi)

theorem sliced_covers (hnulls : ∀ bits ∈ data.nulls, bits.len = data.len) (bytes : List UInt8)
    (h : data.nulls.map NullBuffer.sliced = some bytes) :
    (data.len + 7) / 8 ≤ bytes.length := by
  obtain ⟨nulls, hsome, rfl⟩ := Option.map_eq_some_iff.mp h
  rw [nulls.length_sliced, hnulls nulls hsome]

section

variable (h : primitiveWidth dt = some width)
include h

theorem primitiveWidth_eq_some :
    dt = .int64 ∨ dt = .float64 ∨ dt = .float32 := by
  cases dt <;> simp_all [primitiveWidth]

theorem vectorDimension_of_primitiveWidth :
    vectorDimension dt = none := by
  cases dt <;> first | rfl | cases h

theorem rowWidth_of_primitiveWidth :
    rowWidth dt = .ok width := by
  rw [rowWidth, h]

theorem withValidItems_cellOfBytes (row : List UInt8) :
    (cellOfBytes dt row).map Cell.withValidItems = cellOfBytes dt row := by
  cases dt <;> first | rfl | cases h

end

theorem extracts_slice (hnulls : ∀ bits ∈ data.nulls, bits.len = data.len)
    (hwidth : rowWidth data.dataType = .ok width) {buffer : List UInt8} {start : ℕ}
    (hrange : start + data.len * width ≤ buffer.length) (hlt : buffer.length < 2 ^ 63)
    (hvalue : ∀ i < data.len, cellOfBytes data.dataType (slice buffer (start + i * width) width) =
      (data.value i).map Cell.withValidItems) :
    Extracts data ⟨data.dataType, data.len, slice buffer start (data.len * width),
      data.nulls.map NullBuffer.sliced,
      data.len * (vectorDimension data.dataType).getD 0⟩ := by
  have hlength := length_slice hrange
  refine ⟨rfl, rfl, rfl, ⟨?_, ?_, sliced_covers hnulls⟩, ?_, fun i hi => ?_⟩
  · rw [width_eq hwidth]
    exact hwidth
  · rw [width_eq hwidth]
    exact hlength.ge
  · show (slice buffer start (data.len * width)).length < 2 ^ 63
    omega
  · rw [cell, isValid_sliced hnulls rfl hi, ArrayData.cell]
    split
    · have hrow : i * width + width ≤ data.len * width := by
        rw [← Nat.succ_mul]
        exact Nat.mul_le_mul_right _ hi
      rw [rowBytes, width_eq hwidth, slice_slice hrow]
      exact hvalue i hi
    · rfl

theorem extract_primitive (hvalid : data.validate = true)
    (hwidth : primitiveWidth data.dataType = some width) :
    ∃ bytes, extract ⟨data, hvalid⟩ = .ok bytes ∧ Extracts data bytes := by
  have hdim := vectorDimension_of_primitiveWidth hwidth
  have hprimitive := ArrayData.validate_primitive hwidth ▸ hvalid
  obtain ⟨hnulls, width', buffer, hwidth', hbuffers, hfits, hlt⟩ :=
    PrimitiveData.validate_iff.mp hprimitive
  obtain rfl : width = width' := Option.some.inj (hwidth.symm.trans hwidth')
  have hrange : data.offset * width + data.len * width ≤ buffer.length := by
    rw [← Nat.add_mul]
    exact hfits
  have hextract : extract ⟨data, hvalid⟩ = extractPrimitive data := by
    unfold extract
    rcases primitiveWidth_eq_some hwidth with h | h | h <;> simp only [h]
  refine ⟨_, ?_, extracts_slice hnulls (rowWidth_of_primitiveWidth hwidth) hrange hlt fun i _ => ?_⟩
  · rw [hextract, extractPrimitive, hbuffers, hwidth, hdim]
    show (sliceChecked buffer (data.offset * width) (data.len * width) "primitive column" >>= _) = _
    rw [sliceChecked_eq _ hrange hlt]
    rfl
  · rw [ArrayData.value_primitive hdim hwidth, hbuffers, withValidItems_cellOfBytes hwidth,
      ← Nat.add_mul]
    rfl

/-- A vector column out. -/
theorem extract_vector (hvalid : data.validate = true) {dim : ℕ}
    (hdim : vectorDimension data.dataType = some dim) :
    ∃ bytes, extract ⟨data, hvalid⟩ = .ok bytes ∧ Extracts data bytes := by
  obtain ⟨name, nullable, metadata, htype, hpos⟩ := vectorDimension_eq_some hdim
  obtain ⟨hnulls, child, hchild, hitem, hchildValid, -, hcovers, -⟩ :=
    (ArrayData.validate_list_iff htype).mp hvalid
  obtain ⟨-, width, buffer, hwidth, hbuffers, hfits, hlt⟩ :=
    PrimitiveData.validate_iff.mp hchildValid
  rw [hitem] at hwidth
  obtain rfl : 4 = width := Option.some.inj hwidth
  rw [Int.toNat_natCast] at hcovers
  have hrange : (child.offset + data.offset * dim) * 4 + data.len * (dim * 4) ≤ buffer.length := by
    refine Nat.le_trans ?_ hfits
    rw [← Nat.mul_assoc, ← Nat.add_mul, Nat.add_assoc, ← Nat.add_mul]
    exact Nat.mul_le_mul_right _ (Nat.add_le_add_left hcovers _)
  have hextract : extract ⟨data, hvalid⟩ = extractList data dim := by
    unfold extract
    simp only [htype, if_true]
  have hrowWidth : rowWidth data.dataType = .ok (dim * 4) := by
    have hnone : primitiveWidth data.dataType = none := by rw [htype]; rfl
    rw [rowWidth, hnone, hdim]
  refine ⟨_, ?_, extracts_slice hnulls hrowWidth hrange hlt fun i _ => ?_⟩
  · rw [hextract, extractList, if_neg (by omega), hchild, hdim]
    show (match child.buffers with
      | [] => _
      | buffer :: _ => sliceChecked buffer ((child.offset + data.offset * dim) * 4)
          (data.len * dim * 4) "vector column" >>= _) = _
    rw [hbuffers, Nat.mul_assoc data.len]
    show (sliceChecked buffer _ _ _ >>= _) = _
    rw [sliceChecked_eq _ hrange hlt]
    rfl
  · rw [ArrayData.value_vector hdim, cellOfBytes_vector hdim]
    show _ = some (Cell.vector (((range dim).map (data.item dim i)).map _))
    rw [map_map]
    refine congrArg (fun items => some (Cell.vector items)) (map_congr_left fun k hk => ?_)
    -- item `k` of the row, from the child's own offset on
    have hk' : k * 4 + 4 ≤ dim * 4 := by
      have := mem_range.mp hk
      omega
    have hposition : (child.offset + data.offset * dim) * 4 + i * (dim * 4) + k * 4 =
        (child.offset + ((data.offset + i) * dim + k)) * 4 := by ring
    simp only [Function.comp_apply, ArrayData.item, hchild]
    rw [slice_slice hk', hposition, hbuffers]
    rfl

theorem extract_ok {array : ArrowArray} (heligible : isDeviceEligible array.data.dataType = true) :
    ∃ bytes, extract array = .ok bytes ∧ Extracts array.data bytes := by
  rcases isDeviceEligible_iff.mp heligible with ⟨width, hwidth⟩ | ⟨dim, hdim⟩
  · exact extract_primitive array.valid hwidth
  · exact extract_vector array.valid hdim

/-! ## The way back -/

/-- Bytes that can be made an array again. -/
structure Rebuildable (col : ColumnBytes) : Prop where
  eligible : isDeviceEligible col.dataType = true
  wellFormed : col.WellFormed
  values_lt : col.values.length < 2 ^ 63
  childLen : col.childLen = col.len * (vectorDimension col.dataType).getD 0

theorem rebuildNulls_eq (hwf : col.WellFormed) :
    ∃ nulls, rebuildNulls col = .ok nulls ∧ (∀ bits ∈ nulls, bits.len = col.len) ∧
      ∀ i, validAt nulls i = col.isValid i := by
  unfold rebuildNulls isValid
  cases h : col.validity with
  | none => exact ⟨none, rfl, by simp, fun _ => rfl⟩
  | some bytes =>
    have hcovers := hwf.validity bytes h
    have hfits : 0 + col.len ≤ bytes.length * 8 := by omega
    refine ⟨some ⟨bytes, 0, col.len, hfits⟩, ?_, by simp, fun i => ?_⟩
    · show (NullBuffer.new bytes col.len >>= _) = _
      rw [NullBuffer.new, dif_pos hfits]
      rfl
    · show bit bytes (0 + i) = bit bytes i
      rw [Nat.zero_add]

theorem rebuild_primitive (h : Rebuildable col)
    (hwidth : primitiveWidth col.dataType = some width) :
    ∃ array, rebuild col = .ok array ∧ array.data.toColumn = col.toColumn := by
  obtain ⟨nulls, hnulls, hlen, hvalid⟩ := rebuildNulls_eq h.wellFormed
  have hrowWidth := width_eq (rowWidth_of_primitiveWidth hwidth)
  have hdim := vectorDimension_of_primitiveWidth hwidth
  let data : ArrayData := ⟨⟨col.dataType, col.len, 0, nulls, [col.values]⟩, []⟩
  have hvalidate : data.validate = true := by
    rw [ArrayData.validate_primitive hwidth, PrimitiveData.validate_iff]
    refine ⟨hlen, width, col.values, hwidth, rfl, ?_, h.values_lt⟩
    rw [Nat.zero_add, ← hrowWidth]
    exact h.wellFormed.values
  refine ⟨⟨data, hvalidate⟩, ?_, Column.ext rfl (map_congr_left fun i _ => ?_)⟩
  · have hbuild : data.build = .ok ⟨data, hvalidate⟩ := dif_pos hvalidate
    rw [rebuild, hnulls, ok_bind, ← hbuild]
    rcases primitiveWidth_eq_some hwidth with htype | htype | htype <;> simp only [htype, data]
  · show (if validAt nulls i then data.value i else none) = _
    rw [hvalid, cell, rowBytes, hrowWidth,
      ArrayData.value_primitive (show vectorDimension data.dataType = none from hdim) hwidth]
    show (if _ then cellOfBytes col.dataType (slice col.values ((0 + i) * width) width) else _) = _
    rw [Nat.zero_add]

/-- A vector column back. -/
theorem rebuild_vector (h : Rebuildable col) {dim : ℕ}
    (hdim : vectorDimension col.dataType = some dim) :
    ∃ array, rebuild col = .ok array ∧ array.data.toColumn = col.toColumn := by
  obtain ⟨nulls, hnulls, hlen, hvalid⟩ := rebuildNulls_eq h.wellFormed
  obtain ⟨name, nullable, metadata, htype, hpos⟩ := vectorDimension_eq_some hdim
  have hrowWidth : col.width = dim * 4 := by
    have hnone : primitiveWidth col.dataType = none := by rw [htype]; rfl
    refine width_eq ?_
    rw [rowWidth, hnone, hdim]
  have hchildLen : col.childLen = col.len * dim := by rw [h.childLen, hdim]; rfl
  have hvalues := h.wellFormed.values
  rw [hrowWidth, ← Nat.mul_assoc, ← hchildLen] at hvalues
  let child : PrimitiveData := ⟨.float32, col.childLen, 0, none, [col.values]⟩
  let data : ArrayData := ⟨⟨col.dataType, col.len, 0, nulls, []⟩, [child]⟩
  have hchild : child.validate = true := by
    rw [PrimitiveData.validate_iff]
    refine ⟨by simp [child], 4, col.values, rfl, rfl, ?_, h.values_lt⟩
    rwa [Nat.zero_add]
  have hvalidate : data.validate = true := by
    rw [ArrayData.validate_list_iff htype]
    refine ⟨hlen, child, rfl, rfl, hchild, by omega, ?_, fun _ _ _ _ _ _ => rfl⟩
    show (0 + col.len) * (dim : ℤ).toNat ≤ col.childLen
    rw [Nat.zero_add, Int.toNat_natCast, hchildLen]
  refine ⟨⟨data, hvalidate⟩, ?_, Column.ext rfl (map_congr_left fun i _ => ?_)⟩
  · have hbuild : data.build = .ok ⟨data, hvalidate⟩ := dif_pos hvalidate
    have hbuildChild : child.build = .ok child := if_pos hchild
    rw [rebuild, hnulls, ok_bind, ← hbuild]
    simp only [htype]
    rw [hbuildChild, ok_bind]
    simp only [data, htype]
  · show (if validAt nulls i then data.value i else none) = _
    rw [hvalid, cell, rowBytes, hrowWidth, cellOfBytes_vector hdim,
      ArrayData.value_vector (show vectorDimension data.dataType = some dim from hdim)]
    refine congrArg (fun items => if col.isValid i then some (Cell.vector items) else none)
      (map_congr_left fun k hk => ?_)
    have hk' : k * 4 + 4 ≤ dim * 4 := by
      have := mem_range.mp hk
      omega
    show (⟨BitVec.ofNat 32 (leNat (slice col.values ((0 + ((0 + i) * dim + k)) * 4) 4)), true⟩ :
      ListItem) = _
    rw [slice_slice hk']
    congr 4
    ring

theorem rebuild_ok (h : Rebuildable col) :
    ∃ array, rebuild col = .ok array ∧ array.data.toColumn = col.toColumn := by
  rcases isDeviceEligible_iff.mp h.eligible with ⟨width, hwidth⟩ | ⟨dim, hdim⟩
  · exact rebuild_primitive h hwidth
  · exact rebuild_vector h hdim

/-! ## The round trip -/

/-- The same item: both `NULL`, or both valid with the same value. -/
def ListItem.Same (a b : ListItem) : Prop := a.valid = b.valid ∧ (a.valid = true → a.raw = b.raw)

/-- The same value, item by item for a vector. -/
def Cell.Same : Cell → Cell → Prop
  | .vector xs, .vector ys => List.Forall₂ ListItem.Same xs ys
  | a, b => a = b

/-- Arrays of one type and length with the same `NULL`s, of rows and of items, and the same
values at the valid positions. -/
def Column.LogicallyEqual (a b : Column) : Prop :=
  a.dataType = b.dataType ∧ List.Forall₂ (Option.Rel Cell.Same) a.cells b.cells

/-- Every item of every valid row is valid. -/
def ArrayData.ItemsValid (data : ArrayData) : Prop :=
  ∀ dim ∈ vectorDimension data.dataType, ∀ i < data.len, validAt data.nulls i = true →
    ∀ k < dim, (data.item dim i k).valid = true

theorem Cell.same_vector_iff {items : List ListItem} :
    Cell.Same (Cell.vector items).withValidItems (.vector items) ↔
      ∀ item ∈ items, item.valid = true := by
  show List.Forall₂ ListItem.Same (items.map fun item => ⟨item.raw, true⟩) items ↔ _
  rw [forall₂_map_left_iff, forall₂_same]
  refine forall₂_congr fun item _ => ?_
  exact ⟨fun h => h.1.symm, fun h => ⟨h.symm, fun _ => rfl⟩⟩

theorem cellOfBytes_same (h : vectorDimension dt = none) (row : List UInt8) :
    Option.Rel Cell.Same ((cellOfBytes dt row).map Cell.withValidItems) (cellOfBytes dt row) := by
  unfold cellOfBytes
  split
  · exact .some rfl
  · exact .some rfl
  · exact .some rfl
  · rw [h]
    exact .none

theorem cell_same_iff {i : ℕ} :
    Option.Rel Cell.Same ((data.cell i).map Cell.withValidItems) (data.cell i) ↔
      ∀ dim ∈ vectorDimension data.dataType, validAt data.nulls i = true →
        ∀ k < dim, (data.item dim i k).valid = true := by
  rw [ArrayData.cell]
  split
  · next hvalid =>
    cases hdim : vectorDimension data.dataType with
    | none =>
      rw [ArrayData.value, hdim]
      refine iff_of_true (cellOfBytes_same hdim _) fun dim h => ?_
      cases h
    | some dim =>
      rw [ArrayData.value_vector hdim, Option.map_some, Option.rel_some_some, Cell.same_vector_iff]
      simp [hvalid]
  · next hnull => exact iff_of_true .none fun _ _ hvalid => absurd hvalid hnull

theorem rebuild_extract_ok {array : ArrowArray}
    (heligible : isDeviceEligible array.data.dataType = true) :
    ∃ back, (extract array >>= rebuild) = .ok back ∧
      (back.data.toColumn.LogicallyEqual array.data.toColumn ↔ array.data.ItemsValid) := by
  obtain ⟨bytes, hextract, hbytes⟩ := extract_ok heligible
  have hrebuildable : Rebuildable bytes :=
    ⟨hbytes.dataType ▸ heligible, hbytes.wellFormed, hbytes.values_lt, by
      rw [hbytes.childLen, hbytes.len, hbytes.dataType]⟩
  obtain ⟨back, hback, hcolumn⟩ := rebuild_ok hrebuildable
  have hcells : back.data.toColumn.cells =
      (range array.data.len).map fun i => (array.data.cell i).map Cell.withValidItems := by
    rw [hcolumn]
    show (range bytes.len).map bytes.cell = _
    rw [hbytes.len]
    exact map_congr_left fun i hi => hbytes.cell i (mem_range.mp hi)
  refine ⟨back, by rw [hextract, ok_bind, hback], ?_⟩
  rw [Column.LogicallyEqual, hcells, hcolumn]
  rw [show array.data.toColumn.cells = (range array.data.len).map array.data.cell from rfl,
    forall₂_map_left_iff, forall₂_map_right_iff, forall₂_same]
  constructor
  · rintro ⟨-, h⟩ dim hdim i hi hvalid
    exact cell_same_iff.mp (h i (mem_range.mpr hi)) dim hdim hvalid
  · intro h
    refine ⟨hbytes.dataType, fun i hi => cell_same_iff.mpr fun dim hdim hvalid => ?_⟩
    exact h dim hdim i (mem_range.mp hi) hvalid

/-- **Moving a column to a device and back** is the identity on an array of a device-eligible
type exactly when every item of every valid row is valid. -/
theorem rebuild_extract_iff (array : ArrowArray)
    (heligible : isDeviceEligible array.data.dataType = true) :
    (∃ back, (extract array >>= rebuild) = .ok back ∧
      back.data.toColumn.LogicallyEqual array.data.toColumn) ↔ array.data.ItemsValid := by
  obtain ⟨back, hback, hsame⟩ := rebuild_extract_ok heligible
  constructor
  · rintro ⟨back', hback', h⟩
    rw [hback] at hback'
    cases hback'
    exact hsame.mp h
  · exact fun h => ⟨back, hback, hsame.mpr h⟩

/-- Two rows of two items each from the second row of a three-row array on: the first is
`NULL`, its bit being bit 9 of the bitmap, and the child starts at its second value. -/
def slicedVectors : ArrowArray where
  data := ⟨⟨.fixedSizeList "item" .float32 true [] 2, 2, 1,
      some ⟨[0, 4], 9, 2, by decide⟩, []⟩,
    [⟨.float32, 6, 1, none, [replicate 28 7]⟩]⟩
  valid := by decide

theorem rebuild_extract_iff_sliced :
    ∃ back, (extract slicedVectors >>= rebuild) = .ok back ∧
      back.data.toColumn.LogicallyEqual slicedVectors.data.toColumn :=
  (rebuild_extract_iff slicedVectors (by decide)).mpr fun _ hdim _ _ _ _ _ => by
    cases hdim
    rfl

/-- One valid row of two items, the first of them `NULL`. -/
def nullItem : ArrowArray where
  data := ⟨⟨.fixedSizeList "item" .float32 true [] 2, 1, 0, none, []⟩,
    [⟨.float32, 2, 0, some ⟨[2], 0, 2, by decide⟩, [replicate 8 7]⟩]⟩
  valid := by decide

/-- **A `NULL` item comes back valid.** -/
theorem rebuild_extract_nullItem :
    isDeviceEligible nullItem.data.dataType = true ∧ (nullItem.data.item 2 0 0).valid = false ∧
    ∃ back, (extract nullItem >>= rebuild) = .ok back ∧ (back.data.item 2 0 0).valid = true ∧
      ¬ back.data.toColumn.LogicallyEqual nullItem.data.toColumn := by
  have heligible : isDeviceEligible nullItem.data.dataType = true := by decide
  obtain ⟨back, hback, hsame⟩ := rebuild_extract_ok heligible
  refine ⟨heligible, by decide, back, hback, ?_, fun h => ?_⟩
  · cases hback
    rfl
  · exact absurd (hsame.mp h 2 rfl 0 (by decide) rfl 0 (by decide)) (by decide)

end OxideLake
