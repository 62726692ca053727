import OxideLake.Arrow.Rows
import OxideLake.Device.FilterKernels

/-!
# The device filter keeps the rows of the reference

Each launch is brought into one form: its stores, read thread by thread, go to the
addresses `0, 1, 2, …`.  That says that every slot is written once, whatever the order in
which the stores take effect, and what the buffer holds afterwards.

The mask has a one exactly where the reference's mask is true, the scatter stores the
selected rows at their ranks, and a gather copies the bytes and the validity bit of the row
each slot of the index buffer names.
-/

namespace OxideLake

open List Partial Kernels ColumnBytes

namespace Filter

open Scatter Compaction Bytes Cuda

variable {total n b t : ℕ} {col : ColumnBytes} {indices : ℕ → ℕ} {batch : RecordBatch}
  {predicate : Predicate}

/-! ## Launches -/

section Launch

variable {α : Type}

theorem flatMap_range_blocks (size blocks : ℕ) :
    (range blocks).flatMap (fun b => (range size).map fun t => b * size + t) =
      range (blocks * size) := by
  induction blocks with
  | zero => simp
  | succ blocks ih =>
    rw [range_succ, flatMap_append, ih, flatMap_singleton, Nat.succ_mul,
      range_add]

theorem gridFor_bounds (h : n < 2 ^ 32) :
    n ≤ gridFor n * 256 ∧ gridFor n * 256 ≤ 2 ^ 32 := by
  unfold gridFor
  omega

theorem threadIndex_eq {blocks : ℕ} (hblocks : blocks * 256 ≤ 2 ^ 32) (hb : b < blocks)
    (ht : t < 256) : threadIndex (b, t) = b * 256 + t := by
  refine Nat.mod_eq_of_lt ?_
  have : (b + 1) * 256 ≤ blocks * 256 := Nat.mul_le_mul_right _ hb
  omega

theorem map_threadIndex {blocks : ℕ} (h : blocks * 256 ≤ 2 ^ 32) :
    (threads blocks).map threadIndex = range (blocks * 256) := by
  rw [← flatMap_range_blocks, threads, map_flatMap]
  refine flatMap_congr fun b hb => ?_
  rw [map_map]
  exact map_congr_left fun t ht =>
    threadIndex_eq h (mem_range.mp hb) (mem_range.mp ht)

/-- **A kernel over rows**: the threads behind the last row store nothing. -/
theorem rowLaunch_eq {kernel : ℕ → List (ℕ × α)} (hn : n < 2 ^ 32)
    (hbound : ∀ i, n ≤ i → kernel i = []) :
    rowLaunch kernel n = (range n).flatMap kernel := by
  obtain ⟨hcover, hgrid⟩ := gridFor_bounds hn
  have hindex : rowLaunch kernel n = ((threads (gridFor n)).map threadIndex).flatMap kernel :=
    (flatMap_map _ _ _).symm
  obtain ⟨extra, hextra⟩ := Nat.le.dest hcover
  rw [hindex, map_threadIndex hgrid, ← hextra, range_add, flatMap_append,
    flatMap_map]
  refine (congrArg _ (flatMap_eq_nil_iff.mpr fun i _ => ?_)).trans (append_nil _)
  exact hbound _ (Nat.le_add_right n i)

/-- A launch that stores to the addresses of a prefix, each once and in order of its
threads. -/
structure Stored.Fills (stored : Stored α) (values : List α) : Prop where
  once : ExactlyOnce values.length stored.writes
  contents : read stored.contents values.length = values

theorem Stored.Fills.contents_getD {stored : Stored α} {values : List α} (h : stored.Fills values)
    {i : ℕ} (hi : i < values.length) (default : α) :
    stored.contents i = values.getD i default := by
  have hread := congrArg (fun list => list[i]?) h.contents
  simp only [Scatter.read, getElem?_map, getElem?_range hi, Option.map_some] at hread
  rw [getD_eq_getElem?_getD, ← hread, Option.getD_some]

theorem Stored.Fills.contents_getElem {stored : Stored ℕ} {values : List ℕ}
    (h : stored.Fills values) {i : ℕ} (hi : i < values.length) : stored.contents i = values[i] := by
  rw [h.contents_getD hi 0, getD_eq_getElem _ _ hi]

variable (buffer : Fresh α)

theorem launch_fills {writes : List (ℕ × α)} (haddresses : writes.map Prod.fst = range n) :
    (buffer.launch writes).Fills (writes.map Prod.snd) := by
  have hlength : (writes.map Prod.snd).length = n := by
    rw [length_map, ← length_map (f := Prod.fst), haddresses, length_range]
  constructor
  · rw [hlength]
    exact exactlyOnce_of_addresses haddresses (buffer.perm writes)
  · rw [hlength]
    exact read_scatter haddresses (buffer.perm writes) buffer.fresh

theorem untouched_fills : (buffer.untouched).Fills [] := ⟨List.Perm.nil, rfl⟩

theorem rowLaunch_fills (kernel : ℕ → List (ℕ × α)) (value : ℕ → α) (hn : n < 2 ^ 32)
    (hbound : ∀ i, n ≤ i → kernel i = []) (hrow : ∀ i, i < n → kernel i = [(i, value i)]) :
    (buffer.launch (rowLaunch kernel n)).Fills ((range n).map value) := by
  have hwrites : rowLaunch kernel n = (range n).map fun i => (i, value i) := by
    rw [rowLaunch_eq hn hbound, map_eq_flatMap]
    exact flatMap_congr fun i hi => hrow i (mem_range.mp hi)
  have haddresses : ((range n).map fun i => (i, value i)).map Prod.fst = range n := by
    rw [map_map]
    exact map_id _
  have hfills := launch_fills buffer haddresses
  rw [map_map] at hfills
  rw [hwrites]
  exact hfills

end Launch

/-! ## The mask -/

/-- The columns of a batch on a device. -/
structure Holds (columns : List ColumnBytes) (batch : RecordBatch) : Prop where
  same : columns.map toColumn = batch.columns
  wellFormed : ∀ col ∈ columns, col.WellFormed

namespace Holds

variable {columns : List ColumnBytes} {batch : RecordBatch} (h : Holds columns batch)

include h

theorem getElem? (i : ℕ) : batch.columns[i]? = (columns[i]?).map toColumn := by
  rw [← h.same, getElem?_map]

theorem len (hcol : col ∈ columns) : col.len = batch.numRows := by
  rw [← col.toColumn_len]
  exact RecordBatch.column_len (h.same ▸ mem_map_of_mem hcol)

theorem column_eq {i : ℕ} (hcol : columns[i]? = some col) :
    Kernels.column batch i = .ok col.toColumn := by
  rw [Kernels.column, h.getElem?, hcol]
  rfl

theorem length_eq : columns.length = batch.numColumns := by
  rw [← batch.length_columns, ← h.same, length_map]

end Holds

/-- Every comparison is of an `Int64` column with an `Int64` literal. -/
def Int64Leaves (columns : List ColumnBytes) : Predicate → Prop
  | .compare idx _ literal =>
    (∃ v, literal = .int64 v) ∧ ∃ col, columns[idx]? = some col ∧ col.dataType = .int64
  | .and left right => Int64Leaves columns left ∧ Int64Leaves columns right

/-- The byte of a mask where the reference's mask has `value`. -/
def maskByte (value : Option Bool) : UInt8 := if value = some true then 1 else 0

theorem maskByte_and (a b : Option Bool) :
    maskByte a &&& maskByte b = maskByte (Kernels.andKleene a b) := by
  rcases a with _ | _ | _ <;> rcases b with _ | _ | _ <;> rfl

theorem compareCode_opCode (op : Comparison) (v literal : Int64) :
    compareCode (opCode op) v literal = Kernels.compareInt64 op v literal := by
  cases op <;> rfl

theorem cell_int64 (htype : col.dataType = .int64) (i : ℕ) :
    col.cell i =
      if col.isValid i then some (.int64 (Int64.ofNat (leNat (slice col.values (i * 8) 8))))
      else none := by
  rw [cell, rowBytes, width, htype]
  rfl

theorem compareI64_fills (buffer : Fresh UInt8) (htype : col.dataType = .int64) (op : Comparison)
    (literal : Int64) (hn : n < 2 ^ 32) :
    (buffer.launch (rowLaunch (compareI64 col (opCode op) literal n) n)).Fills
      ((range n).map fun i =>
        maskByte ((col.cell i).bind (Kernels.compareCell op (.int64 literal)))) := by
  refine rowLaunch_fills buffer _ _ hn (fun i hi => if_pos hi) fun i hi => ?_
  rw [compareI64, compareThread, if_neg (by omega), cell_int64 htype, compareCode_opCode]
  by_cases hvalid : col.isValid i = true
  · rw [if_neg (by simp [hvalid]), if_pos hvalid, Option.bind_some]
    simp [Kernels.compareCell, maskByte]
  · rw [if_pos (by simpa using hvalid), if_neg hvalid]
    rfl

/-- What the masks of the device say of those of the reference. -/
def IsMask (n : ℕ) (mask : Stored UInt8) (reference : List (Option Bool)) : Prop :=
  reference.length = n ∧ mask.Fills (reference.map maskByte)

theorem leafMask_isMask (api : Api) (device : FilterDevice) (path : List Bool)
    (htype : col.dataType = .int64) (op : Comparison) (v : Int64) (hn : col.len < 2 ^ 32) :
    ∃ mask, leafMask api device path col op (.int64 v) col.len = .ok mask ∧
      IsMask col.len mask
        (col.toColumn.cells.map fun cell => cell.bind (Kernels.compareCell op (.int64 v))) := by
  refine ⟨(device.masks path).launch (rowLaunch (compareI64 col (opCode op) v col.len) col.len),
    ?_, ?_, ?_⟩
  · cases api with
    | cuda => exact if_pos htype
    | metal =>
      unfold leafMask
      rw [htype]
  · simp [toColumn]
  · have hfills := compareI64_fills (device.masks path) htype op v hn
    rw [toColumn, map_map, map_map]
    exact hfills

theorem maskAnd_fills (buffer : Fresh UInt8) (hn : n < 2 ^ 32) {l r : Stored UInt8}
    {left right : List (Option Bool)} (hl : IsMask n l left) (hr : IsMask n r right) :
    IsMask n (buffer.launch (rowLaunch (maskAnd l.contents r.contents n) n))
      (zipWith Kernels.andKleene left right) := by
  obtain ⟨hleft, hlfills⟩ := hl
  obtain ⟨hright, hrfills⟩ := hr
  have hlength : (zipWith Kernels.andKleene left right).length = n := by
    rw [length_zipWith, hleft, hright, Nat.min_self]
  refine ⟨hlength, ?_⟩
  have hfills := rowLaunch_fills buffer (maskAnd l.contents r.contents n)
    (fun i => l.contents i &&& r.contents i) hn (fun i hi => if_pos hi)
    (fun i hi => if_neg (by omega))
  convert hfills using 1
  refine ext_getElem? fun i => ?_
  by_cases hi : i < n
  · have hli : l.contents i = _ := hlfills.contents_getD (by simpa [hleft] using hi) 0
    have hri : r.contents i = _ := hrfills.contents_getD (by simpa [hright] using hi) 0
    rw [getElem?_map, getElem?_map, getElem?_range hi, Option.map_some, hli, hri,
      getElem?_zipWith]
    rw [getD_eq_getElem?_getD, getD_eq_getElem?_getD, getElem?_map,
      getElem?_map, getElem?_eq_getElem (hleft.symm ▸ hi),
      getElem?_eq_getElem (hright.symm ▸ hi)]
    exact congrArg some (maskByte_and _ _).symm
  · rw [getElem?_eq_none (by rw [length_map, hlength]; omega),
      getElem?_eq_none (by simpa using hi)]

/-- **The mask** of a predicate over `Int64` columns is the reference's. -/
theorem evaluateMask_isMask (api : Api) (device : FilterDevice) {columns : List ColumnBytes}
    (hholds : Holds columns batch) (hn : batch.numRows < 2 ^ 32)
    (hleaves : Int64Leaves columns predicate) (path : List Bool) :
    ∃ mask reference, evaluateMask api device columns batch.numRows path predicate = .ok mask ∧
      evaluatePredicate batch predicate = .ok reference ∧
      IsMask batch.numRows mask reference := by
  induction predicate generalizing path with
  | compare idx op literal =>
    obtain ⟨⟨v, rfl⟩, col, hcol, htype⟩ := hleaves
    have hlen := hholds.len (mem_of_getElem? hcol)
    obtain ⟨mask, hmask, hreference⟩ :=
      leafMask_isMask api device path htype op v (hlen.symm ▸ hn)
    have hcolumn : column columns idx = .ok col := by rw [column, hcol]
    rw [hlen] at hmask hreference
    refine ⟨mask, _, ?_, ?_, hreference⟩
    · rw [evaluateMask, hcolumn, ok_bind, hmask]
    · rw [evaluatePredicate, hholds.column_eq hcol, ok_bind]
      exact if_pos htype
  | and left right ihLeft ihRight =>
    obtain ⟨l, left', hl, hleft, hlmask⟩ := ihLeft hleaves.1 (false :: path)
    obtain ⟨r, right', hr, hright, hrmask⟩ := ihRight hleaves.2 (true :: path)
    refine ⟨_, _, ?_, ?_, maskAnd_fills (device.masks path) hn hlmask hrmask⟩
    · rw [evaluateMask, hl, ok_bind, hr, ok_bind]
    · rw [evaluatePredicate, hleft, ok_bind, hright, ok_bind]

/-! ## Compaction -/

section Compact

variable {api : Api} {device : FilterDevice} {mask : ℕ → UInt8} {n : ℕ}

theorem mem_threads {blocks : ℕ} (h : (b, t) ∈ threads blocks) : b < blocks ∧ t < 256 := by
  obtain ⟨b', hb, h⟩ := mem_flatMap.mp h
  obtain ⟨t', ht, h⟩ := mem_map.mp h
  cases h
  exact ⟨mem_range.mp hb, mem_range.mp ht⟩

section

variable (hn : n < 2 ^ 32)
include hn

theorem flag_iff (hb : b < gridFor n) (ht : t < 256) :
    Flag mask n b t ↔ Selected mask n (b * 256 + t) := by
  rw [Flag, threadIndex_eq (gridFor_bounds hn).2 hb ht]

theorem count_flag (hb : b < gridFor n) (ht : t ≤ 256) :
    Nat.count (Flag mask n b) t = Nat.count (fun t => Selected mask n (b * 256 + t)) t :=
  count_congr fun _ hk => flag_iff hn hb (Nat.lt_of_lt_of_le hk ht)

theorem blockCount_eq (hb : b < gridFor n) :
    blockCount api device mask n b = Compaction.blockCount (Selected mask n) 256 b := by
  refine Eq.trans ?_ (count_flag hn hb le_rfl)
  cases api with
  | cuda => rfl
  | metal =>
    -- the order of the additions does not matter
    exact (((device.adds_perm b).map _).sum_nat).trans (sum_blockCount (Flag mask n b) 32 8)

/-- Both versions rank a flagged thread by the flagged threads before it in the block. -/
theorem blockRank_eq (hb : b < gridFor n) (ht : t < 256) (hflag : Flag mask n b t) :
    blockRank api mask n b t = Nat.count (fun t => Selected mask n (b * 256 + t)) t := by
  refine Eq.trans ?_ (count_flag hn hb ht.le)
  cases api with
  | cuda =>
    have hscan := hillisSteele_eq (Flag mask n b) (show t < 2 ^ 8 from ht)
    rw [blockRank, hscan, Nat.count_succ, if_pos hflag, Nat.add_sub_cancel]
  | metal => exact groupedRank_eq (Flag mask n b) 32 t

theorem scan_counts :
    exclusiveScan (read (device.counts.launch ((range (gridFor n)).map fun b =>
        (b, blockCount api device mask n b))).contents (gridFor n)) =
      .ok (offsets 0 ((range (gridFor n)).map (Compaction.blockCount (Selected mask n) 256)),
        Nat.count (Selected mask n) n) := by
  have haddresses : ((range (gridFor n)).map fun b =>
      (b, blockCount api device mask n b)).map Prod.fst = range (gridFor n) := by
    rw [map_map]
    exact map_id _
  have hread := (launch_fills device.counts haddresses).contents
  have hcounts : (range (gridFor n)).map (blockCount api device mask n) =
      (range (gridFor n)).map (Compaction.blockCount (Selected mask n) 256) :=
    map_congr_left fun b hb => blockCount_eq hn (mem_range.mp hb)
  rw [length_map, length_map, length_range, map_map] at hread
  rw [hread, Function.comp_def, hcounts]
  have htotal : Nat.count (Selected mask n) (gridFor n * 256) = Nat.count (Selected mask n) n :=
    count_of_le (fun i hi => hi.1) (gridFor_bounds hn).1
  have hle : Nat.count (Selected mask n) n ≤ n := Nat.count_le _
  rw [exclusiveScan_eq, sum_blockCount, htotal]
  rw [sum_blockCount, htotal]
  omega

theorem scatterIndices_writes :
    (threads (gridFor n)).flatMap (scatterIndices api mask n
        (offsets 0 ((range (gridFor n)).map (Compaction.blockCount (Selected mask n) 256)))) =
      (kept (Selected mask n) n).map fun i => (Nat.count (Selected mask n) i, i) := by
  obtain ⟨hcover, hgrid⟩ := gridFor_bounds hn
  let lane : ℕ → List (ℕ × ℕ) := fun i =>
    if Selected mask n i then [(Nat.count (Selected mask n) i, i)] else []
  have hthread : ∀ thread ∈ threads (gridFor n), scatterIndices api mask n
      (offsets 0 ((range (gridFor n)).map (Compaction.blockCount (Selected mask n) 256)))
        thread = lane (threadIndex thread) := by
    rintro ⟨b, t⟩ hmem
    obtain ⟨hb, ht⟩ := mem_threads hmem
    rw [scatterIndices]
    by_cases hflag : Flag mask n b t
    · rw [if_pos hflag, blockRank_eq hn hb ht hflag, offsets_blockCount _ hb, ← count_in_block,
        ← threadIndex_eq hgrid hb ht]
      exact (if_pos hflag).symm
    · rw [if_neg hflag]
      exact (if_neg hflag).symm
  calc (threads (gridFor n)).flatMap _
      = (threads (gridFor n)).flatMap fun thread => lane (threadIndex thread) :=
        flatMap_congr hthread
    _ = (range (gridFor n * 256)).flatMap lane := by
        rw [← map_threadIndex hgrid, flatMap_map]
    _ = (kept (Selected mask n) (gridFor n * 256)).map _ := flatMap_ite_kept _ _ _
    _ = _ := by rw [kept_of_le (fun i hi => hi.1) hcover]

end

/-- **Compaction** stores the selected rows in order, every slot once. -/
theorem compact_fills (api : Api) (device : FilterDevice) (mask : ℕ → UInt8) (hn : n < 2 ^ 32) :
    ∃ indices, compact api device mask n = .ok (indices, Nat.count (Selected mask n) n) ∧
      indices.Fills (kept (Selected mask n) n) := by
  have haddresses : ((kept (Selected mask n) n).map fun i =>
      (Nat.count (Selected mask n) i, i)).map Prod.fst =
      range (Nat.count (Selected mask n) n) := by
    rw [map_map, ← map_count_kept]
    rfl
  have hfills := launch_fills device.indices haddresses
  rw [map_map, show (Prod.snd ∘ fun i => (Nat.count (Selected mask n) i, i)) = id from rfl,
    map_id] at hfills
  simp only [compact, scan_counts hn, ok_bind, scatterIndices_writes hn]
  refine ⟨_, rfl, ?_⟩
  split
  · exact hfills
  · next htotal =>
    have hempty : kept (Selected mask n) n = [] :=
      eq_nil_of_length_eq_zero (by rw [length_kept]; omega)
    rw [hempty]
    exact untouched_fills _

end Compact

/-! ## Gathering -/

section Gather

variable {api : Api} {device : FilterDevice} {col : ColumnBytes} {indices : ℕ → ℕ} {total : ℕ}

theorem copyRow_eq {unit width : ℕ} (hunit : unit ∣ width) (src : List UInt8) (row j : ℕ) :
    copyRow unit width src row j = (range width).map fun k =>
      (j * width + k, src.getD (row * width + k) 0) := by
  have hbytes : copyRow unit width src row j =
      ((range (width / unit)).flatMap fun k => (range unit).map fun byte =>
        k * unit + byte).map fun k => (j * width + k, src.getD (row * width + k) 0) := by
    rw [copyRow, map_flatMap]
    refine flatMap_congr fun k _ => ?_
    rw [map_map]
    refine map_congr_left fun byte _ => ?_
    simp only [Function.comp_apply, Nat.add_assoc]
  rw [hbytes, flatMap_range_blocks, Nat.div_mul_cancel hunit]

theorem gatherFixed_eq (api : Api) (src : List UInt8) (width : ℕ) (indices : ℕ → ℕ) {nOut j : ℕ}
    (hj : j < nOut) :
    gatherFixed api src width indices nOut j = (range width).map fun k =>
      (j * width + k, src.getD (indices j * width + k) 0) := by
  unfold gatherFixed
  rw [if_neg (by omega)]
  cases api with
  | cuda =>
    show (if width % 8 = 0 then _ else if width % 4 = 0 then _ else _) = _
    split
    · next h => exact copyRow_eq (Nat.dvd_of_mod_eq_zero h) src (indices j) j
    · split
      · next h => exact copyRow_eq (Nat.dvd_of_mod_eq_zero h) src (indices j) j
      · exact copyRow_eq (one_dvd width) src (indices j) j
  | metal => exact copyRow_eq (one_dvd width) src (indices j) j

theorem gatherFixed_fills (buffer : Fresh UInt8) (api : Api) (src : List UInt8) (width : ℕ)
    (indices : ℕ → ℕ) (htotal : total < 2 ^ 32) :
    (buffer.launch (rowLaunch (gatherFixed api src width indices total) total)).Fills
      ((range total).flatMap fun j => (range width).map fun k =>
        src.getD (indices j * width + k) 0) := by
  have hwrites : rowLaunch (gatherFixed api src width indices total) total =
      (range total).flatMap fun j => (range width).map fun k =>
        (j * width + k, src.getD (indices j * width + k) 0) := by
    have hbound : ∀ j, total ≤ j → gatherFixed api src width indices total j = [] :=
      fun j hj => if_pos hj
    rw [rowLaunch_eq htotal hbound]
    exact flatMap_congr fun j hj => gatherFixed_eq api src width indices (mem_range.mp hj)
  have haddresses : (rowLaunch (gatherFixed api src width indices total) total).map Prod.fst =
      range (total * width) := by
    rw [hwrites, map_flatMap, ← flatMap_range_blocks]
    refine flatMap_congr fun j _ => ?_
    rw [map_map]
    rfl
  have hfills := launch_fills buffer haddresses
  convert hfills using 1
  rw [hwrites, map_flatMap]
  refine flatMap_congr fun j _ => ?_
  rw [map_map]
  rfl

theorem validityLoop_eq (valid : ℕ → Bool) (nOut byte left bit : ℕ) :
    validityLoop valid nOut byte left bit (packBits (fun b => valid (byte * 8 + b)) bit) =
      packBits (fun b => valid (byte * 8 + b)) (bit + min left (nOut - (byte * 8 + bit))) := by
  induction left generalizing bit with
  | zero => rw [validityLoop, Nat.zero_min, Nat.add_zero]
  | succ left ih =>
    rw [validityLoop]
    split
    · next h => rw [Nat.sub_eq_zero_of_le h, Nat.min_zero, Nat.add_zero]
    · next h =>
      have hstep : (if valid (byte * 8 + bit) then
          packBits (fun b => valid (byte * 8 + b)) bit ||| 1 <<< bit
          else packBits (fun b => valid (byte * 8 + b)) bit) =
          packBits (fun b => valid (byte * 8 + b)) (bit + 1) :=
        (packBits_succ (fun b => valid (byte * 8 + b)) bit).symm
      rw [hstep, ih]
      congr 1
      omega

theorem gatherValidity_fills (buffer : Fresh UInt8) (src : List UInt8) (indices : ℕ → ℕ)
    (htotal : total ≤ 2 ^ 32 - 8) :
    (buffer.launch (rowLaunch (gatherValidity src indices total) ((total + 7) / 8))).Fills
      (pack (fun j => bit src (indices j)) total) := by
  have hbytes : (total + 7) % 2 ^ 32 / 8 = (total + 7) / 8 := by omega
  refine rowLaunch_fills buffer _ _ (by omega) (fun byte hbyte => ?_) fun byte hbyte => ?_
  · exact if_pos (hbytes ▸ hbyte)
  · have hloop := validityLoop_eq (fun j => bit src (indices j)) total byte 8 0
    rw [Nat.zero_add, Nat.add_zero] at hloop
    rw [gatherValidity, if_neg (by omega)]
    exact congrArg (fun out => [(byte, UInt8.ofNat out)]) hloop

theorem rowLaunch_gatherValidity_wrapped (src : List UInt8) (indices : ℕ → ℕ)
    (htotal : total < 2 ^ 32) (hwraps : 2 ^ 32 ≤ total + 7) :
    rowLaunch (gatherValidity src indices total) ((total + 7) / 8) = [] := by
  refine flatMap_eq_nil_iff.mpr fun thread _ => if_pos ?_
  omega

theorem gathered_values (api : Api) (device : FilterDevice) (out : ℕ) (col : ColumnBytes)
    (indices : ℕ → ℕ) (width : ℕ) (htotal : total < 2 ^ 32) :
    (gathered api device out col indices width total).values.Fills
      ((range total).flatMap fun j => (range width).map fun k =>
        col.values.getD (indices j * width + k) 0) := by
  rw [gathered]
  split
  · exact gatherFixed_fills (device.values out) api col.values width indices htotal
  · next hzero =>
    rw [show total = 0 by omega]
    exact untouched_fills _

theorem gathered_validity (api : Api) (device : FilterDevice) (out : ℕ) (indices : ℕ → ℕ)
    (width : ℕ) (htotal : total ≤ 2 ^ 32 - 8) {src : List UInt8} (hsrc : col.validity = some src) :
    ∃ bits, (gathered api device out col indices width total).validity = some bits ∧
      bits.Fills (pack (fun j => bit src (indices j)) total) := by
  rw [gathered, hsrc]
  refine ⟨_, rfl, ?_⟩
  split
  · exact gatherValidity_fills (device.validity out) src indices htotal
  · next hzero =>
    rw [show total = 0 by omega]
    exact untouched_fills _

theorem gatherColumn_ok {api : Api} {device : FilterDevice} {out : ℕ} {result : DeviceColumn}
    (h : gatherColumn api device out col indices total = .ok result) :
    ∃ width, result = gathered api device out col indices width total ∧ total < 2 ^ 32 := by
  obtain ⟨width, -, hrest⟩ := bind_eq_ok_iff.mp h
  cases api with
  | cuda =>
    obtain ⟨_, hwidth, hrest⟩ := bind_eq_ok_iff.mp hrest
    obtain ⟨_, htotal, hrest⟩ := bind_eq_ok_iff.mp hrest
    rw [(u32Len_ok hwidth).1, (u32Len_ok htotal).1] at hrest
    refine ⟨width, ?_, (u32Len_ok htotal).2⟩
    split at hrest
    · obtain ⟨_, -, hrest⟩ := bind_eq_ok_iff.mp hrest
      exact (Except.ok.inj hrest).symm
    · exact (Except.ok.inj hrest).symm
  | metal =>
    obtain ⟨_, htotal, hrest⟩ := bind_eq_ok_iff.mp hrest
    rw [(u32Len_ok htotal).1] at hrest
    refine ⟨width, ?_, (u32Len_ok htotal).2⟩
    split at hrest
    · obtain ⟨_, hwidth, hrest⟩ := bind_eq_ok_iff.mp hrest
      rw [(u32Len_ok hwidth).1] at hrest
      exact (Except.ok.inj hrest).symm
    · exact (Except.ok.inj hrest).symm

/-- A bitmap gathered along an index buffer: every byte was stored, and bit `j` is the validity of
the row that index `j` names. -/
structure GathersBits (src : List UInt8) (indices : ℕ → ℕ) (total : ℕ) (bits : Stored UInt8) :
    Prop where
  written : ∀ byte < (total + 7) / 8, byte ∈ bits.writes.map Prod.fst
  bit_eq : ∀ j < total, bit (read bits.contents ((total + 7) / 8)) j = bit src (indices j)

theorem Stored.Fills.gathersBits {src : List UInt8} {bits : Stored UInt8}
    (h : bits.Fills (pack (fun j => bit src (indices j)) total)) :
    GathersBits src indices total bits := by
  have honce := h.once
  have hread := h.contents
  rw [length_pack] at honce hread
  refine ⟨fun byte hbyte => honce.mem_iff.mpr (mem_range.mpr hbyte), fun j hj => ?_⟩
  rw [hread, bit_pack _ hj]

/-- **Bitmaps up to the limit.**  The bitmap of every column the host lets a device gather is the
one its index buffer names exactly if `n_out + 7` does not wrap; otherwise no byte of it is
stored. -/
theorem gatherColumn_bits_iff (api : Api) (device : FilterDevice) (out : ℕ) {col : ColumnBytes}
    {indices : ℕ → ℕ} {total : ℕ} {result : DeviceColumn}
    (h : gatherColumn api device out col indices total = .ok result) {src : List UInt8}
    (hsrc : col.validity = some src) :
    (∃ bits, result.validity = some bits ∧ GathersBits src indices total bits) ↔
      total + 7 < 2 ^ 32 := by
  obtain ⟨width, rfl, htotal⟩ := gatherColumn_ok h
  constructor
  · rintro ⟨bits, hbits, hgathers⟩
    by_contra hwraps
    have hlaunch : bits = (device.validity out).launch [] := by
      rw [gathered, hsrc] at hbits
      dsimp only [Option.map_some] at hbits
      rw [if_pos (show 0 < total by omega),
        rowLaunch_gatherValidity_wrapped src indices htotal (not_lt.mp hwraps)] at hbits
      exact (Option.some.inj hbits).symm
    have hwritten := hgathers.written 0 (by omega)
    rw [hlaunch, Fresh.launch, perm_nil.mp ((device.validity out).perm [])] at hwritten
    cases hwritten
  · intro hfits
    obtain ⟨bits, hbits, hfills⟩ := gathered_validity api device out indices width
      (show total ≤ 2 ^ 32 - 8 by omega) hsrc
    exact ⟨bits, hbits, hfills.gathersBits⟩

/-- A row of a gathered column is the row its index names, if `n_out + 7` does not wrap or there is
no bitmap to gather. -/
theorem gathered_cell (api : Api) (device : FilterDevice) (out : ℕ) (hwf : col.WellFormed)
    (htotal : total < 2 ^ 32) (hbits : col.validity = none ∨ total ≤ 2 ^ 32 - 8) {j : ℕ}
    (hj : j < total) (hindex : indices j < col.len) :
    (gathered api device out col indices col.width total).download.cell j =
      col.cell (indices j) := by
  have hvalues := (gathered_values api device out col indices col.width htotal).contents
  have hlength : ((range total).flatMap fun j => (range col.width).map fun k =>
      col.values.getD (indices j * col.width + k) 0).length = total * col.width := by
    simp [length_flatMap]
  have hrow : (gathered api device out col indices col.width total).download.rowBytes j =
      col.rowBytes (indices j) := by
    have hin : indices j * col.width + col.width ≤ col.values.length := by
      rw [← Nat.succ_mul]
      exact (Nat.mul_le_mul_right _ hindex).trans hwf.values
    rw [hlength] at hvalues
    rw [rowBytes, rowBytes, slice_eq_map hin]
    show slice (read _ (total * col.width)) (j * col.width) col.width = _
    rw [hvalues, flatMap_def, slice_flatten (by simp), getD_eq_getElem?_getD,
      getElem?_map, getElem?_range hj]
    rfl
  have hvalid : (gathered api device out col indices col.width total).download.isValid j =
      col.isValid (indices j) := by
    cases hsrc : col.validity with
    | none => simp [isValid, DeviceColumn.download, gathered, hsrc]
    | some src =>
      obtain ⟨bits, hgathered, hfills⟩ :=
        gathered_validity api device out indices col.width
          (hbits.resolve_left (by rw [hsrc]; nofun)) hsrc
      have hread := hfills.contents
      rw [length_pack] at hread
      simp only [isValid, DeviceColumn.download, hgathered, hsrc, Option.map_some]
      show bit (read bits.contents ((total + 7) / 8)) j = _
      rw [hread, bit_pack _ hj]
  rw [cell, cell, hvalid, hrow]
  rfl

/-- **A gathered column** holds the rows its index buffer names. -/
theorem gathered_toColumn (api : Api) (device : FilterDevice) (out : ℕ) (hwf : col.WellFormed)
    {rows : List ℕ} (hindices : ∀ j, ∀ hj : j < rows.length, indices j = rows[j])
    (htotal : rows.length < 2 ^ 32) (hbits : col.validity = none ∨ rows.length ≤ 2 ^ 32 - 8)
    (hrows : ∀ row ∈ rows, row < col.len) :
    (gathered api device out col indices col.width rows.length).download.toColumn =
      col.toColumn.gather (rows.map some) := by
  refine Column.ext rfl (ext_getElem? fun j => ?_)
  by_cases hj : j < rows.length
  · have hindex := hindices j hj
    have hlt : rows[j] < col.len := hrows _ (getElem_mem hj)
    have hcell := gathered_cell api device out hwf htotal hbits hj (hindex.symm ▸ hlt)
    simp only [toColumn, Column.gather, getElem?_map, map_map]
    rw [show (gathered api device out col indices col.width rows.length).download.len =
      rows.length from rfl, getElem?_range hj, getElem?_eq_getElem hj, Option.map_some,
      Option.map_some, hcell, hindex]
    simp [Column.cell, getElem?_range hlt]
  · rw [getElem?_eq_none, getElem?_eq_none]
    · simpa [Column.gather] using hj
    · simpa [toColumn, DeviceColumn.download, gathered] using hj

end Gather

/-! ## The pipeline -/

/-- A selected row is one the predicate keeps. -/
theorem selected_iff {mask : Stored UInt8} {reference : List (Option Bool)}
    (h : IsMask n mask reference) {i : ℕ} (hi : i < n) :
    Selected mask.contents n i ↔ reference.getD i none = some true := by
  obtain ⟨hlength, hfills⟩ := h
  have hbyte : mask.contents i = maskByte (reference.getD i none) := by
    rw [hfills.contents_getD (by simpa [hlength] using hi) 0, getD_eq_getElem?_getD,
      getD_eq_getElem?_getD, getElem?_map, getElem?_eq_getElem (hlength.symm ▸ hi)]
    rfl
  rw [Selected, hbyte, maskByte]
  split
  · next htrue => exact iff_of_true ⟨hi, by decide⟩ htrue
  · next hfalse => exact iff_of_false (fun hselected => hselected.2 rfl) hfalse

theorem kept_eq_keep {mask : Stored UInt8} {reference : List (Option Bool)}
    (h : IsMask n mask reference) :
    kept (Selected mask.contents n) n = keep reference (range n) := by
  have hreference : reference = (range n).map fun i => reference.getD i none := by
    refine ext_getElem? fun i => ?_
    rw [getElem?_map]
    by_cases hi : i < n
    · rw [getElem?_range hi, getElem?_eq_getElem (h.1.symm ▸ hi), Option.map_some,
        getD_eq_getElem _ _ (h.1.symm ▸ hi)]
    · have hlength := h.1
      rw [getElem?_eq_none (by omega), getElem?_eq_none (by simpa using hi)]
      rfl
  have hkeep := keep_map_eq_filter (fun i => reference.getD i none) (range n)
  rw [← hreference] at hkeep
  rw [hkeep, kept]
  exact filter_congr fun i hi =>
    decide_eq_decide.mpr (selected_iff h (mem_range.mp hi))

/-- **One column**: the host checks pass and the column is the reference's. -/
theorem gatherColumn_eq (api : Api) (device : FilterDevice) (out : ℕ) (hwf : col.WellFormed)
    (hwidth : col.width < 2 ^ 32) (indices : ℕ → ℕ) (htotal : total < 2 ^ 32) :
    gatherColumn api device out col indices total =
      .ok (gathered api device out col indices col.width total) := by
  have hwidth' : u32Len col.width "row width" = .ok col.width := if_pos hwidth
  have htotal' : u32Len total "gather output" = .ok total := if_pos htotal
  have hbytes : u32Len ((total + 7) / 8) "validity bytes" = .ok ((total + 7) / 8) :=
    if_pos (by omega)
  cases api with
  | cuda => simp only [gatherColumn, hwf.width, hwidth', htotal', hbytes, ok_bind, ite_self]
  | metal => simp only [gatherColumn, hwf.width, hwidth', htotal', ok_bind, ite_self]

/-- A run of the pipeline leaves the rows of the reference, and every slot of the index, value
and validity buffers was written exactly once. -/
structure Conforms (run : FilterRun) (reference : RecordBatch) : Prop where
  fields : run.fields = reference.schema.fields
  numRows : run.numRows = reference.numRows
  columns : run.columns.map (fun col => col.download.toColumn) = reference.columns
  indices : ExactlyOnce run.numRows run.indices.writes
  values : ∀ col ∈ run.columns, ∀ width, rowWidth col.dataType = .ok width →
    ExactlyOnce (run.numRows * width) col.values.writes
  validity : ∀ col ∈ run.columns, ∀ bits ∈ col.validity,
    ExactlyOnce ((run.numRows + 7) / 8) bits.writes

theorem Stored.Fills.exactlyOnce {α : Type} {stored : Stored α} {values : List α}
    (h : stored.Fills values) (hlength : values.length = n) :
    ExactlyOnce n stored.writes :=
  hlength ▸ h.once

theorem filterProject_eq {projection : List ℕ} {mask : List (Option Bool)}
    (hmask : evaluatePredicate batch predicate = .ok mask)
    (hprojection : ∀ i ∈ projection, i < batch.entries.length) :
    ∃ projected : RecordBatch,
      Kernels.filterProject batch predicate projection = .ok (projected.filter mask) ∧
      projection.mapM (fun i => batch.entries[i]?) = some projected.entries ∧
      projected.numRows = batch.numRows := by
  obtain ⟨entries, hentries⟩ := mapM_getElem?_eq_some.mpr hprojection
  obtain ⟨projected, hprojected, hsame, hrows⟩ := project_eq_ok hentries
  refine ⟨projected, ?_, hsame.symm ▸ hentries, hrows⟩
  rw [Kernels.filterProject, hmask, ok_bind, hprojected, ok_bind]

theorem filterProject_numRows_le {reference : RecordBatch} {projection : List ℕ}
    (h : Kernels.filterProject batch predicate projection = .ok reference) :
    reference.numRows ≤ batch.numRows := by
  obtain ⟨mask, -, h⟩ := bind_eq_ok_iff.mp h
  obtain ⟨projected, hprojected, h⟩ := bind_eq_ok_iff.mp h
  cases h
  have hrows : projected.numRows = batch.numRows := by
    unfold RecordBatch.project at hprojected
    split at hprojected
    · cases hprojected
      rfl
    · cases hprojected
  have hle : (projected.filter mask).numRows ≤ (range projected.numRows).length :=
    length_keep_le mask (range projected.numRows)
  rwa [length_range, hrows] at hle

section Conforms

variable (api : Api) (device : FilterDevice) {columns : List ColumnBytes} {batch : RecordBatch}
  {predicate : Predicate} {projection : List ℕ}

/-- Column `index` of a device batch that has it. -/
def columnOf (columns : List ColumnBytes) (index : ℕ) : ColumnBytes :=
  columns.getD index ⟨.int64, 0, [], none, 0⟩

theorem getElem?_columnOf {index : ℕ} (h : index < columns.length) :
    columns[index]? = some (columnOf columns index) := by
  rw [columnOf, getD_eq_getElem _ _ h, getElem?_eq_getElem h]

/-- The columns a projection gathers. -/
def gatheredColumns (api : Api) (device : FilterDevice) (columns : List ColumnBytes)
    (projection : List ℕ) (indices : ℕ → ℕ) (total : ℕ) : List DeviceColumn :=
  projection.zipIdx.map fun entry =>
    gathered api device entry.2 (columnOf columns entry.1) indices
      (columnOf columns entry.1).width total

theorem gatherColumns_eq (hholds : Holds columns batch)
    (hprojection : ∀ i ∈ projection, i < columns.length)
    (hwidths : ∀ i ∈ projection, ∀ col ∈ columns[i]?, col.width < 2 ^ 32) (indices : ℕ → ℕ)
    (htotal : total < 2 ^ 32) :
    (projection.zipIdx.mapM fun entry => column columns entry.1 >>= fun col =>
        gatherColumn api device entry.2 col indices total) =
      .ok (gatheredColumns api device columns projection indices total) := by
  refine mapM_eq_ok_map fun entry hentry => ?_
  have hmem := fst_mem_of_mem_zipIdx hentry
  have hcol := getElem?_columnOf (hprojection _ hmem)
  have hcolumn : column columns entry.1 = .ok (columnOf columns entry.1) := by rw [column, hcol]
  rw [hcolumn, ok_bind]
  exact gatherColumn_eq api device entry.2 (hholds.wellFormed _ (mem_of_getElem? hcol))
    (hwidths _ hmem _ hcol) indices htotal

theorem gatheredColumns_toColumn (hholds : Holds columns batch)
    (hprojection : ∀ i ∈ projection, i < columns.length) {indices : Stored ℕ} {rows : List ℕ}
    (hindices : indices.Fills rows) (htotal : rows.length ≤ 2 ^ 32 - 8)
    (hrows : ∀ row ∈ rows, row < batch.numRows) :
    (gatheredColumns api device columns projection indices.contents rows.length).map
        (fun col => col.download.toColumn) =
      projection.map fun i => (columnOf columns i).toColumn.gather (rows.map some) := by
  have hfst : projection.map (fun i => (columnOf columns i).toColumn.gather (rows.map some)) =
      projection.zipIdx.map
        fun entry => (columnOf columns entry.1).toColumn.gather (rows.map some) := by
    conv_lhs => rw [← zipIdx_map_fst 0 projection, map_map]
    rfl
  rw [hfst, gatheredColumns, map_map]
  refine map_congr_left fun entry hentry => ?_
  have hmem := mem_of_getElem?
    (getElem?_columnOf (hprojection _ (fst_mem_of_mem_zipIdx hentry)))
  exact gathered_toColumn api device entry.2 (hholds.wellFormed _ hmem)
    (fun j hj => hindices.contents_getElem hj) (by omega) (.inr htotal) fun row hrow =>
      (hholds.len hmem).symm ▸ hrows row hrow

theorem gatheredColumns_once (htotal : total ≤ 2 ^ 32 - 8) {col : DeviceColumn}
    (hcol : col ∈ gatheredColumns api device columns projection indices total) :
    (∀ width, rowWidth col.dataType = .ok width →
        ExactlyOnce (total * width) col.values.writes) ∧
      ∀ bits ∈ col.validity, ExactlyOnce ((total + 7) / 8) bits.writes := by
  obtain ⟨entry, -, rfl⟩ := mem_map.mp hcol
  constructor
  · intro width hwidth
    have hsame : (columnOf columns entry.1).width = width := by
      rw [ColumnBytes.width, show rowWidth (columnOf columns entry.1).dataType =
        .ok width from hwidth]
      rfl
    rw [← hsame]
    exact (gathered_values api device entry.2 (columnOf columns entry.1) indices _
      (by omega)).exactlyOnce (by simp [length_flatMap])
  · intro bits hbits
    cases hsrc : (columnOf columns entry.1).validity with
    | none => simp [gathered, hsrc] at hbits
    | some src =>
      obtain ⟨bits', hbits', hfills⟩ := gathered_validity api device entry.2 indices
        (columnOf columns entry.1).width htotal hsrc
      rw [hbits', Option.mem_some_iff] at hbits
      exact hbits ▸ hfills.exactlyOnce (length_pack _ _)

theorem filter_columns {mask : List (Option Bool)} {projected : RecordBatch}
    (hholds : Holds columns batch)
    (hentries : projection.mapM (fun i => batch.entries[i]?) = some projected.entries) :
    (projected.filter mask).columns = projection.map fun i =>
      (columnOf columns i).toColumn.gather ((keep mask (List.range batch.numRows)).map some) := by
  rw [RecordBatch.columns]
  show (projected.entries.map _).map _ = _
  rw [map_map]
  refine mapM_some_map_eq hentries fun i entry hentry => ?_
  have hcolumn : batch.columns[i]? = some entry.2 := by
    rw [RecordBatch.columns_getElem?, hentry]
    rfl
  have hlt : i < columns.length := by
    rw [hholds.length_eq]
    exact (List.getElem?_eq_some_iff.mp hentry).1
  have hcol := getElem?_columnOf hlt
  rw [hholds.getElem?, hcol, Option.map_some, Option.some.injEq] at hcolumn
  show entry.2.filter mask = _
  rw [← hcolumn, Column.filter_eq_gather, toColumn_len,
    hholds.len (mem_of_getElem? hcol)]

/-- **The device filter is the reference filter.**  On device columns of a batch of at most
`u32::MAX` rows, a predicate over its `Int64` columns and a projection of rows at most
`u32::MAX` bytes wide, both versions return the reference's rows and write every slot of
their buffers exactly once, provided the reference keeps at most `2 ^ 32 - 8` rows. -/
theorem filterProject_conforms (hholds : Holds columns batch) (hrows : batch.numRows < 2 ^ 32)
    (hleaves : Int64Leaves columns predicate) (hprojection : ∀ i ∈ projection, i < columns.length)
    (hwidths : ∀ i ∈ projection, ∀ col ∈ columns[i]?, col.width < 2 ^ 32)
    (hkept : ∀ reference, Kernels.filterProject batch predicate projection = .ok reference →
      reference.numRows ≤ 2 ^ 32 - 8) :
    ∃ run reference,
      filterProject api device batch.schema batch.numRows columns predicate projection = .ok run ∧
      Kernels.filterProject batch predicate projection = .ok reference ∧
      Conforms run reference := by
  obtain ⟨mask, referenceMask, hmask, hreferenceMask, hismask⟩ :=
    evaluateMask_isMask api device hholds hrows hleaves []
  obtain ⟨projected, hreference, hentries, hprojected⟩ :=
    filterProject_eq hreferenceMask fun i hi => show i < batch.numColumns from
      hholds.length_eq ▸ hprojection i hi
  obtain ⟨indices, hcompact, hindices⟩ := compact_fills api device mask.contents hrows
  rw [← length_kept] at hcompact
  rw [kept_eq_keep hismask] at hcompact hindices
  have hkeptRows : (projected.filter referenceMask).numRows =
      (keep referenceMask (range batch.numRows)).length := by
    rw [← hprojected]
    rfl
  have hbound := hkeptRows ▸ hkept _ hreference
  have hfields : projection.mapM (field api batch.schema) =
      .ok (projected.entries.map Prod.fst) := by
    rw [mapM_eq_ok_iff, forall₂_map_right_iff]
    refine (mapM_eq_some_iff.mp hentries).imp fun i entry hentry => ?_
    unfold field
    rw [RecordBatch.fields_getElem?, hentry]
    rfl
  have hchecked : projection.mapM (column columns) = .ok (projection.map (columnOf columns)) :=
    mapM_eq_ok_map fun i hi => by rw [column, getElem?_columnOf (hprojection i hi)]
  have hgathered := gatherColumns_eq api device hholds hprojection hwidths indices.contents
    (show (keep referenceMask (range batch.numRows)).length < 2 ^ 32 by omega)
  have hlen : u32Len batch.numRows "filter input" = .ok batch.numRows := if_pos hrows
  refine ⟨⟨projected.entries.map Prod.fst,
    (keep referenceMask (range batch.numRows)).length, gatheredColumns api device columns projection
    indices.contents (keep referenceMask (range batch.numRows)).length, indices⟩,
    projected.filter referenceMask, ?_, hreference, ?_⟩
  · simp only [filterProject, hlen, hfields, hchecked, hmask, hcompact, hgathered, ok_bind]
  · constructor
    · show _ = (projected.entries.map _).map _
      rw [map_map]
      rfl
    · exact hkeptRows.symm
    · rw [filter_columns hholds hentries]
      exact gatheredColumns_toColumn api device hholds hprojection hindices hbound fun row hrow =>
        mem_range.mp (mem_of_mem_keep hrow)
    · exact hindices.once
    · exact fun col hcol => (gatheredColumns_once api device hbound hcol).1
    · exact fun col hcol => (gatheredColumns_once api device hbound hcol).2

end Conforms

/-- A device whose stores take effect in thread order, on zeroed buffers. -/
def inOrder : FilterDevice where
  masks _ := ⟨⟨id, fun _ => .refl _⟩, fun _ => 0⟩
  counts := ⟨⟨id, fun _ => .refl _⟩, fun _ => 0⟩
  indices := ⟨⟨id, fun _ => .refl _⟩, fun _ => 0⟩
  values _ := ⟨⟨id, fun _ => .refl _⟩, fun _ => 0⟩
  validity _ := ⟨⟨id, fun _ => .refl _⟩, fun _ => 0⟩
  adds _ := range 8
  adds_perm _ := .refl _
  compareF64 _ a b := decide (a = b)

/-- The keys 5, `NULL`, 9. -/
def keyBytes : ColumnBytes :=
  ⟨.int64, 3, [5, 0, 0, 0, 0, 0, 0, 0, 7, 0, 0, 0, 0, 0, 0, 0, 9, 0, 0, 0, 0, 0, 0, 0], some [5], 0⟩

def keyBatch : RecordBatch :=
  .ofEntries [(⟨"k", .int64, true, []⟩, keyBytes.toColumn)] 3 (by decide)

theorem keyBytes_holds : Holds [keyBytes] keyBatch := by
  refine ⟨rfl, fun col hcol => ?_⟩
  obtain rfl := mem_singleton.mp hcol
  exact ⟨rfl, by decide, fun bits hbits => by cases hbits; decide⟩

/-- Two rows gathered from the keys. -/
theorem gatherColumn_bits_iff_keys : ∃ result,
    gatherColumn .metal inOrder 0 keyBytes (fun j => 2 - j) 2 = .ok result ∧
    ∃ bits, result.validity = some bits ∧ GathersBits [5] (fun j => 2 - j) 2 bits := by
  have hresult : gatherColumn .metal inOrder 0 keyBytes (fun j => 2 - j) 2 =
      .ok (gathered .metal inOrder 0 keyBytes (fun j => 2 - j) 8 2) := rfl
  exact ⟨_, hresult, (gatherColumn_bits_iff .metal inOrder 0 hresult rfl).mpr (by decide)⟩

/-- `u32::MAX` rows gathered from the first key, which is valid, come back as `NULL`s on a device
whose buffers start zeroed: the host admits them, but no thread stores a byte of their bitmap. -/
theorem gatherColumn_lost_bits : ∃ result bits,
    gatherColumn .cuda inOrder 0 keyBytes (fun _ => 0) (2 ^ 32 - 1) = .ok result ∧
    result.validity = some bits ∧ bits.writes = [] ∧ bit [5] 0 = true ∧
    bit (read bits.contents ((2 ^ 32 - 1 + 7) / 8)) 0 = false := by
  have hwf : keyBytes.WellFormed := ⟨rfl, by decide, fun bits hbits => by cases hbits; decide⟩
  have hwritten := rowLaunch_gatherValidity_wrapped [5] (fun _ => 0)
    (show 2 ^ 32 - 1 < 2 ^ 32 by decide) (by decide)
  refine ⟨_, (inOrder.validity 0).launch [],
    gatherColumn_eq .cuda inOrder 0 hwf (by decide) _ (by decide), ?_, rfl, by decide, ?_⟩
  · show some (if 0 < 2 ^ 32 - 1 then _ else _) = _
    rw [if_pos (by decide), hwritten]
  · rw [bit, getD_eq_getElem?_getD, Scatter.read, getElem?_map,
      getElem?_range (by decide)]
    rfl

/-- `SELECT k WHERE k > 6`, on the version with SIMD groups. -/
theorem filterProject_conforms_keys : ∃ run reference,
    filterProject .metal inOrder keyBatch.schema 3 [keyBytes] (.compare 0 .gt (.int64 6)) [0] =
      .ok run ∧
    Kernels.filterProject keyBatch (.compare 0 .gt (.int64 6)) [0] = .ok reference ∧
    Conforms run reference :=
  filterProject_conforms .metal inOrder keyBytes_holds (by decide) ⟨⟨6, rfl⟩, keyBytes, rfl, rfl⟩
    (by decide) (fun i hi col hcol => by
      obtain rfl := mem_singleton.mp hi
      cases hcol
      decide)
    fun _ h => (filterProject_numRows_le h).trans (by decide)

/-- A vector of `2 ^ 30` items is `2 ^ 32` bytes wide. -/
def wideType : DataType := .fixedSizeList "item" .float32 false [] (2 ^ 30)

def wideBytes : List ColumnBytes := [⟨.int64, 0, [], none, 0⟩, ⟨wideType, 0, [], none, 0⟩]

/-- No row of a key and a wide vector. -/
def wideBatch : RecordBatch where
  metadata := []
  entries := [(⟨"k", .int64, true, []⟩, (⟨.int64, 0, [], none, 0⟩ : ColumnBytes).toColumn),
    (⟨"v", wideType, true, []⟩, (⟨wideType, 0, [], none, 0⟩ : ColumnBytes).toColumn)]
  numRows := 0
  fits := by decide
  numRows_lt := by decide

/-- **Wide rows.**  The reference filters a batch whose projected vector is wider than
`u32::MAX` bytes; the CUDA version refuses it, even without a row to copy. -/
theorem filterProject_wide_rows :
    Holds wideBytes wideBatch ∧ wideBatch.numRows < 2 ^ 32 ∧
    Int64Leaves wideBytes (.compare 0 .eq (.int64 0)) ∧ (∀ i ∈ [1], i < wideBytes.length) ∧
    (∃ reference, Kernels.filterProject wideBatch (.compare 0 .eq (.int64 0)) [1] = .ok reference ∧
      reference.numRows ≤ 2 ^ 32 - 8) ∧
    filterProject .cuda inOrder wideBatch.schema wideBatch.numRows wideBytes
        (.compare 0 .eq (.int64 0)) [1] =
      .error (.execution "row width exceeds u32::MAX rows") := by
  have hholds : Holds wideBytes wideBatch := by
    refine ⟨rfl, fun col hcol => ?_⟩
    rcases mem_cons.mp hcol with rfl | hcol
    · exact ⟨rfl, by decide, fun bits hbits => by cases hbits⟩
    · obtain rfl := mem_singleton.mp hcol
      exact ⟨rfl, by decide, fun bits hbits => by cases hbits⟩
  have hleaves : Int64Leaves wideBytes (.compare 0 .eq (.int64 0)) := ⟨⟨0, rfl⟩, _, rfl, rfl⟩
  refine ⟨hholds, by decide, hleaves, by decide, ⟨_, rfl, by decide⟩, ?_⟩
  obtain ⟨mask, -, hmask, -⟩ := evaluateMask_isMask .cuda inOrder hholds (by decide) hleaves []
  obtain ⟨indices, hcompact, -⟩ :=
    compact_fills .cuda inOrder mask.contents (show wideBatch.numRows < 2 ^ 32 by decide)
  have hlen : u32Len wideBatch.numRows "filter input" = .ok wideBatch.numRows := rfl
  have hfields : [1].mapM (field .cuda wideBatch.schema) = .ok [⟨"v", wideType, true, []⟩] := rfl
  have hchecked : [1].mapM (column wideBytes) = .ok [⟨wideType, 0, [], none, 0⟩] := rfl
  have hwidth : u32Len (2 ^ 30 * 4) "row width" =
      .error (.execution "row width exceeds u32::MAX rows") := if_neg (by decide)
  have hrow : rowWidth wideType = .ok (2 ^ 30 * 4) := by decide
  have hcolumn : column wideBytes 1 = .ok ⟨wideType, 0, [], none, 0⟩ := rfl
  have hgather : ∀ total, gatherColumn .cuda inOrder 0 ⟨wideType, 0, [], none, 0⟩ indices.contents
      total = .error (.execution "row width exceeds u32::MAX rows") := fun total => by
    simp only [gatherColumn, hrow, hwidth, ok_bind, error_bind]
  simp only [filterProject, hlen, hfields, hchecked, hmask, hcompact, zipIdx_cons,
    mapM_cons, hcolumn, hgather, ok_bind, error_bind]

end Filter

end OxideLake
