import OxideLake.Device.Cuda.Limits

/-!
# What the join, the aggregate and the vector kernel have room for

The hash join counts its rows, the slots of its table and its matches in `u32`; the aggregate and
the vector distance count their rows, and the aggregate the slots of its table.  Past these limits
they fail with an execution error. -/

namespace OxideLake

open List Cuda OxideLake.Filter Partial EquiJoin Interleaving CudaBackend

variable (backend : CudaBackend)

variable {columns : List ColumnBytes} {sub : RecordBatch} {bytes : ColumnBytes}

/-! ## Joins -/

section Join

/-- A scan fails exactly past `u32`. -/
theorem exclusiveScan_settled (counts : List ℕ) :
    Settled Hard (counts.sum < 2 ^ 32) (exclusiveScan counts)
      (· = (Scatter.offsets 0 counts, counts.sum)) := by
  by_cases h : counts.sum < 2 ^ 32
  · rw [exclusiveScan_eq h]
    exact .ok h rfl
  · rw [exclusiveScan_overflow (by omega)]
    exact .error h rfl

/-- **When the device finds the pairs.** -/
theorem joinPairs_settled (device : JoinDevice) {leftKeys rightKeys : Int64Array}
    (hfinished : BuildFinished rightKeys (run (buildStep (.ofRows device.hash rightKeys.length))
      (buildLaunch (.ofRows device.hash rightKeys.length) rightKeys) device.build)) :
    Settled Hard (leftKeys.length < 2 ^ 32 ∧ 2 ^ tableBits rightKeys.length < 2 ^ 32 ∧
        (nestedLoop leftKeys rightKeys).length < 2 ^ 32)
      (joinPairs device leftKeys rightKeys) (Pairs leftKeys rightKeys) := by
  have hroom := two_mul_le_two_pow_tableBits rightKeys.length
  have hbuilt : Built _ rightKeys _ := built_spec hroom hfinished
  refine ⟨fun ⟨hleft, hcap, hmatches⟩ => ⟨_, joinPairs_eq device hleft hcap hmatches hbuilt,
    pairs_joined hbuilt leftKeys⟩, fun hnot => ?_⟩
  have hscan := exclusiveScan_settled
    (probeCounts (.ofRows device.hash rightKeys.length)
      (built (.ofRows device.hash rightKeys.length) rightKeys device.build) leftKeys)
  rw [sum_probeCounts hbuilt leftKeys, probeCounts, ← hostCounts_eq device hbuilt leftKeys] at hscan
  have hsteps : Settled Hard (leftKeys.length < 2 ^ 32 ∧ rightKeys.length < 2 ^ 32 ∧
      2 ^ tableBits rightKeys.length < 2 ^ 32 ∧
      (nestedLoop leftKeys rightKeys).length < 2 ^ 32 ∧ True)
      (joinPairs device leftKeys rightKeys) fun _ => True := by
    unfold joinPairs
    exact (u32Len_settled leftKeys.length "join probe side").bind_eq
      ((u32Len_settled rightKeys.length "join build side").bind_eq
        ((u32Len_settled _ "hash table capacity").bind_eq
          (hscan.bind_eq (.ok trivial trivial))))
  refine hsteps.2 ?_
  rintro ⟨hleft, -, hcap, hmatches, -⟩
  exact hnot ⟨hleft, hcap, hmatches⟩

theorem gatherSide_settled (hmoved : List.Forall₂ (Moved backend.layout) sub.columns columns)
    (first : ℕ) {rows : List ℕ} (htotal : rows.length < 2 ^ 32)
    (hrows : ∀ row ∈ rows, row < sub.numRows) :
    Settled Hard (∀ entry ∈ sub.entries, entry.2.rowBytes < 2 ^ 32)
      (backend.gatherSide columns first rows)
      (List.Forall₂ (IsGather backend.layout backend.gathers rows) sub.entries) := by
  have hzip : List.Forall₂ (fun entry x => Moved backend.layout entry.2 x.1) sub.entries
      (columns.zipIdx first) := by
    rw [RecordBatch.columns, ← zipIdx_map_fst first columns, forall₂_map_left_iff,
      forall₂_map_right_iff] at hmoved
    exact hmoved
  refine Settled.mapM_of_forall₂ hzip fun entry hentry x hx => ?_
  refine gather_settled backend.gathers x.2 (fun j hj => ?_) htotal hrows (sub.fits entry hentry) hx
  exact getD_eq_getElem _ _ hj

theorem keyColumn_moved (role : String)
    (hmoved : List.Forall₂ (Moved backend.layout) sub.columns columns) {k : ℕ} {column : Column}
    (hcolumn : sub.columns[k]? = some column) (htype : column.dataType = .int64) :
    ∃ bytes, Filter.column columns k = .ok bytes ∧ requireInt64 bytes.toColumn role = .ok () ∧
      bytes.toColumn.int64s = column.int64s := by
  obtain ⟨bytes, hbytes, hcol⟩ := forall₂_getElem? hmoved hcolumn
  have hsame : bytes.toColumn = column := hcol.same (by rw [htype]; rfl)
  refine ⟨bytes, by rw [Filter.column, hbytes], ?_, congrArg Column.int64s hsame⟩
  rw [hsame]
  exact if_pos htype

theorem pairs_rows_lt {leftKeys rightKeys : Int64Array} {pairs : List (ℕ × ℕ)}
    (h : Pairs leftKeys rightKeys pairs) :
    (∀ row ∈ pairs.map Prod.fst, row < leftKeys.length) ∧
      ∀ row ∈ pairs.map Prod.snd, row < rightKeys.length := by
  constructor
  · refine List.forall_mem_map.mpr fun pair hpair => ?_
    obtain ⟨key, hleft, -⟩ := (h.mem_iff pair.1 pair.2).mp hpair
    exact (List.getElem?_eq_some_iff.mp hleft).1
  · refine List.forall_mem_map.mpr fun pair hpair => ?_
    obtain ⟨key, -, hright⟩ := (h.mem_iff pair.1 pair.2).mp hpair
    exact (List.getElem?_eq_some_iff.mp hright).1

variable {lsub rsub : RecordBatch} {ldev rdev : DeviceBatch} {lcols rcols : List ColumnBytes}

/-- When the joined columns are gathered. -/
theorem gatherPairs_settled (hl : Resident backend.layout lsub ldev lcols)
    (hr : Resident backend.layout rsub rdev rcols) (hne : lsub.entries ≠ []) {pairs : List (ℕ × ℕ)}
    (htotal : pairs.length < 2 ^ 32) (hleft : ∀ row ∈ pairs.map Prod.fst, row < lsub.numRows)
    (hright : ∀ row ∈ pairs.map Prod.snd, row < rsub.numRows) :
    Settled Hard (∀ entry ∈ lsub.entries ++ rsub.entries, backend.layout.Gathers pairs.length entry)
      (backend.gatherSide lcols 0 (pairs.map Prod.fst) >>= fun leftColumns =>
        backend.gatherSide rcols lcols.length (pairs.map Prod.snd) >>= fun rightColumns =>
          download ⟨⟨ldev.schema.fields ++ rdev.schema.fields, []⟩, pairs.length,
            .cuda ⟨pairs.length, (leftColumns ++ rightColumns).map DeviceColumn.download⟩⟩)
      (CameBack backend.layout pairs.length (lsub.entries ++ rsub.entries)) := by
  have hfields : ldev.schema.fields ++ rdev.schema.fields =
      (lsub.entries ++ rsub.entries).map Prod.fst := by
    rw [hl.schema, hr.schema, map_append]
    rfl
  have hgl := gatherSide_settled backend hl.moved 0
    (show (pairs.map Prod.fst).length < 2 ^ 32 by rwa [length_map]) hleft
  have hgr := gatherSide_settled backend hr.moved lcols.length
    (show (pairs.map Prod.snd).length < 2 ^ 32 by rwa [length_map]) hright
  have hdownload : ∀ leftColumns rightColumns,
      List.Forall₂ (IsGather backend.layout backend.gathers (pairs.map Prod.fst)) lsub.entries
        leftColumns →
      List.Forall₂ (IsGather backend.layout backend.gathers (pairs.map Prod.snd)) rsub.entries
        rightColumns →
      Settled Hard (lsub.entries ++ rsub.entries ≠ [] ∧
          ∀ entry ∈ lsub.entries ++ rsub.entries, backend.layout.ReadsBack pairs.length entry)
        (download ⟨⟨ldev.schema.fields ++ rdev.schema.fields, []⟩, pairs.length,
          .cuda ⟨pairs.length, (leftColumns ++ rightColumns).map DeviceColumn.download⟩⟩)
        (CameBack backend.layout pairs.length (lsub.entries ++ rsub.entries)) := by
    intro leftColumns rightColumns hlc hrc
    rw [hfields]
    refine download_settled backend.gathers_zeroed htotal (rel_append ?_ ?_)
    · exact hlc.imp fun entry col hcol => ⟨_, length_map _, hcol⟩
    · exact hrc.imp fun entry col hcol => ⟨_, length_map _, hcol⟩
  refine (hgl.bind fun leftColumns _ hlc => hgr.bind fun rightColumns _ hrc =>
    hdownload leftColumns rightColumns hlc hrc).congr ?_ fun _ => id
  constructor
  · rintro ⟨hlw, hrw, -, hback⟩ entry hentry
    refine ⟨hback entry hentry, ?_⟩
    rcases mem_append.mp hentry with h | h
    · exact hlw entry h
    · exact hrw entry h
  · intro hall
    exact ⟨fun entry hentry => (hall entry (mem_append_left _ hentry)).width,
      fun entry hentry => (hall entry (mem_append_right _ hentry)).width,
      fun hnil => hne (append_eq_nil_iff.mp hnil).1,
      fun entry hentry => (hall entry hentry).toReadsBack⟩

/-- **Joins.**  A join comes back if its probe rows, the slots of its table and its matches are
counted in `u32` and all the columns of both sides can be gathered. -/
theorem hashJoin_settled (hl : Resident backend.layout lsub ldev lcols)
    (hr : Resident backend.layout rsub rdev rcols) {lk rk : ℕ} {lcol rcol : Column}
    (hlk : lsub.columns[lk]? = some lcol) (hltype : lcol.dataType = .int64)
    (hrk : rsub.columns[rk]? = some rcol) (hrtype : rcol.dataType = .int64)
    (hfinished : BuildFinished rcol.int64s (run
      (buildStep (.ofRows backend.join.hash rcol.int64s.length))
      (buildLaunch (.ofRows backend.join.hash rcol.int64s.length) rcol.int64s)
        backend.join.build)) :
    Settled Hard
      ((lsub.numRows < 2 ^ 32 ∧ 2 ^ tableBits rsub.numRows < 2 ^ 32 ∧
        (nestedLoop lcol.int64s rcol.int64s).length < 2 ^ 32) ∧
        ∀ entry ∈ lsub.entries ++ rsub.entries,
          backend.layout.Gathers (nestedLoop lcol.int64s rcol.int64s).length entry)
      (backend.hashJoin ldev rdev lk rk >>= download)
      (CameBack backend.layout (nestedLoop lcol.int64s rcol.int64s).length
        (lsub.entries ++ rsub.entries)) := by
  obtain ⟨lbytes, hlbytes, hlrequire, hlkeys⟩ :=
    keyColumn_moved backend "left join key" hl.moved hlk hltype
  obtain ⟨rbytes, hrbytes, hrrequire, hrkeys⟩ :=
    keyColumn_moved backend "right join key" hr.moved hrk hrtype
  have hllen : lcol.int64s.length = lsub.numRows := by
    rw [Column.length_int64s, lsub.column_len (mem_of_getElem? hlk)]
  have hrlen : rcol.int64s.length = rsub.numRows := by
    rw [Column.length_int64s, rsub.column_len (mem_of_getElem? hrk)]
  have hne : lsub.entries ≠ [] := mt map_eq_nil_iff.mpr (ne_nil_of_mem
    (mem_of_getElem? hlk))
  have hpairs : Settled Hard _ (joinPairs backend.join lcol.int64s rcol.int64s) _ :=
    joinPairs_settled backend.join hfinished
  rw [hllen, hrlen] at hpairs
  simp only [hashJoin, DeviceBatch.cudaBatch, hl.inner, hr.inner, ok_bind, hlbytes,
    hrbytes, hlrequire, hrrequire, hlkeys, hrkeys, bind_assoc]
  refine hpairs.bind fun pairs hlimits hjoined => ?_
  have hlength := (hjoined.perm (pairs_nestedLoop _ _)).length_eq
  obtain ⟨hleft, hright⟩ := pairs_rows_lt hjoined
  rw [hllen] at hleft
  rw [hrlen] at hright
  rw [← hlength]
  exact gatherPairs_settled backend hl hr hne (hlength ▸ hlimits.2.2) hleft hright

end Join

/-! ## Aggregates -/

section Aggregate

theorem length_outputAddresses (shape : TableShape) (memory : InsertMemory) :
    (outputAddresses shape memory).length = (outputKeys shape memory).length := by
  rw [outputAddresses, outputKeys, length_append, length_append, length_map,
    length_map]
  split <;> rfl

theorem length_outputKeys_le (shape : TableShape) (memory : InsertMemory) :
    (outputKeys shape memory).length ≤ shape.capacity + 1 := by
  have hslots : (publishedSlots shape memory.table).length ≤ shape.capacity := by
    rw [publishedSlots, length_insertionSort, length_map]
    exact (length_filter_le _ _).trans_eq (length_range)
  rw [outputKeys, length_append, length_map]
  refine Nat.add_le_add hslots ?_
  split
  · exact le_rfl
  · exact Nat.zero_le 1

theorem fits_column (agg : HostAgg) (func : AggregateFunction)
    (addresses : List (Option ℕ)) (name : String) :
    FieldFits addresses.length ⟨name, (agg.column func addresses).dataType, true, []⟩
      (agg.column func addresses) := by
  refine ⟨rfl, ?_, nofun⟩
  cases agg with
  | ints cells => simp [HostAgg.column]
  | floats cells => simp [HostAgg.column, Column.ofFloat64, Column.len]

theorem runAggregate_ok (device : AggregateDevice) (shape : TableShape) (table : GroupTable)
    (keys : Int64Array) (a : ℕ) (func : AggregateFunction) {col : Column}
    (htype : col.dataType = .int64 ∨ col.dataType = .float64) :
    ∃ agg, runAggregate device shape table keys a func col = .ok agg := by
  rcases htype with htype | htype
  · exact ⟨_, by rw [runAggregate, htype]⟩
  · by_cases hfunc : func = .count
    · exact ⟨_, by rw [runAggregate, htype]; exact if_pos hfunc⟩
    · exact ⟨_, by rw [runAggregate, htype]; exact if_neg hfunc⟩

theorem groupedOutput_ok (keyName : String) {keys : Int64Array} {entries : List (Field × Column)}
    (hfits : ∀ entry ∈ entries, FieldFits keys.length entry.1 entry.2)
    (hlt : keys.length < 2 ^ 63) :
    ∃ out, RecordBatch.tryNew ⟨⟨keyName, .int64, true, []⟩ :: entries.map Prod.fst, []⟩
      (Column.ofInt64 keys :: entries.map Prod.snd) = .ok out := by
  have hkey : FieldFits keys.length ⟨keyName, .int64, true, []⟩ (Column.ofInt64 keys) :=
    ⟨rfl, by simp, nofun⟩
  have hall : ∀ entry ∈ (⟨keyName, .int64, true, []⟩, Column.ofInt64 keys) :: entries,
      FieldFits keys.length entry.1 entry.2 := forall_mem_cons.mpr ⟨hkey, hfits⟩
  exact ⟨_, RecordBatch.tryNew_eq_ok [] (cons_ne_nil _ _) hall hlt⟩

/-- **Aggregates** have room for the slots of their table or fail. -/
theorem aggregate_settled (device : AggregateDevice) {fpu : FloatUnit} {batch out : RecordBatch}
    {spec : AggregateSpec} (href : Kernels.aggregate fpu batch spec = .ok out) :
    Settled Hard (2 ^ tableBits batch.numRows < 2 ^ 32) (Cuda.aggregate device batch spec)
      fun _ => True := by
  obtain ⟨keys, hkeys, href⟩ := bind_eq_ok_iff.mp href
  obtain ⟨inputs, hinputs, -⟩ := bind_eq_ok_iff.mp href
  obtain ⟨keyColumn, hkeyColumn, htype, -⟩ := Kernels.int64Column_inv hkeys
  have hcolumn : Cuda.column batch spec.groupBy = .ok keyColumn := by rw [Cuda.column, hkeyColumn]
  have hrequire : requireInt64 keyColumn "group key" = .ok () := if_pos htype
  have hroom := two_mul_le_two_pow_tableBits batch.numRows
  rw [Cuda.aggregate, hcolumn, ok_bind, hrequire, ok_bind]
  dsimp only
  set shape := TableShape.ofRows device.hash batch.numRows
  set memory := inserted shape keyColumn.int64s device.insert
  obtain ⟨results, hresults⟩ : ∃ results,
      (spec.aggregates.zipIdx.mapM fun entry => Cuda.column batch entry.1.2 >>= fun col =>
        runAggregate device shape memory.table keyColumn.int64s entry.2 entry.1.1 col) =
          .ok results := by
    refine mapM_ok_of_forall fun entry hentry => ?_
    obtain ⟨input, hinput⟩ := mapM_ok_of_mem hinputs (fst_mem_of_mem_zipIdx hentry)
    obtain ⟨col, hcol, hinput⟩ := Kernels.aggregateInput_inv hinput
    obtain ⟨agg, hagg⟩ := runAggregate_ok device shape memory.table keyColumn.int64s entry.2
      entry.1.1 (hinput.imp And.left And.left)
    exact ⟨agg, by rw [Cuda.column, hcol]; exact hagg⟩
  by_cases hcap : shape.capacity < 2 ^ 32
  · have hrows : u32Len batch.numRows "aggregate input" = .ok batch.numRows :=
      if_pos (hroom.trans_lt hcap |> fun h => by omega)
    have hslots : u32Len shape.capacity "group table capacity" = .ok shape.capacity := if_pos hcap
    simp only [hrows, hslots, hresults, ok_bind]
    have hentries : ∀ entry ∈ (spec.aggregates.zip results).map fun entry =>
        ((⟨entry.1.1.name ++ "(" ++ Kernels.fieldName batch entry.1.2 ++ ")",
          (entry.2.column entry.1.1 (outputAddresses shape memory)).dataType, true, []⟩ : Field),
          entry.2.column entry.1.1 (outputAddresses shape memory)),
        FieldFits (outputKeys shape memory).length entry.1 entry.2 :=
      forall_mem_map.mpr fun entry _ => length_outputAddresses shape memory ▸
        fits_column entry.2 entry.1.1 _ _
    obtain ⟨grouped, hgrouped⟩ := groupedOutput_ok (Kernels.fieldName batch spec.groupBy) hentries
      ((length_outputKeys_le shape memory).trans_lt (by omega))
    rw [hgrouped]
    exact .ok hcap trivial
  · have hslots : u32Len shape.capacity "group table capacity" =
        .error (.execution ("group table capacity" ++ " exceeds u32::MAX rows")) := if_neg hcap
    by_cases hrows : batch.numRows < 2 ^ 32
    · have hn : u32Len batch.numRows "aggregate input" = .ok batch.numRows := if_pos hrows
      rw [hn, ok_bind, hslots]
      exact .error hcap rfl
    · have hn : u32Len batch.numRows "aggregate input" =
          .error (.execution ("aggregate input" ++ " exceeds u32::MAX rows")) := if_neg hrows
      rw [hn]
      exact .error hcap rfl

theorem view_eq {dev : DeviceBatch} (hdev : Resident backend.layout sub dev columns)
    (hne : sub.entries ≠ [])
    (hscalar : ∀ column ∈ sub.columns, vectorDimension column.dataType = none) :
    RecordBatch.tryNew dev.schema (columns.map ColumnBytes.toColumn) = .ok sub := by
  have hsame : columns.map ColumnBytes.toColumn = sub.columns := by
    have heq := forall₂_imp_mem hdev.moved fun column hcolumn bytes hmoved =>
      hmoved.same (hscalar column hcolumn)
    rw [← forall₂_eq_eq_eq, forall₂_map_left_iff]
    exact heq.flip
  rw [hsame, hdev.schema]
  exact RecordBatch.tryNew_eq_ok sub.metadata hne sub.fits sub.numRows_lt

/-- An aggregation and the way back. -/
theorem aggregateBack_settled {dev : DeviceBatch} (hdev : Resident backend.layout sub dev columns)
    (hne : sub.entries ≠ [])
    (hscalar : ∀ column ∈ sub.columns, vectorDimension column.dataType = none) {fpu : FloatUnit}
    {spec : AggregateSpec} {out : RecordBatch} (href : Kernels.aggregate fpu sub spec = .ok out) :
    Settled Hard (2 ^ tableBits sub.numRows < 2 ^ 32)
      (backend.aggregate dev spec >>= CudaBackend.download) fun _ => True := by
  simp only [CudaBackend.aggregate, DeviceBatch.cudaBatch, hdev.inner, ok_bind,
    view_eq backend hdev hne hscalar, bind_assoc]
  refine ((aggregate_settled backend.groups href).bind fun grouped _ _ =>
    .ok trivial trivial).congr ?_ fun _ => id
  rw [and_true]

end Aggregate

/-! ## Vector distances -/

section Vector

variable {sub : RecordBatch} {dev : DeviceBatch} {columns : List ColumnBytes}
  {entry : Field × Column} {query : List F32} {metric : DistanceMetric} {outputName : String}

theorem extract_zeroDim {array : ArrowArray} {name : String} {nullable : Bool} {metadata : Metadata}
    (htype : array.data.dataType = .fixedSizeList name .float32 nullable metadata 0) :
    ∃ bytes, extract array = .ok bytes ∧ bytes.dataType = array.data.dataType := by
  obtain ⟨-, child, hchild, hitem, hchildValid, -, -, -⟩ :=
    (ArrayData.validate_list_iff htype).mp array.valid
  obtain ⟨-, width, buffer, hwidth, hbuffers, hfits, hlt⟩ :=
    PrimitiveData.validate_iff.mp hchildValid
  rw [hitem] at hwidth
  obtain rfl : 4 = width := Option.some.inj hwidth
  have hstart : child.offset * 4 + 0 ≤ buffer.length := by
    refine Nat.le_trans ?_ hfits
    exact Nat.mul_le_mul_right 4 (Nat.le_add_right _ _)
  have hslice := sliceChecked_eq "vector column" hstart hlt
  refine ⟨⟨array.data.dataType, array.data.len, Bytes.slice buffer (child.offset * 4) 0,
    array.data.nulls.map NullBuffer.sliced, 0⟩, ?_, rfl⟩
  simp only [extract, htype, if_true, extractList, hchild, hbuffers, Int.toNat_zero, Nat.mul_zero,
    Nat.zero_mul, Nat.add_zero, hslice, ok_bind, lt_irrefl, if_false]

theorem distanceColumn_rebuildable (h : Rebuildable bytes) (hlt : bytes.len < 2 ^ 32)
    (query : List F32) (metric : DistanceMetric) :
    Rebuildable (backend.distanceColumn bytes query metric bytes.len) where
  eligible := rfl
  wellFormed := by
    refine ⟨rfl, ?_, h.wellFormed.validity⟩
    show bytes.len * 4 ≤ (Scatter.read (backend.distances bytes query metric)
      (bytes.len * 4)).length
    rw [Scatter.read, length_map, length_range]
  values_lt := by
    simp only [distanceColumn, Scatter.read, length_map, length_range]
    omega
  childLen := (Nat.mul_zero _).symm

/-- The distances come back. -/
theorem downloadDistance_ok (hfits : FieldFits sub.numRows entry.1 entry.2)
    (hlt : sub.numRows < 2 ^ 32) (hmoved : Moved backend.layout entry.2 bytes) (query : List F32)
    (metric : DistanceMetric) (outputName : String) :
    ∃ out, download
        ⟨⟨[entry.1] ++ [⟨outputName, .float32, true, []⟩], []⟩, sub.numRows,
          .cuda ⟨sub.numRows, [bytes] ++ [backend.distanceColumn bytes query metric sub.numRows]⟩⟩ =
            .ok out ∧
      ∃ distance, out.columns.getLast? = some distance ∧
        FieldFits sub.numRows ⟨outputName, .float32, true, []⟩ distance := by
  have hbytes := hmoved.fits _ _ hfits
  have hlen : bytes.len = sub.numRows := bytes.toColumn_len.symm.trans hbytes.2.1
  have hdistance := distanceColumn_rebuildable backend hmoved.rebuildable (hlen ▸ hlt) query metric
  rw [hlen] at hdistance
  obtain ⟨vectors, hvectors, hvectorsEq⟩ := rebuild_ok hmoved.rebuildable
  obtain ⟨distances, hdistances, hdistancesEq⟩ := rebuild_ok hdistance
  set column := (backend.distanceColumn bytes query metric sub.numRows).toColumn
  have hcolumn : FieldFits sub.numRows ⟨outputName, .float32, true, []⟩ column :=
    ⟨rfl, ColumnBytes.toColumn_len _, nofun⟩
  have hall : ∀ pair ∈ [(entry.1, bytes.toColumn), (⟨outputName, .float32, true, []⟩, column)],
      FieldFits sub.numRows pair.1 pair.2 := by
    rintro pair hpair
    rcases mem_cons.mp hpair with rfl | hpair
    · exact hbytes
    · cases mem_singleton.mp hpair
      exact hcolumn
  have hrebuilt : [bytes, backend.distanceColumn bytes query metric sub.numRows].mapM
      rebuildColumn = .ok [bytes.toColumn, column] := by
    simp only [mapM_cons, mapM_nil, rebuildColumn, hvectors, hdistances, ok_bind,
      hvectorsEq, hdistancesEq]
    rfl
  have hnew := RecordBatch.tryNew_eq_ok [] (cons_ne_nil _ _) hall sub.numRows_lt
  have hdownload : download
      ⟨⟨[entry.1] ++ [⟨outputName, .float32, true, []⟩], []⟩, sub.numRows,
        .cuda ⟨sub.numRows, [bytes] ++ [backend.distanceColumn bytes query metric sub.numRows]⟩⟩ =
      RecordBatch.tryNew ⟨[entry.1, ⟨outputName, .float32, true, []⟩], []⟩
        [bytes.toColumn, column] := by
    rw [download]
    exact (congrArg (· >>= _) hrebuilt)
  exact ⟨_, hdownload.trans hnew, column, rfl, hcolumn⟩

/-- A distance and the way back. -/
theorem vectorDistance_settled (hdev : Resident backend.layout sub dev columns)
    (hentries : sub.entries = [entry]) {dim : ℕ}
    (hdim : vectorDimension entry.2.dataType = some dim) (hquery : query.length = dim)
    (hshared : dim * 4 ≤ maxSharedQueryBytes) (metric : DistanceMetric) (outputName : String) :
    Settled Hard (sub.numRows < 2 ^ 32)
      (backend.vectorDistance dev 0 query metric outputName >>= download)
      fun out => ∃ distance, out.columns.getLast? = some distance ∧
        FieldFits sub.numRows ⟨outputName, .float32, true, []⟩ distance := by
  have hfits : FieldFits sub.numRows entry.1 entry.2 :=
    sub.fits entry (hentries ▸ mem_singleton.mpr rfl)
  obtain ⟨bytes, hmoved, rfl⟩ : ∃ bytes, Moved backend.layout entry.2 bytes ∧
      columns = [bytes] := by
    have hcolumns := hdev.moved
    rw [RecordBatch.columns, hentries] at hcolumns
    cases hcolumns with
    | cons hmoved hnil =>
      cases hnil
      exact ⟨_, hmoved, rfl⟩
  have hbytesDim : vectorDimension bytes.dataType = some dim := hmoved.dataType ▸ hdim
  have hfields : dev.schema.fields = [entry.1] := by
    rw [hdev.schema, RecordBatch.schema, hentries]
    rfl
  have hsmall : dim * 4 ≤ 48 * 1024 := hshared
  have hdimLen : u32Len dim "vector dimension" = .ok dim := if_pos (by omega)
  have hsharedLen : u32Len (dim * 4) "shared memory" = .ok (dim * 4) := if_pos (by omega)
  simp only [vectorDistance, DeviceBatch.cudaBatch, hdev.inner, ok_bind, Filter.column,
    getElem?_cons_zero, hbytesDim, hquery, ne_eq, not_true_eq_false, if_false,
    if_neg (not_lt.mpr hshared), hdimLen, hsharedLen, hfields, bind_assoc, ite_self]
  by_cases hn : sub.numRows < 2 ^ 32
  · have hlen : u32Len sub.numRows "vector input" = .ok sub.numRows := if_pos hn
    obtain ⟨out, hout, hdistance⟩ := downloadDistance_ok backend hfits hn hmoved query metric
      outputName
    rw [hlen, ok_bind, hout]
    exact .ok hn hdistance
  · have hlen : u32Len sub.numRows "vector input" =
        .error (.execution ("vector input" ++ " exceeds u32::MAX rows")) := if_neg hn
    rw [hlen]
    exact .error hn rfl

/-- Vectors without dimensions and vectors of too many are left to the CPU reference. -/
theorem vectorDistance_declines (hinner : dev.inner = .cuda ⟨sub.numRows, columns⟩)
    (hbytes : columns[0]? = some bytes) (hdims : vectorDimension bytes.dataType = none ∨
      vectorDimension bytes.dataType = some query.length ∧
        maxSharedQueryBytes < query.length * 4) :
    ∃ e, backend.vectorDistance dev 0 query metric outputName = .error e ∧
      e.isUnsupported = true := by
  rcases hdims with hnone | ⟨hdim, hlarge⟩
  · simp only [vectorDistance, DeviceBatch.cudaBatch, hinner, ok_bind, Filter.column,
      hbytes, hnone]
    exact ⟨_, rfl, rfl⟩
  · simp only [vectorDistance, DeviceBatch.cudaBatch, hinner, ok_bind, Filter.column,
      hbytes, hdim, ne_eq, not_true_eq_false, if_false, if_pos hlarge]
    exact ⟨_, rfl, rfl⟩

end Vector

end OxideLake
