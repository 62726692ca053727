import OxideLake.Device.Cuda.Accumulate
import OxideLake.Device.Cuda.Host
import OxideLake.Device.Grouping

/-!
# The CUDA aggregation

`aggregate` of `cuda/ops.rs` inserts the keys, runs one accumulate kernel an
aggregate, and finalizes the table on the host: published slots sorted by key, the
`NULL` group last.  The kernels are interleavings of their threads, so the result
depends on a schedule a launch; the results below say that it does not.
-/

namespace OxideLake

open List Partial Kernels

namespace Cuda

open Interleaving

variable {bound : ℕ} {acc : Acc} {cell : GroupCell} {func : AggregateFunction} {key : Option Int64}

/-! ## The host side -/

/-- The accumulators of one group of a float aggregate, as the device leaves them. -/
structure FloatCell where
  sum : F64
  min : F64
  max : F64
  count : UInt32

/-- `HostAgg`: the accumulators read back from the device. -/
inductive HostAgg where
  | ints (cells : Cells)
  | floats (cells : Option ℕ → FloatCell)

/-- What the host does not decide: the hash function, the order of the atomic steps of
each launch, and what the float kernels leave for the aggregate at a position. -/
structure AggregateDevice where
  hash : TableHash
  insert : List ℕ
  accumulate : ℕ → List ℕ
  floats : ℕ → Option ℕ → FloatCell

/-- The table and the `NULL` flag after the insert launch; there is none without rows. -/
def inserted (shape : TableShape) (keys : Int64Array) (schedule : List ℕ) :
    InsertMemory :=
  if 0 < keys.length then (run (insertStep shape) (insertLaunch shape keys) schedule).memory
  else (insertLaunch shape keys).memory

/-- The accumulators after an accumulate launch; there is none without rows. -/
def accumulated (shape : TableShape) (table : GroupTable) (func : AggregateFunction)
    (keys values : Int64Array) (schedule : List ℕ) : Cells :=
  if 0 < keys.length then
    (run (accumulateStep shape) (accumulateLaunch shape table func keys values)
      schedule).memory.cells
  else (accumulateLaunch shape table func keys values).memory.cells

/-- `run_aggregate` for the aggregate at position `a`. -/
def runAggregate (device : AggregateDevice) (shape : TableShape) (table : GroupTable)
    (keys : Int64Array) (a : ℕ) (func : AggregateFunction) (col : Column) :
    Result HostAgg :=
  match col.dataType with
  | .int64 =>
    .ok (.ints (accumulated shape table func keys col.int64s (device.accumulate a)))
  | .float64 =>
    if func = .count then
      -- the count kernel reads the validity only
      let present := col.float64s.map fun v => v.map fun _ => (0 : Int64)
      .ok (.ints (accumulated shape table func keys present (device.accumulate a)))
    else .ok (.floats (device.floats a))
  | other => .error (.unsupported "cuda.aggregate"
      ("aggregate input has type " ++ other.debug ++ "; v1 supports Int64 and Float64"))

/-- Order of `(key, slot)` tuples. -/
def slotLe (a b : Int64 × ℕ) : Prop := a.1 < b.1 ∨ a.1 = b.1 ∧ a.2 ≤ b.2

instance : DecidableRel slotLe := fun _ _ => inferInstanceAs (Decidable (_ ∨ _))

/-- The published slots with their keys, sorted. -/
def publishedSlots (shape : TableShape) (table : GroupTable) : List (Int64 × ℕ) :=
  (((range shape.capacity).filter fun slot => table.state slot = .published).map fun slot =>
    (table.keys slot, slot)).insertionSort slotLe

/-- The keys of the output, the `NULL` group last. -/
def outputKeys (shape : TableShape) (memory : InsertMemory) : Int64Array :=
  (publishedSlots shape memory.table).map (fun slot => some slot.1) ++
    if memory.nullFlag then [none] else []

/-- Where the accumulators of the output rows are. -/
def outputAddresses (shape : TableShape) (memory : InsertMemory) : List (Option ℕ) :=
  (publishedSlots shape memory.table).map (fun slot => some slot.2) ++
    if memory.nullFlag then [none] else []

/-- The value of a group: a count, or `NULL` without values. -/
def GroupCell.finish (func : AggregateFunction) (cell : GroupCell) : Option Int64 :=
  match func with
  | .count => some (Int64.ofNat cell.count.toNat)
  | .sum => if 0 < cell.count then some cell.sum else none
  | .min => if 0 < cell.count then some cell.min else none
  | .max => if 0 < cell.count then some cell.max else none

/-- The value of a group of a float aggregate. -/
def FloatCell.finish (func : AggregateFunction) (cell : FloatCell) : Option F64 :=
  if 0 < cell.count then
    match func with
    | .min => some cell.min
    | .max => some cell.max
    | _ => some cell.sum
  else none

/-- The output column of one aggregate. -/
def HostAgg.column (func : AggregateFunction) (addresses : List (Option ℕ)) : HostAgg → Column
  | .ints cells => .ofInt64 (addresses.map fun address => (cells address).finish func)
  | .floats cells => .ofFloat64 (addresses.map fun address => (cells address).finish func)

/-- `aggregate`: grouped `SUM/COUNT/MIN/MAX` over one `Int64` key. -/
def aggregate (device : AggregateDevice) (batch : RecordBatch) (spec : AggregateSpec) :
    Result RecordBatch := do
  let keys ← column batch spec.groupBy
  requireInt64 keys "group key"
  let _ ← u32Len batch.numRows "aggregate input"
  let shape := TableShape.ofRows device.hash batch.numRows
  let _ ← u32Len shape.capacity "group table capacity"
  let memory := inserted shape keys.int64s device.insert
  let results ← spec.aggregates.zipIdx.mapM fun entry => do
    let col ← column batch entry.1.2
    runAggregate device shape memory.table keys.int64s entry.2 entry.1.1 col
  let entries := (spec.aggregates.zip results).map fun entry =>
    let array := entry.2.column entry.1.1 (outputAddresses shape memory)
    (⟨entry.1.1.name ++ "(" ++ fieldName batch entry.1.2 ++ ")", array.dataType, true, []⟩,
      array)
  RecordBatch.tryNew
    ⟨⟨fieldName batch spec.groupBy, .int64, true, []⟩ :: entries.map Prod.fst, []⟩
    (Column.ofInt64 (outputKeys shape memory) :: entries.map Prod.snd)

/-! ## One group -/

/-- The operations of a row with an `Int64` value. -/
def opsOf (func : AggregateFunction) (values : Int64Array) (row : ℕ) : List AtomicOp :=
  match (values[row]?).join with
  | some v => kernelOps func v
  | none => []

/-- The cell of a group says of its rows what the reference's accumulator says; an
array the kernels of `func` do not write says nothing. -/
def Reduces (func : AggregateFunction) (cell : GroupCell) (acc : Acc) (bound : ℕ) : Prop :=
  ∃ (count : ℕ) (sum : ℤ) (min max : Int64), acc = .i64 count sum min max ∧ count ≤ bound ∧
    cell.count = UInt32.ofNat count ∧ (func = .sum → cell.sum = Int64.ofInt sum) ∧
    (func = .min ∨ func = .max → cell.min = min ∧ cell.max = max)

theorem reduces_initial (func : AggregateFunction) (values : Int64Array) :
    Reduces func .initial (Input.i values).fresh 0 :=
  ⟨0, 0, Int64.maxValue, Int64.minValue, rfl, le_rfl, rfl, fun _ => rfl, fun _ => ⟨rfl, rfl⟩⟩

theorem Reduces.mono {bound' : ℕ} (h : Reduces func cell acc bound) (hle : bound ≤ bound') :
    Reduces func cell acc bound' := by
  obtain ⟨count, sum, min, max, hacc, hcount, hrest⟩ := h
  exact ⟨count, sum, min, max, hacc, hcount.trans hle, hrest⟩

variable (fpu : FloatUnit)

theorem accumulate_i64 (values : Int64Array) (row : ℕ) (count sum : ℤ) (min max : Int64) :
    (Input.i values).accumulate fpu row (.i64 count sum min max) =
      match (values[row]?).join with
      | some v => .i64 (count + 1) (sum + v.toInt) (Min.min min v) (Max.max max v)
      | none => .i64 count sum min max :=
  rfl

theorem Reduces.row (values : Int64Array) (row : ℕ) (h : Reduces func cell acc bound) :
    Reduces func ((opsOf func values row).foldl GroupCell.apply cell)
      ((Input.i values).accumulate fpu row acc) (bound + 1) := by
  obtain ⟨count, sum, min, max, rfl, hle, hcount, hsum, hminmax⟩ := h
  rw [accumulate_i64, opsOf]
  cases (values[row]?).join with
  | none => exact ⟨count, sum, min, max, rfl, by omega, hcount, hsum, hminmax⟩
  | some v =>
    refine ⟨count + 1, sum + v.toInt, Min.min min v, Max.max max v, rfl, by omega, ?_, ?_, ?_⟩
    · -- every kernel adds one to the count
      rw [UInt32.ofNat_add, ← hcount]
      cases func <;> rfl
    · rintro rfl
      show cell.sum + v = _
      rw [hsum rfl, Int64.ofInt_add, Int64.ofInt_toInt]
    · rintro (rfl | rfl)
      · obtain ⟨rfl, rfl⟩ := hminmax (.inl rfl)
        exact ⟨rfl, rfl⟩
      · obtain ⟨rfl, rfl⟩ := hminmax (.inr rfl)
        exact ⟨rfl, rfl⟩

theorem Reduces.count_toNat (h : Reduces func cell acc bound) (hbound : bound < 2 ^ 32) :
    (cell.count.toNat : ℤ) = acc.count ∧ (0 < cell.count ↔ 0 < acc.count) := by
  obtain ⟨count, sum, min, max, rfl, hle, hcount, -⟩ := h
  have htoNat : cell.count.toNat = count := by
    rw [hcount]
    exact UInt32.toNat_ofNat_of_lt' (hle.trans_lt hbound)
  refine ⟨by rw [htoNat]; rfl, ?_⟩
  rw [UInt32.lt_iff_toNat_lt, htoNat]
  exact Int.natCast_pos.symm

theorem Reduces.finish_minMax (h : Reduces func cell acc bound) (hbound : bound < 2 ^ 32) :
    (func = .min → (match some acc with
        | some (.i64 count _ min _) => if 0 < count then some min else none
        | _ => none) = cell.finish .min) ∧
      (func = .max → (match some acc with
        | some (.i64 count _ _ max) => if 0 < count then some max else none
        | _ => none) = cell.finish .max) := by
  obtain ⟨-, hpos⟩ := h.count_toNat hbound
  obtain ⟨count, sum, min, max, rfl, -, -, -, hminmax⟩ := h
  refine ⟨fun hfunc => ?_, fun hfunc => ?_⟩
  · obtain ⟨hmin, -⟩ := hminmax (.inl hfunc)
    simp only [GroupCell.finish, hpos, hmin, Acc.count]
  · obtain ⟨-, hmax⟩ := hminmax (.inr hfunc)
    simp only [GroupCell.finish, hpos, hmax, Acc.count]

theorem Reduces.finish_sum (h : Reduces .sum cell acc bound) (hbound : bound < 2 ^ 32) :
    Kernels.sumI64 (some acc) = .ok (cell.finish .sum) ∨
      Kernels.sumI64 (some acc) = .error (.execution "SUM overflowed Int64") := by
  obtain ⟨-, hpos⟩ := h.count_toNat hbound
  obtain ⟨count, sum, min, max, rfl, -, -, hsum, -⟩ := h
  rw [Kernels.sumI64]
  simp only [GroupCell.finish, hpos, hsum rfl, Acc.count]
  split
  · split
    · exact .inl rfl
    · exact .inr rfl
  · exact .inl rfl

/-- **One column**: groups with cells that say what their accumulators say leave the
column of the reference, or the reference reports an overflow of `SUM`. -/
theorem aggregateColumn_eq {outKeys : Int64Array} {cellOf : Option Int64 → GroupCell}
    {accs : Option Int64 → List Acc} {acc : Option Int64 → Acc} {a : ℕ} (hbound : bound < 2 ^ 32)
    (hacc : ∀ key ∈ outKeys, (accs key)[a]? = some (acc key))
    (h : ∀ key ∈ outKeys, Reduces func (cellOf key) (acc key) bound) (values : Int64Array) :
    Kernels.aggregateColumn func (.i values) (outKeys.map fun key => (key, accs key)) a =
        .ok (.ofInt64 (outKeys.map fun key => (cellOf key).finish func)) ∨
      func = .sum ∧
        Kernels.aggregateColumn func (.i values) (outKeys.map fun key => (key, accs key)) a =
          .error (.execution "SUM overflowed Int64") := by
  cases func with
  | count =>
    refine .inl (congrArg (fun out => Except.ok (Column.ofInt64 out)) ?_)
    rw [map_map]
    refine map_congr_left fun key hkey => ?_
    show ((accs key)[a]?).map _ = _
    rw [hacc key hkey, Option.map_some, ← ((h key hkey).count_toNat hbound).1, Int64.ofInt_eq_ofNat]
    rfl
  | sum =>
    simp only [Kernels.aggregateColumn, mapM_map]
    have hstep : ∀ key ∈ outKeys, Kernels.sumI64 ((accs key)[a]?) = .ok ((cellOf key).finish .sum) ∨
        Kernels.sumI64 ((accs key)[a]?) = .error (.execution "SUM overflowed Int64") := by
      intro key hkey
      rw [hacc key hkey]
      exact (h key hkey).finish_sum hbound
    rcases mapM_eq_ok_map_or_error hstep with hok | ⟨herror, -⟩
    · exact .inl (by rw [Function.comp_def, hok]; rfl)
    · exact .inr ⟨trivial, by rw [Function.comp_def, herror]; rfl⟩
  | min =>
    refine .inl (congrArg (fun out => Except.ok (Column.ofInt64 out)) ?_)
    rw [map_map]
    refine map_congr_left fun key hkey => ?_
    rw [← ((h key hkey).finish_minMax hbound).1 rfl, ← hacc key hkey]
    rfl
  | max =>
    refine .inl (congrArg (fun out => Except.ok (Column.ofInt64 out)) ?_)
    rw [map_map]
    refine map_congr_left fun key hkey => ?_
    rw [← ((h key hkey).finish_minMax hbound).2 rfl, ← hacc key hkey]
    rfl

section Cells

variable {keys : Int64Array} {table : GroupTable} {slotOf : Int64 → ℕ}

theorem pendingOps_accumulateThread (shape : TableShape) (slotOf : Int64 → ℕ)
    (func : AggregateFunction) (values : Int64Array) {i : ℕ} (hi : i < keys.length) :
    pendingOps slotOf (accumulateThread shape func keys values i) =
      (opsOf func values i).map fun op => ((keys[i]?).join.map slotOf, op) := by
  unfold accumulateThread opsOf
  rw [getElem?_eq_getElem hi]
  cases values[i]? with
  | none => rfl
  | some value =>
    cases value with
    | none => rfl
    | some v => cases keys[i] <;> rfl

/-- **The rows of a key**, in the kernels and in the reference. -/
theorem reduces_rows (shape : TableShape) (hlocates : Locates keys table slotOf) (fpu : FloatUnit)
    (func : AggregateFunction) (values : Int64Array) (hkey : key ∈ keys) {rows : List ℕ}
    (hrows : ∀ row ∈ rows, row < keys.length) (cells : Cells)
    (h : Reduces func (cells (key.map slotOf)) acc bound) :
    Reduces func
      ((rows.flatMap fun row => pendingOps slotOf
        (accumulateThread shape func keys values row)).foldl Cells.apply cells (key.map slotOf))
      ((rows.filter fun row => (keys[row]?).join = key).foldl
        (fun acc row => (Input.i values).accumulate fpu row acc) acc) (bound + rows.length) := by
  induction rows generalizing cells acc bound with
  | nil => exact h
  | cons row rows ih =>
    have hlt := hrows row mem_cons_self
    have hrest : ∀ row ∈ rows, row < keys.length := fun r hr => hrows r (mem_cons_of_mem _ hr)
    rw [flatMap_cons, foldl_append, length_cons,
      show bound + (rows.length + 1) = bound + 1 + rows.length by omega]
    have hcell := foldl_cells_apply (opsOf func values row) cells ((keys[row]?).join.map slotOf)
      (key.map slotOf)
    rw [← pendingOps_accumulateThread shape slotOf func values hlt] at hcell
    by_cases hk : (keys[row]?).join = key
    · rw [hk, if_pos rfl] at hcell
      rw [filter_cons_of_pos (by simpa using hk), foldl_cons]
      refine ih hrest _ ?_
      rw [hcell]
      exact h.row fpu values row
    · -- another key has another address
      have hmem : (keys[row]?).join ∈ keys := by
        rw [getElem?_eq_getElem hlt]
        exact getElem_mem hlt
      rw [if_neg fun heq => hk (hlocates.address_inj hmem hkey heq)] at hcell
      rw [filter_cons_of_neg (by simpa using hk)]
      refine ih hrest _ ?_
      rw [hcell]
      exact h.mono (Nat.le_succ bound)

end Cells

/-! ## Output order -/

theorem slotLe_total (a b : Int64 × ℕ) : slotLe a b ∨ slotLe b a := by
  by_cases h : a.1 = b.1
  · rcases Nat.le_total a.2 b.2 with hle | hle
    · exact .inl (.inr ⟨h, hle⟩)
    · exact .inr (.inr ⟨h.symm, hle⟩)
  · rcases Int64.le_total a.1 b.1 with hle | hle
    · exact .inl (.inl (Int64.lt_of_le_of_ne hle h))
    · exact .inr (.inl (Int64.lt_of_le_of_ne hle fun heq => h heq.symm))

theorem slotLe_trans {a b c : Int64 × ℕ} (hab : slotLe a b) (hbc : slotLe b c) : slotLe a c := by
  rcases hab with hab | ⟨hab, hle⟩
  · rcases hbc with hbc | ⟨hbc, -⟩
    · exact .inl (Int64.lt_trans hab hbc)
    · exact .inl (hbc ▸ hab)
  · rcases hbc with hbc | ⟨hbc, hle'⟩
    · exact .inl (hab ▸ hbc)
    · exact .inr ⟨hab.trans hbc, hle.trans hle'⟩

theorem keyLe_of_slotLe {a b : Int64 × ℕ} (h : slotLe a b) :
    keyLe (some a.1) (some b.1) = true := by
  refine decide_eq_true ?_
  rcases h with h | ⟨h, -⟩
  · exact Int64.le_of_lt h
  · exact h ▸ Int64.le_refl _

theorem publishedSlots_pairwise (shape : TableShape) (table : GroupTable) :
    (publishedSlots shape table).Pairwise slotLe := by
  have htotal : Std.Total slotLe := ⟨slotLe_total⟩
  have htrans : IsTrans (Int64 × ℕ) slotLe := ⟨fun _ _ _ => slotLe_trans⟩
  exact pairwise_insertionSort _ _

theorem mem_publishedSlots {shape : TableShape} {table : GroupTable} {entry : Int64 × ℕ} :
    entry ∈ publishedSlots shape table ↔ entry.2 < shape.capacity ∧
      table.state entry.2 = .published ∧ table.keys entry.2 = entry.1 := by
  rw [publishedSlots, (perm_insertionSort _ _).mem_iff, mem_map]
  constructor
  · rintro ⟨slot, hslot, rfl⟩
    obtain ⟨hlt, hstate⟩ := mem_filter.mp hslot
    exact ⟨mem_range.mp hlt, of_decide_eq_true hstate, rfl⟩
  · rintro ⟨hlt, hstate, hkey⟩
    exact ⟨entry.2, mem_filter.mpr ⟨mem_range.mpr hlt, decide_eq_true hstate⟩,
      Prod.ext hkey rfl⟩

theorem keyLe_antisymm {a b : Option Int64} (hab : keyLe a b = true)
    (hba : keyLe b a = true) : a = b := by
  cases a with
  | none =>
    cases b with
    | none => rfl
    | some y => cases hab
  | some x =>
    cases b with
    | none => cases hba
    | some y => exact congrArg some (Int64.le_antisymm (of_decide_eq_true hab)
        (of_decide_eq_true hba))

section Output

variable {shape : TableShape} {keys : Int64Array} {memory : InsertMemory}
  {slotOf : Int64 → ℕ}

theorem outputKeys_pairwise (shape : TableShape) (memory : InsertMemory) :
    (outputKeys shape memory).Pairwise fun a b => keyLe a b = true := by
  refine pairwise_append.mpr ⟨?_, ?_, fun a ha b hb => ?_⟩
  · exact pairwise_map.mpr ((publishedSlots_pairwise _ _).imp keyLe_of_slotLe)
  · split
    · exact pairwise_singleton _ _
    · exact .nil
  · obtain ⟨entry, -, rfl⟩ := mem_map.mp ha
    split at hb
    · rw [mem_singleton.mp hb]
      rfl
    · cases hb

theorem outputKeys_nodup (hindex : Indexes shape keys memory.table) :
    (outputKeys shape memory).Nodup := by
  refine nodup_append.mpr ⟨?_, ?_, fun a ha b hb hab => ?_⟩
  · have hperm := (perm_insertionSort slotLe
      (((range shape.capacity).filter fun slot =>
        memory.table.state slot = .published).map fun slot => (memory.table.keys slot, slot))).map
      fun slot => some slot.1
    refine hperm.nodup_iff.mpr ?_
    rw [map_map]
    refine List.Nodup.map_on (fun s hs s' hs' heq => ?_) (nodup_range.filter _)
    exact hindex.unique s s' (of_decide_eq_true (mem_filter.mp hs).2)
      (of_decide_eq_true (mem_filter.mp hs').2) (Option.some.inj heq)
  · split
    · exact nodup_singleton _
    · exact .nil
  · obtain ⟨entry, -, rfl⟩ := mem_map.mp ha
    split at hb
    · rw [mem_singleton.mp hb] at hab
      cases hab
    · cases hb

theorem mem_outputKeys (hindex : Indexes shape keys memory.table)
    (hflag : memory.nullFlag = true ↔ none ∈ keys) :
    key ∈ outputKeys shape memory ↔ key ∈ keys := by
  rw [outputKeys, mem_append]
  cases key with
  | none =>
    rw [← hflag]
    constructor
    · rintro (h | h)
      · obtain ⟨entry, -, hentry⟩ := mem_map.mp h
        cases hentry
      · split at h
        · assumption
        · cases h
    · exact fun h => .inr (by rw [if_pos h]; exact mem_singleton_self _)
  | some key =>
    constructor
    · rintro (h | h)
      · obtain ⟨entry, hentry, heq⟩ := mem_map.mp h
        obtain ⟨-, hstate, hkey⟩ := mem_publishedSlots.mp hentry
        rw [← heq, ← hkey]
        exact (hindex.mem entry.2 hstate).2
      · split at h <;> simp at h
    · intro h
      obtain ⟨slot, -, hstate, hkey, -⟩ := hindex.found key h
      refine .inl (mem_map.mpr ⟨(key, slot), mem_publishedSlots.mpr ?_, rfl⟩)
      exact ⟨(hindex.mem slot hstate).1, hstate, hkey⟩

theorem outputKeys_eq (inputs : List Input)
    (hindex : Indexes shape keys memory.table) (hflag : memory.nullFlag = true ↔ none ∈ keys) :
    outputKeys shape memory =
      (Kernels.sortGroups (Kernels.groupRows fpu inputs keys)).map Prod.fst := by
  obtain ⟨hnodup, hmem, hpairwise⟩ := Kernels.sortGroups_groupRows_keys fpu inputs keys
  refine List.Perm.eq_of_pairwise (fun a b _ _ => keyLe_antisymm) (outputKeys_pairwise shape memory)
    hpairwise ?_
  refine (perm_ext_iff_of_nodup (outputKeys_nodup hindex) hnodup).mpr fun key => ?_
  rw [mem_outputKeys hindex hflag, hmem]

theorem outputAddresses_eq (hindex : Indexes shape keys memory.table)
    (hlocates : Locates keys memory.table slotOf) :
    outputAddresses shape memory = (outputKeys shape memory).map fun key => key.map slotOf := by
  rw [outputAddresses, outputKeys, map_append, map_map]
  congr 1
  · refine map_congr_left fun entry hentry => congrArg some ?_
    obtain ⟨-, hstate, hkey⟩ := mem_publishedSlots.mp hentry
    obtain ⟨hstate', hkey'⟩ := hlocates entry.1 (hkey ▸ (hindex.mem entry.2 hstate).2)
    exact hindex.unique _ _ hstate hstate' (hkey.trans hkey'.symm)
  · split <;> rfl

end Output

/-! ## The launches -/

section Launches

variable {shape : TableShape} {keys : Int64Array} {table : GroupTable}

theorem Indexes.locates (hindex : Indexes shape keys table) :
    ∃ slotOf, Locates keys table slotOf := by
  classical
  refine ⟨fun key => if hkey : some key ∈ keys then (hindex.found key hkey).choose else 0, ?_⟩
  intro key hkey
  simp only [dif_pos hkey]
  obtain ⟨_, hstate, hfound, -⟩ := (hindex.found key hkey).choose_spec
  exact ⟨hstate, hfound⟩

theorem inserted_indexes (hcap : 2 * keys.length ≤ shape.capacity) {schedule : List ℕ}
    (hfinished : InsertFinished keys (run (insertStep shape) (insertLaunch shape keys) schedule)) :
    Indexes shape keys (inserted shape keys schedule).table ∧
      ((inserted shape keys schedule).nullFlag = true ↔ none ∈ keys) := by
  unfold inserted
  split
  · exact insert_finished
      (run_invariant (InsertInv.step hcap) (InsertInv.launch shape keys) schedule) hfinished
  · next hempty =>
    exact insert_finished (InsertInv.launch shape keys) fun i hi => absurd hi (by omega)

theorem accumulated_reduces (hindex : Indexes shape keys table) {slotOf : Int64 → ℕ}
    (hlocates : Locates keys table slotOf) (fpu : FloatUnit) (func : AggregateFunction)
    (values : Int64Array) {schedule : List ℕ}
    (hfinished : AccumulateFinished keys (run (accumulateStep shape)
      (accumulateLaunch shape table func keys values) schedule)) (hkey : key ∈ keys) :
    Reduces func (accumulated shape table func keys values schedule (key.map slotOf))
      (Kernels.accOver fpu keys key (.i values) (range keys.length)) keys.length := by
  rw [accumulated, if_pos (length_pos_of_mem hkey),
    accumulate_cells hindex hlocates func values schedule hfinished]
  have h := reduces_rows shape hlocates fpu func values hkey (fun row => mem_range.mp)
    (fun _ => GroupCell.initial) (reduces_initial func values)
  rw [length_range, zero_add] at h
  exact h

end Launches

/-! ## The output batch -/

section Batch

theorem zip_zipIdx_map {α β : Type} (f : α → β) (xs : List α) :
    xs.zip (xs.map f).zipIdx = xs.zipIdx.map fun entry => (entry.1, f entry.1, entry.2) := by
  refine ext_getElem? fun i => ?_
  simp only [zip, getElem?_zipWith, getElem?_map,
    getElem?_zipIdx]
  cases xs[i]? <;> simp

theorem zip_map_zipIdx {α β : Type} (g : α × ℕ → β) (xs : List α) :
    xs.zip (xs.zipIdx.map g) = xs.zipIdx.map fun entry => (entry.1, g entry) := by
  refine ext_getElem? fun i => ?_
  simp only [zip, getElem?_zipWith, getElem?_map, getElem?_zipIdx]
  cases xs[i]? <;> simp

variable (device : AggregateDevice) (batch : RecordBatch) (spec : AggregateSpec)

/-- The `Int64` values of a column, by index. -/
def valuesAt (index : ℕ) : Int64Array :=
  ((batch.columns[index]?).map Column.int64s).getD []

/-- The column at an index exists and is `Int64`. -/
def IsInt64 (index : ℕ) : Prop :=
  ∃ col, batch.columns[index]? = some col ∧ col.dataType = .int64

/-- The output field and column of the aggregate at a position, from the accumulators
its launch leaves. -/
def deviceEntry (entry : (AggregateFunction × ℕ) × ℕ) : Field × Column :=
  let shape := TableShape.ofRows device.hash batch.numRows
  let keys := valuesAt batch spec.groupBy
  let memory := inserted shape keys device.insert
  let cells := accumulated shape memory.table entry.1.1 keys (valuesAt batch entry.1.2)
    (device.accumulate entry.2)
  (⟨entry.1.1.name ++ "(" ++ fieldName batch entry.1.2 ++ ")", .int64, true, []⟩,
    .ofInt64 ((outputAddresses shape memory).map fun address => (cells address).finish entry.1.1))

/-- The batch both sides assemble from a key column and one entry an aggregate. -/
def outputBatch (keys : Int64Array) (entries : List (Field × Column)) :
    Result RecordBatch :=
  RecordBatch.tryNew
    ⟨⟨fieldName batch spec.groupBy, .int64, true, []⟩ :: entries.map Prod.fst, []⟩
    (Column.ofInt64 keys :: entries.map Prod.snd)

variable {batch spec}

/-- **The device side**, for `Int64` columns and a table that fits. -/
theorem aggregate_eq_outputBatch (hkey : IsInt64 batch spec.groupBy)
    (hvalues : ∀ entry ∈ spec.aggregates, IsInt64 batch entry.2)
    (hcap : 2 ^ tableBits batch.numRows < 2 ^ 32) :
    aggregate device batch spec =
      outputBatch batch spec
        (outputKeys (.ofRows device.hash batch.numRows)
          (inserted (.ofRows device.hash batch.numRows) (valuesAt batch spec.groupBy)
            device.insert))
        (spec.aggregates.zipIdx.map (deviceEntry device batch spec)) := by
  obtain ⟨keys, hkeys, hkeyType⟩ := hkey
  have hkeyValues : valuesAt batch spec.groupBy = keys.int64s := by rw [valuesAt, hkeys]; rfl
  have hcolumn : column batch spec.groupBy = .ok keys := by rw [column, hkeys]
  have hrequire : requireInt64 keys "group key" = .ok () := if_pos hkeyType
  have hrows : u32Len batch.numRows "aggregate input" = .ok batch.numRows := by
    have := two_mul_le_two_pow_tableBits batch.numRows
    exact if_pos (by omega)
  have hslots : u32Len (TableShape.ofRows device.hash batch.numRows).capacity
      "group table capacity" = .ok (2 ^ tableBits batch.numRows) := if_pos hcap
  have hresults : ∀ entry ∈ spec.aggregates.zipIdx, (do
      let col ← column batch entry.1.2
      runAggregate device (TableShape.ofRows device.hash batch.numRows)
        (inserted (TableShape.ofRows device.hash batch.numRows) keys.int64s device.insert).table
        keys.int64s entry.2 entry.1.1 col) =
      .ok (.ints (accumulated (TableShape.ofRows device.hash batch.numRows)
        (inserted (TableShape.ofRows device.hash batch.numRows) keys.int64s device.insert).table
        entry.1.1 keys.int64s (valuesAt batch entry.1.2) (device.accumulate entry.2))) := by
    intro entry hentry
    obtain ⟨col, hcol, htype⟩ := hvalues entry.1 (fst_mem_of_mem_zipIdx hentry)
    rw [column, hcol, valuesAt, hcol, ok_bind, runAggregate, htype]
    rfl
  simp only [aggregate, hcolumn, hrequire, hrows, hslots, ok_bind,
    mapM_eq_ok_map hresults, zip_map_zipIdx, hkeyValues]
  have hentries : ∀ entry : (AggregateFunction × ℕ) × ℕ, deviceEntry device batch spec entry = _ :=
    fun entry => by rw [deviceEntry, hkeyValues]
  simp only [outputBatch, funext hentries, map_map]
  rfl

/-- The inputs of the reference. -/
def inputsOf (batch : RecordBatch) (spec : AggregateSpec) : List Input :=
  spec.aggregates.map fun entry => .i (valuesAt batch entry.2)

/-- The groups of the reference, in output order. -/
def referenceGroups (fpu : FloatUnit) (batch : RecordBatch) (spec : AggregateSpec) :
    List Kernels.Group :=
  Kernels.sortGroups (Kernels.groupRows fpu (inputsOf batch spec) (valuesAt batch spec.groupBy))

theorem reference_eq_outputBatch (hkey : IsInt64 batch spec.groupBy)
    (hvalues : ∀ entry ∈ spec.aggregates, IsInt64 batch entry.2) :
    Kernels.aggregate fpu batch spec =
      (spec.aggregates.zipIdx.mapM fun entry =>
        aggregateEntry batch (referenceGroups fpu batch spec)
          (entry.1, .i (valuesAt batch entry.1.2), entry.2)) >>=
        outputBatch batch spec ((referenceGroups fpu batch spec).map Prod.fst) := by
  obtain ⟨keys, hkeys, hkeyType⟩ := hkey
  have hkeyColumn : int64Column batch spec.groupBy "group key" =
      .ok (valuesAt batch spec.groupBy) := by
    rw [int64Column, Kernels.column, hkeys, ok_bind, if_pos hkeyType, valuesAt, hkeys]
    rfl
  have hinputs : ∀ entry ∈ spec.aggregates,
      Kernels.aggregateInput batch entry.2 = .ok (.i (valuesAt batch entry.2)) := by
    intro entry hentry
    obtain ⟨col, hcol, htype⟩ := hvalues entry hentry
    rw [Kernels.aggregateInput, Kernels.column, hcol, ok_bind, htype, valuesAt, hcol]
    rfl
  simp only [Kernels.aggregate, hkeyColumn, ok_bind, mapM_eq_ok_map hinputs,
    zip_zipIdx_map, mapM_map]
  rfl

theorem length_valuesAt {index : ℕ} (h : IsInt64 batch index) :
    (valuesAt batch index).length = batch.numRows := by
  obtain ⟨col, hcol, -⟩ := h
  rw [valuesAt, hcol]
  show col.int64s.length = _
  rw [Column.length_int64s]
  exact batch.column_len (mem_of_getElem? hcol)

/-- The threads of every launch have returned. -/
structure AggregateDevice.Returns (device : AggregateDevice) (batch : RecordBatch)
    (spec : AggregateSpec) : Prop where
  insert : InsertFinished (valuesAt batch spec.groupBy)
    (run (insertStep (.ofRows device.hash batch.numRows))
      (insertLaunch (.ofRows device.hash batch.numRows) (valuesAt batch spec.groupBy))
        device.insert)
  accumulate : ∀ entry ∈ spec.aggregates.zipIdx, AccumulateFinished (valuesAt batch spec.groupBy)
    (run (accumulateStep (.ofRows device.hash batch.numRows))
      (accumulateLaunch (.ofRows device.hash batch.numRows)
        (inserted (.ofRows device.hash batch.numRows) (valuesAt batch spec.groupBy)
          device.insert).table entry.1.1 (valuesAt batch spec.groupBy) (valuesAt batch entry.1.2))
      (device.accumulate entry.2))

variable {device}

section

variable (hkey : IsInt64 batch spec.groupBy)
include hkey

/-- **One aggregate**: the column of the reference, or its overflow of `SUM`. -/
theorem deviceEntry_column
    (hcap : 2 ^ tableBits batch.numRows < 2 ^ 32) (hreturns : device.Returns batch spec)
    {entry : (AggregateFunction × ℕ) × ℕ} (hentry : entry ∈ spec.aggregates.zipIdx) :
    Kernels.aggregateColumn entry.1.1 (.i (valuesAt batch entry.1.2))
        (referenceGroups fpu batch spec) entry.2 = .ok (deviceEntry device batch spec entry).2 ∨
      entry.1.1 = .sum ∧ Kernels.aggregateColumn entry.1.1 (.i (valuesAt batch entry.1.2))
        (referenceGroups fpu batch spec) entry.2 = .error (.execution "SUM overflowed Int64") := by
  have hlength := length_valuesAt hkey
  have htwice : 2 * batch.numRows ≤ 2 ^ tableBits batch.numRows := two_mul_le_two_pow_tableBits _
  obtain ⟨hindex, hflag⟩ := inserted_indexes (by rw [hlength]; exact htwice) hreturns.insert
  obtain ⟨slotOf, hlocates⟩ := hindex.locates
  have hgroups := Kernels.sortGroups_groupRows_eq fpu (inputsOf batch spec)
    (valuesAt batch spec.groupBy)
  rw [← outputKeys_eq fpu (inputsOf batch spec) hindex hflag] at hgroups
  have hposition : (inputsOf batch spec)[entry.2]? = some (.i (valuesAt batch entry.1.2)) := by
    rw [inputsOf, getElem?_map, mem_zipIdx_iff_getElem?.mp hentry]
    rfl
  rw [referenceGroups, hgroups, deviceEntry]
  simp only [outputAddresses_eq hindex hlocates, map_map]
  refine aggregateColumn_eq (show (valuesAt batch spec.groupBy).length < 2 ^ 32 by omega)
    (fun key _ => by rw [getElem?_map, hposition]; rfl) (fun key hmem => ?_) _
  exact accumulated_reduces hindex hlocates fpu entry.1.1 (valuesAt batch entry.1.2)
    (hreturns.accumulate entry hentry) ((mem_outputKeys hindex hflag).mp hmem)

theorem aggregateEntry_eq
    (hcap : 2 ^ tableBits batch.numRows < 2 ^ 32) (hreturns : device.Returns batch spec)
    {entry : (AggregateFunction × ℕ) × ℕ} (hentry : entry ∈ spec.aggregates.zipIdx) :
    aggregateEntry batch (referenceGroups fpu batch spec)
        (entry.1, .i (valuesAt batch entry.1.2), entry.2) =
          .ok (deviceEntry device batch spec entry) ∨
      entry.1.1 = .sum ∧ aggregateEntry batch (referenceGroups fpu batch spec)
        (entry.1, .i (valuesAt batch entry.1.2), entry.2) =
          .error (.execution "SUM overflowed Int64") := by
  obtain ⟨⟨func, index⟩, a⟩ := entry
  rcases deviceEntry_column fpu hkey hcap hreturns hentry with hok | ⟨hsum, herror⟩
  · exact .inl (by simp only [aggregateEntry, hok]; rfl)
  · exact .inr ⟨hsum, by simp only [aggregateEntry, herror]; rfl⟩

theorem outputKeys_eq_referenceGroups (hreturns : device.Returns batch spec) :
    outputKeys (.ofRows device.hash batch.numRows)
        (inserted (.ofRows device.hash batch.numRows) (valuesAt batch spec.groupBy) device.insert) =
      (referenceGroups fpu batch spec).map Prod.fst := by
  have htwice : 2 * batch.numRows ≤ 2 ^ tableBits batch.numRows := two_mul_le_two_pow_tableBits _
  obtain ⟨hindex, hflag⟩ := inserted_indexes (by rw [length_valuesAt hkey]; exact htwice)
    hreturns.insert
  exact outputKeys_eq fpu (inputsOf batch spec) hindex hflag

/-- **The output batch** is the reference's, or the reference reports an overflow of a
`SUM`. -/
theorem aggregate_eq_or_overflow (hvalues : ∀ entry ∈ spec.aggregates, IsInt64 batch entry.2)
    (hcap : 2 ^ tableBits batch.numRows < 2 ^ 32) (hreturns : device.Returns batch spec) :
    aggregate device batch spec = Kernels.aggregate fpu batch spec ∨
      (∃ entry ∈ spec.aggregates, entry.1 = .sum) ∧
        Kernels.aggregate fpu batch spec = .error (.execution "SUM overflowed Int64") := by
  rw [aggregate_eq_outputBatch device hkey hvalues hcap, reference_eq_outputBatch fpu hkey hvalues,
    outputKeys_eq_referenceGroups fpu hkey hreturns]
  have hentries := fun entry (hentry : entry ∈ spec.aggregates.zipIdx) =>
    aggregateEntry_eq fpu hkey hcap hreturns hentry
  rcases mapM_eq_ok_map_or_error fun entry hentry =>
      (hentries entry hentry).imp_right And.right with hok | ⟨herror, entry, hentry, hoverflow⟩
  · exact .inl (by rw [hok]; rfl)
  · refine .inr ⟨⟨entry.1, fst_mem_of_mem_zipIdx hentry, ?_⟩, by rw [herror]; rfl⟩
    rcases hentries entry hentry with hok | ⟨hsum, -⟩
    · rw [hok] at hoverflow
      cases hoverflow
    · exact hsum

end

end Batch

/-- **The CUDA aggregation is the reference under every schedule.**  Under a fair
schedule the insert kernel ends; however it ended, every non-`NULL` key has exactly one
published slot, which every lookup returns, and the accumulate kernels end as well; and
however those ended, the finalized table is the output of the reference: column by
column for `COUNT`, `MIN` and `MAX`, and as a batch unless the reference reports an
overflow of a `SUM`. -/
theorem aggregate_conforms (device : AggregateDevice) (batch : RecordBatch)
    (spec : AggregateSpec) (hkey : IsInt64 batch spec.groupBy)
    (hvalues : ∀ entry ∈ spec.aggregates, IsInt64 batch entry.2)
    (hcap : 2 ^ tableBits batch.numRows < 2 ^ 32) :
    let shape := TableShape.ofRows device.hash batch.numRows
    let keys := valuesAt batch spec.groupBy
    let table := (inserted shape keys device.insert).table
    (∀ schedule, Fair (Finset.range keys.length) schedule → ∃ t, InsertFinished keys
      (run (insertStep shape) (insertLaunch shape keys) (upTo schedule t))) ∧
    (InsertFinished keys (run (insertStep shape) (insertLaunch shape keys) device.insert) →
      (∀ key, some key ∈ keys ↔ ∃ slot, table.state slot = .published ∧ table.keys slot = key) ∧
      (∀ key, some key ∈ keys → ∃! slot, table.state slot = .published ∧ table.keys slot = key) ∧
      (∀ slot, table.state slot = .published →
        ∃ m, lookup shape table (table.keys slot) m = (.returned (some slot), table)) ∧
      ∀ func values schedule, Fair (Finset.range keys.length) schedule → ∃ t,
        AccumulateFinished keys (run (accumulateStep shape)
          (accumulateLaunch shape table func keys values) (upTo schedule t))) ∧
    (device.Returns batch spec →
      (∀ entry ∈ spec.aggregates.zipIdx, entry.1.1 ≠ .sum →
        Kernels.aggregateColumn entry.1.1 (.i (valuesAt batch entry.1.2))
          (referenceGroups fpu batch spec) entry.2 = .ok (deviceEntry device batch spec entry).2) ∧
      (((∃ entry ∈ spec.aggregates, entry.1 = .sum) →
          Kernels.aggregate fpu batch spec ≠ .error (.execution "SUM overflowed Int64")) →
        aggregate device batch spec = Kernels.aggregate fpu batch spec)) := by
  intro shape keys table
  have hroom : 2 * keys.length ≤ shape.capacity := by
    rw [show keys.length = batch.numRows from length_valuesAt hkey]
    exact two_mul_le_two_pow_tableBits _
  refine ⟨fun schedule hfair => insert_terminates hroom hfair, fun hfinished => ?_,
    fun hreturns => ⟨fun entry hentry hsum => ?_, fun hfits => ?_⟩⟩
  · obtain ⟨hindex, -⟩ := inserted_indexes hroom hfinished
    have hfound : ∀ key, some key ∈ keys → ∃ slot, table.state slot = .published ∧
        table.keys slot = key := fun key hmem => by
      obtain ⟨slot, -, hstate, hslot, -⟩ := hindex.found key hmem
      exact ⟨slot, hstate, hslot⟩
    refine ⟨fun key => ⟨hfound key, ?_⟩, fun key hmem => ?_, fun slot => lookup_returns hindex,
      fun func values schedule => accumulate_terminates hindex func values⟩
    · rintro ⟨slot, hstate, rfl⟩
      exact (hindex.mem slot hstate).2
    · obtain ⟨slot, hstate, hslot⟩ := hfound key hmem
      refine ⟨slot, ⟨hstate, hslot⟩, fun slot' h => ?_⟩
      exact hindex.unique slot' slot h.1 hstate (h.2.trans hslot.symm)
  · rcases deviceEntry_column fpu hkey hcap hreturns hentry with hok | ⟨hfunc, -⟩
    · exact hok
    · exact absurd hfunc hsum
  · rcases aggregate_eq_or_overflow fpu hkey hvalues hcap hreturns with heq | ⟨hsum, hoverflow⟩
    · exact heq
    · exact absurd hoverflow (hfits hsum)

/-- Sales of one region and of no region. -/
def sales : RecordBatch :=
  .ofEntries
    [(⟨"region", .int64, true, []⟩, Column.ofInt64 [some 7, none, some 7]),
      (⟨"amount", .int64, true, []⟩, Column.ofInt64 [some 5, some 2, some (-1)])] 3 (by decide)

/-- A device on which the two threads of region 7 race for its slot. -/
def racingDevice : AggregateDevice where
  hash := oxideHash
  insert := [0, 2, 0, 2, 1, 2, 0, 0, 2, 2]
  accumulate := fun _ => [2, 0, 1, 2, 0, 1, 0, 2, 0, 2, 0, 2, 1]
  floats := fun _ _ => ⟨0, 0, 0, 0⟩

theorem aggregate_conforms_sales :
    racingDevice.Returns sales ⟨0, [(.count, 1), (.max, 1)]⟩ ∧
      aggregate racingDevice sales ⟨0, [(.count, 1), (.max, 1)]⟩ =
        Kernels.aggregate ⟨fun a _ => a, fun a _ => a, fun a _ => a, fun _ _ => 0, fun _ _ => 0⟩
          sales ⟨0, [(.count, 1), (.max, 1)]⟩ := by
  have hreturns : racingDevice.Returns sales ⟨0, [(.count, 1), (.max, 1)]⟩ := by
    constructor
    · decide
    · decide
  refine ⟨hreturns, ?_⟩
  refine ((aggregate_conforms _ racingDevice sales ⟨0, [(.count, 1), (.max, 1)]⟩
    ⟨_, rfl, rfl⟩ ?_ (by decide)).2.2 hreturns).2 ?_
  · simp [IsInt64, sales, RecordBatch.ofEntries, RecordBatch.columns, Column.ofInt64]
  · simp

end Cuda

end OxideLake
