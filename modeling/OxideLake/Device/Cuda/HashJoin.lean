import OxideLake.Device.Cuda.BuildTable
import OxideLake.Device.Cuda.Host
import OxideLake.Device.JoinTable

/-!
# The CUDA hash join

`hash_join` of `cuda/ops.rs` builds an open-addressing table over the build keys,
counts the matches of every probe row, scans the counts into offsets and lets every
probe row write its `(left, right)` pairs from its offset on.

A probe walks from the home slot of its key to the first empty slot.  In a built table
that walk meets every build row of the key and reports each once (`matched_rows_perm`),
so the counting and the writing pass agree and the ranges of the scan are filled
without overlap.
-/

namespace OxideLake

namespace Cuda

open List Probing Interleaving Scatter EquiJoin JoinTable

/-! ## The probe kernels -/

section Probe

variable (shape : TableShape) (table : BuildTable)

/-- The loop of `oxide_hj_count` over at most the given number of slots. -/
def countLoop (key : Int64) : ℕ → ℕ → ℕ → ℕ
  | 0, _, count => count
  | left + 1, slot, count =>
    if table.state slot = .empty then count
    else if table.state slot = .published ∧ table.keys slot = key then
      countLoop key left (shape.next slot) (count + 1)
    else countLoop key left (shape.next slot) count

/-- Thread `i` of `oxide_hj_count`: the value it stores at `counts[i]`. -/
def countThread (keys : Int64Array) (i : ℕ) : ℕ :=
  match keys[i]? with
  | some (some key) => countLoop shape table key shape.capacity (shape.hash key) 0
  | _ => 0

/-- The loop of `oxide_hj_write`: the pairs it stores and where. -/
def writeLoop (i : ℕ) (key : Int64) : ℕ → ℕ → ℕ → List (ℕ × ℕ × ℕ)
  | 0, _, _ => []
  | left + 1, slot, out =>
    if table.state slot = .empty then []
    else if table.state slot = .published ∧ table.keys slot = key then
      (out, i, table.rows slot) :: writeLoop i key left (shape.next slot) (out + 1)
    else writeLoop i key left (shape.next slot) out

/-- Thread `i` of `oxide_hj_write`. -/
def writeThread (keys : Int64Array) (offsets : List ℕ) (i : ℕ) : List (ℕ × ℕ × ℕ) :=
  match keys[i]? with
  | some (some key) =>
    writeLoop shape table i key shape.capacity (shape.hash key) (offsets.getD i 0)
  | _ => []

/-! ## The slots of a walk -/

/-- The slots a walk reports. -/
def matchedFrom (key : Int64) : ℕ → ℕ → List ℕ
  | 0, _ => []
  | left + 1, slot =>
    if table.state slot = .empty then []
    else if table.state slot = .published ∧ table.keys slot = key then
      slot :: matchedFrom key left (shape.next slot)
    else matchedFrom key left (shape.next slot)

/-- The slots the walk of a key reports. -/
def matched (key : Int64) : List ℕ := matchedFrom shape table key shape.capacity (shape.hash key)

theorem countLoop_eq (key : Int64) (left slot count : ℕ) :
    countLoop shape table key left slot count =
      count + (matchedFrom shape table key left slot).length := by
  induction left generalizing slot count with
  | zero => rfl
  | succ left ih =>
    rw [countLoop, matchedFrom]
    split
    · rfl
    · split
      · rw [ih, length_cons]
        omega
      · exact ih _ _

theorem writeLoop_eq (i : ℕ) (key : Int64) (left slot out : ℕ) :
    writeLoop shape table i key left slot out =
      ((matchedFrom shape table key left slot).zipIdx out).map fun entry =>
        (entry.2, i, table.rows entry.1) := by
  induction left generalizing slot out with
  | zero => rfl
  | succ left ih =>
    rw [writeLoop, matchedFrom]
    split
    · rfl
    · split
      · rw [ih, zipIdx_cons, map_cons]
      · exact ih _ _

variable {shape table}

/-- The walk stops at the first empty slot. -/
theorem mem_matchedFrom {key : Int64} {left p slot : ℕ} :
    slot ∈ matchedFrom shape table key left (shape.slotAt key p) ↔
      ∃ q, p ≤ q ∧ q < p + left ∧ slot = shape.slotAt key q ∧
        (∀ r, p ≤ r → r ≤ q → table.state (shape.slotAt key r) ≠ .empty) ∧
        table.state slot = .published ∧ table.keys slot = key := by
  induction left generalizing p with
  | zero =>
    constructor
    · exact fun h => absurd h not_mem_nil
    · rintro ⟨q, hp, hlt, -⟩
      omega
  | succ left ih =>
    rw [matchedFrom, shape.next_slotAt]
    -- a match further on is one of the remaining walk
    have hlater : table.state (shape.slotAt key p) ≠ .empty →
        (slot ∈ matchedFrom shape table key left (shape.slotAt key (p + 1)) ↔
          ∃ q, p < q ∧ q < p + (left + 1) ∧ slot = shape.slotAt key q ∧
            (∀ r, p ≤ r → r ≤ q → table.state (shape.slotAt key r) ≠ .empty) ∧
            table.state slot = .published ∧ table.keys slot = key) := by
      intro hstate
      rw [ih]
      constructor
      · rintro ⟨q, hle, hlt, hslot, hpassed, hmatch⟩
        refine ⟨q, hle, by omega, hslot, fun r hr hrq => ?_, hmatch⟩
        rcases Nat.eq_or_lt_of_le hr with rfl | hlt'
        · exact hstate
        · exact hpassed r hlt' hrq
      · rintro ⟨q, hle, hlt, hslot, hpassed, hmatch⟩
        exact ⟨q, hle, by omega, hslot, fun r hr hrq => hpassed r (by omega) hrq, hmatch⟩
    split
    · next hempty =>
      refine ⟨fun h => absurd h not_mem_nil, ?_⟩
      rintro ⟨q, hp, -, -, hpassed, -⟩
      exact absurd hempty (hpassed p le_rfl hp)
    · next hstate =>
      split
      · next hmatch =>
        rw [mem_cons, hlater hstate]
        constructor
        · rintro (rfl | ⟨q, hlt, hrest⟩)
          · refine ⟨p, le_rfl, by omega, rfl, fun r hr hrp => ?_, hmatch⟩
            rw [Nat.le_antisymm hrp hr]
            exact hstate
          · exact ⟨q, hlt.le, hrest⟩
        · rintro ⟨q, hle, hlt, hslot, hrest⟩
          rcases Nat.eq_or_lt_of_le hle with rfl | hlt'
          · exact .inl hslot
          · exact .inr ⟨q, hlt', hlt, hslot, hrest⟩
      · next hmiss =>
        rw [hlater hstate]
        constructor
        · rintro ⟨q, hlt, hrest⟩
          exact ⟨q, hlt.le, hrest⟩
        · rintro ⟨q, hle, hlt, hslot, hpassed, hmatch⟩
          rcases Nat.eq_or_lt_of_le hle with rfl | hlt'
          · rw [hslot] at hmatch
            exact absurd hmatch hmiss
          · exact ⟨q, hlt', hlt, hslot, hpassed, hmatch⟩

theorem matchedFrom_sublist (key : Int64) (left p : ℕ) :
    (matchedFrom shape table key left (shape.slotAt key p)).Sublist
      ((range' p left).map (shape.slotAt key)) := by
  induction left generalizing p with
  | zero => exact .slnil
  | succ left ih =>
    rw [matchedFrom, shape.next_slotAt, range'_succ, map_cons]
    split
    · exact nil_sublist _
    · split
      · exact (ih (p + 1)).cons_cons _
      · exact (ih (p + 1)).cons _

end Probe

/-! ## Probing a built table -/

section Built

variable {shape : TableShape} {keys : Int64Array} {table : BuildTable}

/-- **A walk misses nothing**: it reports exactly the slots of its key. -/
theorem mem_matched (hbuilt : Built shape keys table) {key : Int64} {slot : ℕ} :
    slot ∈ matched shape table key ↔ table.state slot = .published ∧ table.keys slot = key := by
  rw [matched, ← shape.slotAt_zero, mem_matchedFrom]
  constructor
  · rintro ⟨q, -, -, -, -, hmatch⟩
    exact hmatch
  · rintro ⟨hstate, rfl⟩
    have hne : table.state slot ≠ .empty := by
      rw [hstate]
      exact fun h => by cases h
    obtain ⟨-, -, probes, hlt, hchain⟩ := hbuilt.row slot hne
    refine ⟨probes, Nat.zero_le _, by omega, hchain.position, fun r _ hr => ?_, hstate, rfl⟩
    rcases Nat.eq_or_lt_of_le hr with rfl | hlt'
    · rw [← hchain.position]
      exact hne
    · exact hchain.passed r hlt'

theorem matched_nodup (key : Int64) : (matched shape table key).Nodup := by
  rw [matched, ← shape.slotAt_zero]
  refine (matchedFrom_sublist key shape.capacity 0).nodup ?_
  rw [← range_eq_range']
  refine List.Nodup.map_on (fun p hp q hq heq => ?_) nodup_range
  exact position_injOn (mem_range.mp hp) (mem_range.mp hq) heq

/-- **The rows a probe reports** are the build rows with its key. -/
theorem matched_rows_perm (hbuilt : Built shape keys table) (key : Int64) :
    ((matched shape table key).map table.rows).Perm (rowsWithKey keys key) := by
  have hnodup : ((matched shape table key).map table.rows).Nodup :=
    List.Nodup.map_on (fun s hs s' hs' hrows =>
      hbuilt.single s s' ((mem_matched hbuilt).mp hs).1 ((mem_matched hbuilt).mp hs').1 hrows)
      (matched_nodup key)
  refine (perm_ext_iff_of_nodup hnodup (nodup_rowsWithKey keys key)).mpr fun row => ?_
  rw [mem_rowsWithKey, mem_map]
  constructor
  · rintro ⟨slot, hslot, rfl⟩
    obtain ⟨hstate, rfl⟩ := (mem_matched hbuilt).mp hslot
    exact (hbuilt.row slot (by rw [hstate]; exact fun h => by cases h)).2.1
  · intro hrow
    obtain ⟨slot, hstate, hslot, hkey⟩ := hbuilt.placed row key hrow
    exact ⟨slot, (mem_matched hbuilt).mpr ⟨hstate, hkey⟩, hslot⟩

/-- The build rows a probe row reports. -/
def matchesOf (shape : TableShape) (table : BuildTable) (probeKeys : Int64Array) (i : ℕ) :
    List ℕ :=
  match probeKeys[i]? with
  | some (some key) => (matched shape table key).map table.rows
  | _ => []

theorem countThread_eq (shape : TableShape) (table : BuildTable) (probeKeys : Int64Array)
    (i : ℕ) : countThread shape table probeKeys i = (matchesOf shape table probeKeys i).length := by
  unfold countThread matchesOf
  split
  · rw [countLoop_eq, Nat.zero_add, length_map]
    rfl
  · rfl

theorem writeThread_eq (shape : TableShape) (table : BuildTable) (probeKeys : Int64Array)
    (offsets : List ℕ) (i : ℕ) :
    writeThread shape table probeKeys offsets i =
      ((matchesOf shape table probeKeys i).zipIdx (offsets.getD i 0)).map fun entry =>
        (entry.2, i, entry.1) := by
  unfold writeThread matchesOf
  split
  · rw [writeLoop_eq, zipIdx_map, map_map]
    rfl
  · rfl

theorem writeThread_addresses (shape : TableShape) (table : BuildTable)
    (probeKeys : Int64Array) (offsets : List ℕ) (i : ℕ) :
    (writeThread shape table probeKeys offsets i).map Prod.fst =
      range' (offsets.getD i 0) (countThread shape table probeKeys i) := by
  rw [writeThread_eq, countThread_eq, map_map]
  exact zipIdx_map_snd _ _

theorem writeThread_pairs (shape : TableShape) (table : BuildTable)
    (probeKeys : Int64Array) (offsets : List ℕ) (i : ℕ) :
    (writeThread shape table probeKeys offsets i).map Prod.snd =
      (matchesOf shape table probeKeys i).map fun row => (i, row) := by
  rw [writeThread_eq, map_map]
  conv_rhs => rw [← zipIdx_map_fst (offsets.getD i 0) (matchesOf shape table probeKeys i)]
  rw [map_map]
  rfl

/-- The pairs of all probe rows, in probe order. -/
def joined (shape : TableShape) (table : BuildTable) (probeKeys : Int64Array) :
    List (ℕ × ℕ) :=
  (range probeKeys.length).flatMap fun i =>
    (matchesOf shape table probeKeys i).map fun row => (i, row)

/-- **The device joins exactly the pairs.** -/
theorem pairs_joined (hbuilt : Built shape keys table) (probeKeys : Int64Array) :
    Pairs probeKeys keys (joined shape table probeKeys) := by
  have hmem : ∀ i row, row ∈ matchesOf shape table probeKeys i ↔
      ∃ key, probeKeys[i]? = some (some key) ∧ keys[row]? = some (some key) := by
    intro i row
    unfold matchesOf
    split
    · next key hkey =>
      rw [(matched_rows_perm hbuilt key).mem_iff, mem_rowsWithKey]
      constructor
      · exact fun hrow => ⟨key, hkey, hrow⟩
      · rintro ⟨key', hkey', hrow⟩
        rw [hkey] at hkey'
        cases hkey'
        exact hrow
    · next hnone =>
      constructor
      · exact fun h => absurd h not_mem_nil
      · rintro ⟨key, hkey, -⟩
        exact absurd hkey (hnone key)
  have hnodup : ∀ i, (matchesOf shape table probeKeys i).Nodup := by
    intro i
    unfold matchesOf
    split
    · next key _ =>
      exact (matched_rows_perm hbuilt key).nodup_iff.mpr (nodup_rowsWithKey keys key)
    · exact .nil
  have hlex : (joined shape table probeKeys).Pairwise fun a b =>
      a.1 < b.1 ∨ a.1 = b.1 ∧ a.2 ≠ b.2 := by
    refine pairwise_flatMap.mpr ⟨fun i _ => ?_, pairwise_lt_range.imp fun hlt => ?_⟩
    · exact pairwise_map.mpr ((hnodup i).imp fun hne => .inr ⟨rfl, hne⟩)
    · intro a ha b hb
      obtain ⟨_, -, rfl⟩ := List.mem_map.mp ha
      obtain ⟨_, -, rfl⟩ := List.mem_map.mp hb
      exact .inl hlt
  refine ⟨hlex.imp ?_, hlex.imp ?_, fun i row => ?_⟩
  · rintro a b hab rfl
    rcases hab with hlt | ⟨-, hne⟩
    · exact lt_irrefl _ hlt
    · exact hne rfl
  · rintro a b (hlt | ⟨heq, -⟩)
    · exact hlt.le
    · exact heq.le
  · rw [joined, mem_flatMap, ← hmem]
    constructor
    · rintro ⟨i', -, hpair⟩
      obtain ⟨row', hrow', heq⟩ := List.mem_map.mp hpair
      cases heq
      exact hrow'
    · intro hrow
      obtain ⟨key, hkey, -⟩ := (hmem i row).mp hrow
      exact ⟨i, List.mem_range.mpr (List.getElem?_eq_some_iff.mp hkey).1,
        List.mem_map.mpr ⟨row, hrow, rfl⟩⟩

end Built

/-! ## The host side -/

/-- What the host does not decide: the hash function, the order of the atomic steps of
the build, and the order in which the stores of the other launches take effect. -/
structure JoinDevice where
  hash : TableHash
  build : List ℕ
  counts : StoreOrder ℕ
  left : StoreOrder ℕ
  right : StoreOrder ℕ

/-- The table after the build launch; there is none without build rows. -/
def built (shape : TableShape) (keys : Int64Array) (schedule : List ℕ) : BuildTable :=
  if 0 < keys.length then (run (buildStep shape) (buildLaunch shape keys) schedule).memory
  else .zeros

/-- The stores of `oxide_hj_count`. -/
def countWrites (shape : TableShape) (table : BuildTable) (leftKeys : Int64Array) :
    List (ℕ × ℕ) :=
  (range leftKeys.length).map fun i => (i, countThread shape table leftKeys i)

variable (device : JoinDevice)

/-- `counts` as read back; the kernel is not launched when a side is empty. -/
def hostCounts (shape : TableShape) (table : BuildTable)
    (leftKeys rightKeys : Int64Array) : List ℕ :=
  if 0 < leftKeys.length ∧ 0 < rightKeys.length then
    read (scatter (fun _ => 0) (device.counts.order (countWrites shape table leftKeys)))
      leftKeys.length
  else replicate leftKeys.length 0

/-- The stores of `oxide_hj_write`: an address and the pair stored there. -/
def pairWrites (shape : TableShape) (table : BuildTable) (leftKeys : Int64Array)
    (offsets : List ℕ) : List (ℕ × ℕ × ℕ) :=
  (range leftKeys.length).flatMap (writeThread shape table leftKeys offsets)

/-- The stores into `left_idx`, in the order they take effect. -/
def leftWrites (writes : List (ℕ × ℕ × ℕ)) : List (ℕ × ℕ) :=
  device.left.order (writes.map fun write => (write.1, write.2.1))

/-- The stores into `right_idx`, in the order they take effect. -/
def rightWrites (writes : List (ℕ × ℕ × ℕ)) : List (ℕ × ℕ) :=
  device.right.order (writes.map fun write => (write.1, write.2.2))

/-- `hash_join` up to the gathers: the `(left, right)` index pairs. -/
def joinPairs (leftKeys rightKeys : Int64Array) :
    Result (List (ℕ × ℕ)) := do
  let _ ← u32Len leftKeys.length "join probe side"
  let _ ← u32Len rightKeys.length "join build side"
  let shape := TableShape.ofRows device.hash rightKeys.length
  let _ ← u32Len shape.capacity "hash table capacity"
  let table := built shape rightKeys device.build
  let (offsets, total) ← exclusiveScan (hostCounts device shape table leftKeys rightKeys)
  let writes := if 0 < total then pairWrites shape table leftKeys offsets else []
  let leftIdx := read (scatter (fun _ => 0) (leftWrites device writes)) total
  let rightIdx := read (scatter (fun _ => 0) (rightWrites device writes)) total
  .ok (leftIdx.zip rightIdx)

section Host

variable {shape : TableShape} {table : BuildTable} {leftKeys rightKeys : Int64Array}

/-- The table a finished build leaves. -/
theorem built_spec (hcap : 2 * rightKeys.length ≤ shape.capacity) {schedule : List ℕ}
    (hfinished : BuildFinished rightKeys
      (run (buildStep shape) (buildLaunch shape rightKeys) schedule)) :
    Built shape rightKeys (built shape rightKeys schedule) := by
  unfold built
  split
  · exact build_finished (run_invariant (BuildInv.step hcap) (BuildInv.launch shape rightKeys)
      schedule) hfinished
  · exact build_finished (BuildInv.launch shape rightKeys) fun i hi => absurd hi (by omega)

theorem hostCounts_eq (hbuilt : Built shape rightKeys table) (leftKeys : Int64Array) :
    hostCounts device shape table leftKeys rightKeys =
      (range leftKeys.length).map (countThread shape table leftKeys) := by
  unfold hostCounts
  split
  · have haddresses : (countWrites shape table leftKeys).map Prod.fst =
        range leftKeys.length := by
      rw [countWrites, map_map]
      exact map_id _
    rw [read_scatter haddresses (device.counts.perm _), countWrites, map_map]
    rfl
  · next hempty =>
    -- a side without rows matches nothing
    have hzero : ∀ i ∈ range leftKeys.length, countThread shape table leftKeys i = 0 := by
      intro i hi
      have hright : rightKeys = [] := by
        have := mem_range.mp hi
        exact length_eq_zero_iff.mp (by omega)
      rw [countThread_eq, matchesOf]
      split
      · next key _ =>
        rw [((matched_rows_perm hbuilt key).length_eq), hright]
        rfl
      · rfl
    rw [map_congr_left hzero, map_const', length_range]

/-- The counts of the probe rows. -/
def probeCounts (shape : TableShape) (table : BuildTable) (leftKeys : Int64Array) :
    List ℕ :=
  (range leftKeys.length).map (countThread shape table leftKeys)

/-- **The write pass tiles the output**: the ranges of the probe rows, one after another,
are the addresses below the total. -/
theorem pairWrites_addresses (shape : TableShape) (table : BuildTable) (leftKeys : Int64Array) :
    (pairWrites shape table leftKeys (offsets 0 (probeCounts shape table leftKeys))).map Prod.fst =
      range (probeCounts shape table leftKeys).sum := by
  have hlength : (probeCounts shape table leftKeys).length = leftKeys.length := by
    rw [probeCounts, length_map, length_range]
  rw [range_eq_range', ← flatMap_range'_offsets, pairWrites, map_flatMap, hlength]
  refine flatMap_congr fun i hi => ?_
  have hcount : (probeCounts shape table leftKeys).getD i 0 =
      countThread shape table leftKeys i := by
    rw [probeCounts, getD_eq_getElem?_getD, getElem?_map,
      getElem?_range (mem_range.mp hi)]
    rfl
  rw [writeThread_addresses, hcount]

theorem pairWrites_pairs (shape : TableShape) (table : BuildTable)
    (leftKeys : Int64Array) (offsets : List ℕ) :
    (pairWrites shape table leftKeys offsets).map Prod.snd = joined shape table leftKeys := by
  rw [pairWrites, map_flatMap, joined]
  exact flatMap_congr fun i _ => writeThread_pairs shape table leftKeys offsets i

theorem sum_probeCounts (hbuilt : Built shape rightKeys table) (leftKeys : Int64Array) :
    (probeCounts shape table leftKeys).sum = (nestedLoop leftKeys rightKeys).length := by
  have hperm : (joined shape table leftKeys).Perm (nestedLoop leftKeys rightKeys) :=
    (pairs_joined hbuilt leftKeys).perm (pairs_nestedLoop leftKeys rightKeys)
  have haddresses := congrArg length (pairWrites_addresses shape table leftKeys)
  have hpairs := congrArg length
    (pairWrites_pairs shape table leftKeys (offsets 0 (probeCounts shape table leftKeys)))
  rw [length_map] at haddresses hpairs
  rw [← hperm.length_eq, ← hpairs, haddresses, length_range]

/-- The two index buffers hold the pairs of the write pass, whatever the order of its
stores. -/
theorem read_zip_eq {n : ℕ} {writes : List (ℕ × ℕ × ℕ)}
    (haddresses : writes.map Prod.fst = range n) (device : JoinDevice) :
    (read (scatter (fun _ => 0) (leftWrites device writes)) n).zip
        (read (scatter (fun _ => 0) (rightWrites device writes)) n) = writes.map Prod.snd := by
  have hfirst : ∀ f : ℕ × ℕ → ℕ, (writes.map fun write => (write.1, f write.2)).map Prod.fst =
      range n := by
    intro f
    rw [map_map]
    exact haddresses
  rw [leftWrites, rightWrites, read_scatter (hfirst Prod.fst) (device.left.perm _),
    read_scatter (hfirst Prod.snd) (device.right.perm _), map_map, map_map,
    zip_map, zip_eq_zipWith, zipWith_self, map_map]
  rfl

theorem pairWrites_of_total (shape : TableShape) (table : BuildTable) (leftKeys : Int64Array) :
    (if 0 < (probeCounts shape table leftKeys).sum then
        pairWrites shape table leftKeys (offsets 0 (probeCounts shape table leftKeys))
      else []) = pairWrites shape table leftKeys
          (offsets 0 (probeCounts shape table leftKeys)) := by
  split
  · rfl
  · next hzero =>
    have haddresses := pairWrites_addresses shape table leftKeys
    rw [Nat.eq_zero_of_not_pos hzero, range_zero, map_eq_nil_iff] at haddresses
    exact haddresses.symm

theorem joinPairs_eq (hleft : leftKeys.length < 2 ^ 32)
    (hcap : 2 ^ tableBits rightKeys.length < 2 ^ 32)
    (hmatches : (nestedLoop leftKeys rightKeys).length < 2 ^ 32)
    (hbuilt : Built (.ofRows device.hash rightKeys.length) rightKeys
      (built (.ofRows device.hash rightKeys.length) rightKeys device.build)) :
    joinPairs device leftKeys rightKeys =
      .ok (joined (.ofRows device.hash rightKeys.length)
        (built (.ofRows device.hash rightKeys.length) rightKeys device.build) leftKeys) := by
  have hprobe : u32Len leftKeys.length "join probe side" = .ok leftKeys.length := if_pos hleft
  have hbuild : u32Len rightKeys.length "join build side" = .ok rightKeys.length := by
    have := two_mul_le_two_pow_tableBits rightKeys.length
    exact if_pos (by omega)
  have hslots : u32Len (TableShape.ofRows device.hash rightKeys.length).capacity
      "hash table capacity" = .ok (2 ^ tableBits rightKeys.length) := if_pos hcap
  have hcounts := hostCounts_eq device hbuilt leftKeys
  rw [← probeCounts] at hcounts
  have hscan := exclusiveScan_eq (sum_probeCounts hbuilt leftKeys ▸ hmatches)
  simp only [joinPairs, hprobe, hbuild, hslots, hcounts, hscan, Partial.ok_bind,
    pairWrites_of_total]
  rw [read_zip_eq (pairWrites_addresses _ _ _), pairWrites_pairs]

end Host

/-- **The CUDA hash join is the reference under every schedule.**  Under a fair schedule
the build ends; however it ended, every non-`NULL` build row is in exactly one slot and
a slot that is not empty is published for such a row; the count pass returns the number
of build rows of each probe row's key; each probe row writes exactly the range the scan
gives it, the ranges tile the output, and every entry of both index buffers is stored
once; and the pairs are those of the reference, per probe row in probe order and up to
the order of its matches. -/
theorem joinPairs_conform (order : MapOrder) (leftKeys rightKeys : Int64Array)
    (hleft : leftKeys.length < 2 ^ 32) (hcap : 2 ^ tableBits rightKeys.length < 2 ^ 32)
    (hmatches : (nestedLoop leftKeys rightKeys).length < 2 ^ 32) :
    let shape := TableShape.ofRows device.hash rightKeys.length
    let table := built shape rightKeys device.build
    let counts := hostCounts device shape table leftKeys rightKeys
    let writes := pairWrites shape table leftKeys (offsets 0 counts)
    (∀ schedule, Fair (Finset.range rightKeys.length) schedule → ∃ t, BuildFinished rightKeys
      (run (buildStep shape) (buildLaunch shape rightKeys) (upTo schedule t))) ∧
    (BuildFinished rightKeys (run (buildStep shape) (buildLaunch shape rightKeys) device.build) →
      (∀ i key, rightKeys[i]? = some (some key) →
        ∃! slot, table.state slot = .published ∧ table.rows slot = i ∧ table.keys slot = key) ∧
      (∀ slot, table.state slot ≠ .empty → table.state slot = .published ∧
        rightKeys[table.rows slot]? = some (some (table.keys slot))) ∧
      counts = leftKeys.map (fun key => (key.map fun k =>
        (rowsWithKey rightKeys k).length).getD 0) ∧
      exclusiveScan counts = .ok (offsets 0 counts, (nestedLoop leftKeys rightKeys).length) ∧
      (∀ i < leftKeys.length, (writeThread shape table leftKeys (offsets 0 counts) i).map Prod.fst =
        range' ((offsets 0 counts).getD i 0) (counts.getD i 0)) ∧
      (range leftKeys.length).flatMap (fun i =>
          range' ((offsets 0 counts).getD i 0) (counts.getD i 0)) =
        range (nestedLoop leftKeys rightKeys).length ∧
      ExactlyOnce (nestedLoop leftKeys rightKeys).length (leftWrites device writes) ∧
      ExactlyOnce (nestedLoop leftKeys rightKeys).length (rightWrites device writes) ∧
      ∃ reference pairs pairs', ofKeys order rightKeys = .ok reference ∧
        Kernels.probePairs reference 0 leftKeys = .ok pairs ∧
        joinPairs device leftKeys rightKeys = .ok pairs' ∧ SameMatches pairs' pairs) := by
  intro shape table counts writes
  have hroom : 2 * rightKeys.length ≤ shape.capacity := two_mul_le_two_pow_tableBits _
  refine ⟨fun schedule hfair => build_terminates hroom hfair, fun hfinished => ?_⟩
  have hbuilt : Built shape rightKeys table := built_spec hroom hfinished
  have hcounts : counts = probeCounts shape table leftKeys := hostCounts_eq device hbuilt leftKeys
  have hsum : counts.sum = (nestedLoop leftKeys rightKeys).length := by
    rw [hcounts, sum_probeCounts hbuilt]
  have hlength : counts.length = leftKeys.length := by
    rw [hcounts, probeCounts, length_map, length_range]
  have hcount : ∀ i < leftKeys.length, counts.getD i 0 = countThread shape table leftKeys i := by
    intro i hi
    rw [hcounts, probeCounts, getD_eq_getElem?_getD, getElem?_map,
      getElem?_range hi]
    rfl
  have haddresses : writes.map Prod.fst = range (nestedLoop leftKeys rightKeys).length := by
    show (pairWrites shape table leftKeys (offsets 0 counts)).map Prod.fst = _
    rw [hcounts, pairWrites_addresses, sum_probeCounts hbuilt]
  have honce : ∀ (stores : StoreOrder ℕ) (f : ℕ × ℕ → ℕ),
      ExactlyOnce (nestedLoop leftKeys rightKeys).length
        (stores.order (writes.map fun write => (write.1, f write.2))) := by
    intro stores f
    refine exactlyOnce_of_addresses ?_ (stores.perm _)
    rw [map_map]
    exact haddresses
  refine ⟨fun i key hkey => ?_, fun slot hslot => ?_, ?_, ?_, fun i hi => ?_, ?_,
    honce device.left Prod.fst, honce device.right Prod.snd, ?_⟩
  · obtain ⟨slot, hstate, hrow, hstored⟩ := hbuilt.placed i key hkey
    refine ⟨slot, ⟨hstate, hrow, hstored⟩, fun slot' h => ?_⟩
    exact hbuilt.single slot' slot h.1 hstate (h.2.1.trans hrow.symm)
  · obtain ⟨hstate, hrow, -⟩ := hbuilt.row slot hslot
    exact ⟨hstate, hrow⟩
  · refine ext_getElem? fun i => ?_
    rw [hcounts, probeCounts, getElem?_map, getElem?_map]
    by_cases hi : i < leftKeys.length
    · rw [getElem?_range hi, getElem?_eq_getElem hi, Option.map_some, Option.map_some,
        countThread_eq, matchesOf, getElem?_eq_getElem hi]
      cases leftKeys[i] with
      | none => rfl
      | some key => exact congrArg some (matched_rows_perm hbuilt key).length_eq
    · rw [getElem?_eq_none (by simpa using hi), getElem?_eq_none (by simpa using hi)]
      rfl
  · rw [← hsum]
    exact exclusiveScan_eq (hsum ▸ hmatches)
  · rw [writeThread_addresses, hcount i hi]
  · rw [← hlength, flatMap_range'_offsets, hsum, range_eq_range']
  · have hright : rightKeys.length < 2 ^ 32 := by
      have := two_mul_le_two_pow_tableBits rightKeys.length
      omega
    obtain ⟨reference, hreference⟩ := ofKeys_succeeds order hright
    obtain ⟨pairs, hpairs⟩ := probePairs_succeeds reference
      (show 0 + leftKeys.length ≤ 2 ^ 32 by omega)
    refine ⟨reference, pairs, _, hreference, hpairs,
      joinPairs_eq device hleft hcap hmatches hbuilt, ?_⟩
    rw [probePairs_eq (ofKeys_matching hreference) hpairs]
    exact (pairs_joined hbuilt leftKeys).sameMatches (pairs_nestedLoop leftKeys rightKeys)

/-- A device on which three build rows, two of them with one key, race for their slots
and the stores of the other launches take effect backwards. -/
def backwardsDevice : JoinDevice where
  hash := oxideHash
  build := [2, 0, 0, 2, 0, 2, 0, 2, 0, 1]
  counts := ⟨reverse, fun writes => writes.reverse_perm⟩
  left := ⟨reverse, fun writes => writes.reverse_perm⟩
  right := ⟨reverse, fun writes => writes.reverse_perm⟩

theorem joinPairs_conform_backwards :
    BuildFinished [some 4, none, some 4]
      (run (buildStep (.ofRows oxideHash 3)) (buildLaunch (.ofRows oxideHash 3)
        [some 4, none, some 4]) backwardsDevice.build) ∧
    ∃ reference pairs pairs',
      ofKeys ⟨id, fun _ => .refl _⟩ [some 4, none, some 4] = .ok reference ∧
      Kernels.probePairs reference 0 [some 9, some 4, none] = .ok pairs ∧
      joinPairs backwardsDevice [some 9, some 4, none] [some 4, none, some 4] = .ok pairs' ∧
      SameMatches pairs' pairs := by
  have hfinished : BuildFinished [some 4, none, some 4]
      (run (buildStep (.ofRows oxideHash 3)) (buildLaunch (.ofRows oxideHash 3)
        [some 4, none, some 4]) backwardsDevice.build) := by decide
  obtain ⟨-, -, -, -, -, -, -, -, hpairs⟩ := (joinPairs_conform backwardsDevice
    ⟨id, fun _ => .refl _⟩ [some 9, some 4, none] [some 4, none, some 4] (by decide) (by decide)
    (by decide)).2 hfinished
  exact ⟨hfinished, hpairs⟩

end Cuda

end OxideLake
