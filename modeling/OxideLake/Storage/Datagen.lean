import OxideLake.Device.Kernels

/-!
# The demo table

`oxide gen-data` makes a table chunk by chunk (`datagen.rs`).  The rows of a chunk come one after
another from a generator that is seeded anew for every chunk, from the seed of the table and the
chunk's first id, and the last chunk is cut to the rows asked for.

Row `i` of the table is therefore the same whatever the number of rows (`demoRow`), and
`demoBatches_stable` says so of whole tables.  The two conversions to floats are parameters.
-/

namespace OxideLake

namespace Datagen

open List

def embeddingDim : ℕ := 8

def chunkRows : ℕ := 65536

/-- `splitmix64`: the number drawn and the state after it. -/
def splitmix64 (state : UInt64) : UInt64 × UInt64 :=
  let state := state + 0x9E3779B97F4A7C15
  let z := (state ^^^ (state >>> 30)) * 0xBF58476D1CE4E5B9
  let z := (z ^^^ (z >>> 27)) * 0x94D049BB133111EB
  (z ^^^ (z >>> 31), state)

/-- A loop of `n` turns that passes a state on and collects what each turn makes. -/
def draws {σ α : Type} (turn : σ → α × σ) : ℕ → σ → List α
  | 0, _ => []
  | n + 1, state => (turn state).1 :: draws turn n (turn state).2

theorem draws_eq {σ α : Type} (turn : σ → α × σ) (n : ℕ) (state : σ) :
    draws turn n state = (range n).map fun i => (turn ((fun s => (turn s).2)^[i] state)).1 := by
  induction n generalizing state with
  | zero => rfl
  | succ n ih =>
    rw [draws, ih, range_succ_eq_map, map_cons, map_map]
    rfl

/-- The type of `emb`. -/
def embType : DataType := .fixedSizeList "item" .float32 false [] embeddingDim

def demoSchema : Schema where
  fields := [⟨"id", .int64, false, []⟩, ⟨"k", .int64, true, []⟩, ⟨"v", .float64, true, []⟩,
    ⟨"s", .utf8, false, []⟩, ⟨"emb", embType, false, []⟩]

def sValues : List String :=
  ["s0", "s1", "s2", "s3", "s4", "s5", "s6", "s7", "s8", "s9", "s10", "s11", "s12"]

/-- What one turn of the loop pushes to the columns `k`, `v` and `emb`. -/
structure Drawn where
  k : Option Int64
  v : Option F64
  emb : List ListItem
  length_emb : emb.length = embeddingDim

/-- `i64::try_from`, and `i64::MAX` where it fails. -/
def idOf (row : ℕ) : Int64 := if row < 2 ^ 63 then Int64.ofNat row else Int64.maxValue

/-- The columns `gen_chunk` collects: one row for each turn of the loop. -/
def demoColumns (firstId : ℕ) (drawn : List Drawn) : List Column :=
  [.ofInt64 ((range drawn.length).map fun row => some (idOf (firstId + row))),
    .ofInt64 (drawn.map Drawn.k),
    .ofFloat64 (drawn.map Drawn.v),
    ⟨.utf8, (range drawn.length).map fun row => (sValues[(firstId + row) % 13]?).map Cell.utf8, by
      intro cell hcell value hvalue
      obtain ⟨row, -, rfl⟩ := mem_map.mp hcell
      obtain ⟨text, -, rfl⟩ := Option.map_eq_some_iff.mp hvalue
      rfl⟩,
    ⟨embType, drawn.map fun d => some (.vector d.emb), by
      intro cell hcell value hvalue
      obtain ⟨d, -, rfl⟩ := mem_map.mp hcell
      cases hvalue
      simp [embType, Cell.hasType, d.length_emb]⟩]

/-- Row `i` of the table, from what the loop draws for it. -/
def demoRow (i : ℕ) (drawn : Drawn) : List (Option Cell) :=
  [some (.int64 (idOf i)), drawn.k.map Cell.int64, drawn.v.map Cell.float64,
    (sValues[i % 13]?).map Cell.utf8, some (.vector drawn.emb)]

theorem demoColumns_fit (first : ℕ) (drawn : List Drawn) :
    ∀ entry ∈ demoSchema.fields.zip (demoColumns first drawn),
      FieldFits drawn.length entry.1 entry.2 := by
  intro entry hentry
  simp only [demoSchema, demoColumns, zip_cons_cons, zip_nil_left, mem_cons, not_mem_nil,
    or_false] at hentry
  rcases hentry with rfl | rfl | rfl | rfl | rfl
  · exact ⟨rfl, by simp [Column.len, Column.ofInt64], by simp [Column.ofInt64]⟩
  · exact ⟨rfl, by simp [Column.len, Column.ofInt64], nofun⟩
  · exact ⟨rfl, by simp [Column.len, Column.ofFloat64], nofun⟩
  · refine ⟨rfl, by simp [Column.len], fun _ => ?_⟩
    have hlt : ∀ x, x % 13 < sValues.length := fun x => Nat.mod_lt x (by decide)
    simp [hlt]
  · exact ⟨rfl, by simp [Column.len], by simp⟩

theorem demoColumns_cells (first : ℕ) {drawn : List Drawn} {row : ℕ} {d : Drawn}
    (h : drawn[row]? = some d) :
    (demoColumns first drawn).map (fun column => column.cell row) = demoRow (first + row) d := by
  obtain ⟨hrow, rfl⟩ := List.getElem?_eq_some_iff.mp h
  simp [demoColumns, demoRow, Column.cell, Column.ofInt64, Column.ofFloat64, hrow]

/-! ## Drawing rows -/

/-- The two float computations: `f64::from(n) / 4.0` and `f32::from(n) / 100.0 - 10.0`. -/
structure Floats where
  quarter : UInt32 → F64
  item : UInt16 → F32

section Tables

variable (floats : Floats)

/-- The items of one embedding, and the state after them. -/
def genItems : (n : ℕ) → UInt64 → { items : List ListItem // items.length = n } × UInt64
  | 0, state => (⟨[], rfl⟩, state)
  | n + 1, state =>
    let (r, state) := splitmix64 state
    let (rest, state) := genItems n state
    (⟨⟨floats.item (r % 2000).toUInt16, true⟩ :: rest.1, congrArg (· + 1) rest.2⟩, state)

/-- One turn of the loop of `gen_chunk`. -/
def genRow (state : UInt64) : Drawn × UInt64 :=
  let (r, state) := splitmix64 state
  let k := if r % 50 = 0 then none else some ((r >>> 8).toInt64 % 100)
  let (r, state) := splitmix64 state
  let v := if r % 40 = 0 then none else some (floats.quarter ((r >>> 8).toUInt32 % 100))
  let (emb, state) := genItems floats embeddingDim state
  (⟨k, v, emb.1, emb.2⟩, state)

/-- The loop of `gen_chunk`. -/
def genRows (n : ℕ) (state : UInt64) : List Drawn := draws (genRow floats) n state

/-- The state a chunk starts from. -/
def chunkSeed (seed : UInt64) (firstId : ℕ) : UInt64 :=
  seed ^^^ (UInt64.ofNat firstId * 0xA0761D6478BD642F)

def genChunk (firstId rows : ℕ) (seed : UInt64) : Result RecordBatch :=
  (RecordBatch.tryNew demoSchema
    (demoColumns firstId (genRows floats rows (chunkSeed seed firstId)))).mapError fun e =>
      .execution ("datagen batch: Invalid argument error: " ++ e.arrowText)

/-- `demo_batches`: a chunk from every `CHUNK_ROWS`-th row on, as `demo_chunks` hands them out. -/
def demoBatches (rows : ℕ) (seed : UInt64) : Result (List RecordBatch) :=
  ((range ((rows + chunkRows - 1) / chunkRows)).map (· * chunkRows)).mapM fun first =>
    genChunk floats first (min chunkRows (rows - first)) seed

/-! ## One row -/

/-- What the loop draws for row `i` of the table. -/
def drawnAt (seed : UInt64) (i : ℕ) : Drawn :=
  (genRow floats ((fun state => (genRow floats state).2)^[i % chunkRows]
    (chunkSeed seed (i - i % chunkRows)))).1

theorem genRows_chunk {first n : ℕ} (seed : UInt64) (hfirst : chunkRows ∣ first)
    (hn : n ≤ chunkRows) : genRows floats n (chunkSeed seed first) =
      (range n).map fun row => drawnAt floats seed (first + row) := by
  rw [genRows, draws_eq]
  refine map_congr_left fun row hrow => ?_
  have hmod : (first + row) % chunkRows = row := by
    rw [Nat.add_mod, Nat.mod_eq_zero_of_dvd hfirst, Nat.zero_add, Nat.mod_mod,
      Nat.mod_eq_of_lt (Nat.lt_of_lt_of_le (mem_range.mp hrow) hn)]
  rw [drawnAt, hmod, Nat.add_sub_cancel]

/-- **A chunk** is made, and its rows are those of the table. -/
theorem genChunk_rows {first n : ℕ} (seed : UInt64) (hfirst : chunkRows ∣ first)
    (hn : n ≤ chunkRows) : ∃ batch, genChunk floats first n seed = .ok batch ∧
      batch.rows = (range n).map fun row =>
        demoRow (first + row) (drawnAt floats seed (first + row)) := by
  have hdrawn := genRows_chunk floats seed hfirst hn
  rw [genChunk]
  generalize genRows floats n (chunkSeed seed first) = drawn at hdrawn ⊢
  have hlen : drawn.length = n := by rw [hdrawn, length_map, length_range]
  have hlt : drawn.length < 2 ^ 63 := hlen ▸ Nat.lt_of_le_of_lt hn (by decide)
  have hbatch := RecordBatch.tryNew_eq_ok [] (cons_ne_nil _ _) (demoColumns_fit first drawn) hlt
  refine ⟨_, congrArg (Except.mapError _) hbatch, ?_⟩
  rw [RecordBatch.rows, ← hlen]
  refine map_congr_left fun row hrow => ?_
  rw [RecordBatch.row, (RecordBatch.tryNew_ok hbatch).2.1]
  refine demoColumns_cells first ?_
  rw [hdrawn, getElem?_map, getElem?_range (hlen ▸ mem_range.mp hrow)]
  rfl

/-! ## Whole tables -/

/-- Chunks of `c` rows, the last one cut, cover the rows in order. -/
theorem flatMap_chunks (c n k : ℕ) :
    (range k).flatMap (fun j => (range (min c (n - j * c))).map (j * c + ·)) =
      range (min (k * c) n) := by
  induction k with
  | zero => simp
  | succ k ih =>
    rw [range_succ, flatMap_append, ih, flatMap_singleton]
    by_cases h : k * c ≤ n
    · have hend : min ((k + 1) * c) n = k * c + min c (n - k * c) := by
        rw [Nat.succ_mul]
        omega
      rw [Nat.min_eq_left h, hend, range_add]
    · have hnone : n - k * c = 0 := by omega
      have hend : min ((k + 1) * c) n = min (k * c) n := by
        rw [Nat.succ_mul]
        omega
      rw [hnone, hend, Nat.min_zero, range_zero, map_nil, append_nil]

/-- A table is made, and its rows are the first rows of the one endless table. -/
theorem demoBatches_rows (rows : ℕ) (seed : UInt64) :
    ∃ batches, demoBatches floats rows seed = .ok batches ∧
      batches.flatMap RecordBatch.rows =
        (range rows).map fun i => demoRow i (drawnAt floats seed i) := by
  have hchunk : ∀ j, ∃ batch,
      genChunk floats (j * chunkRows) (min chunkRows (rows - j * chunkRows)) seed =
        .ok batch ∧ batch.rows = (range (min chunkRows (rows - j * chunkRows))).map fun row =>
          demoRow (j * chunkRows + row) (drawnAt floats seed (j * chunkRows + row)) :=
    fun j => genChunk_rows floats seed (Nat.dvd_mul_left _ _) (Nat.min_le_left _ _)
  choose batch hbatch hrows using hchunk
  refine ⟨(range ((rows + chunkRows - 1) / chunkRows)).map batch, ?_, ?_⟩
  · rw [demoBatches, mapM_map]
    exact Partial.mapM_eq_ok_map fun j _ => hbatch j
  · have hall : min ((rows + chunkRows - 1) / chunkRows * chunkRows) rows = rows := by
      unfold chunkRows
      omega
    rw [flatMap_map]
    simp only [hrows]
    rw [← hall, ← flatMap_chunks, map_flatMap]
    simp only [map_map, Function.comp_def, hall]

/-- Eight bits shifted out, the number is not negative as an `i64`. -/
theorem key_range {r : UInt64} {key : Int64} (h : (r >>> 8).toInt64 % 100 = key) :
    0 ≤ key ∧ key ≤ 99 := by
  have hlt : (r >>> 8).toNat < 2 ^ 56 := by
    have hshift : (8 : UInt64).toNat % 64 = 8 := rfl
    have := r.toNat_lt
    rw [UInt64.toNat_shiftRight, hshift, Nat.shiftRight_eq_div_pow]
    omega
  have hint : (r >>> 8).toInt64.toInt = (r >>> 8).toNat := by
    rw [Int64.toInt, UInt64.toBitVec_toInt64]
    exact BitVec.toInt_eq_toNat_of_lt (by rw [UInt64.toNat_toBitVec]; omega)
  rw [← h]
  constructor
  · rw [Int64.le_iff_toInt_le, Int64.toInt_mod, hint]
    exact Int.tmod_nonneg _ (Int.natCast_nonneg _)
  · rw [Int64.le_iff_toInt_le, Int64.toInt_mod]
    exact Int.lt_add_one_iff.mp (Int.tmod_lt_of_pos _ (by decide))

theorem key_of_genRow {state : UInt64} {key : Int64}
    (h : (genRow floats state).1.k = some key) : 0 ≤ key ∧ key ≤ 99 := by
  unfold genRow at h
  dsimp only at h
  split at h
  · cases h
  · exact key_range (Option.some.inj h)

/-- **The demo table is prefix-stable.**  Tables of `n` and of `m ≥ n` rows are made, the rows of
the first are the first `n` rows of the second, the ids are `0 .. n-1` in order, and every key
that is not `NULL` lies in `0 .. 99`. -/
theorem demoBatches_stable (floats : Floats) (seed : UInt64)
    {n m : ℕ} (hle : n ≤ m) (hm : m < 2 ^ 63) :
    ∃ short long, demoBatches floats n seed = .ok short ∧
      demoBatches floats m seed = .ok long ∧
      short.flatMap RecordBatch.rows = (long.flatMap RecordBatch.rows).take n ∧
      (short.flatMap RecordBatch.rows).map (fun row => row[0]?) =
        (range n).map (fun i => some (some (.int64 (Int64.ofNat i)))) ∧
      ∀ row ∈ short.flatMap RecordBatch.rows, row[1]? = some none ∨
        ∃ key : Int64, row[1]? = some (some (.int64 key)) ∧ 0 ≤ key ∧ key ≤ 99 := by
  obtain ⟨short, hshort, hrows⟩ := demoBatches_rows floats n seed
  obtain ⟨long, hlong, hrows'⟩ := demoBatches_rows floats m seed
  refine ⟨short, long, hshort, hlong, ?_, ?_, ?_⟩
  · rw [hrows, hrows', ← map_take, take_range, Nat.min_eq_left hle]
  · rw [hrows, map_map]
    refine map_congr_left fun i hi => ?_
    have hid : i < 2 ^ 63 := (mem_range.mp hi).trans (hle.trans_lt hm)
    rw [Function.comp_apply, demoRow, idOf, if_pos hid]
    rfl
  · intro row hrow
    rw [hrows] at hrow
    obtain ⟨i, -, rfl⟩ := mem_map.mp hrow
    cases hkey : (drawnAt floats seed i).k with
    | none => exact .inl (by simp [demoRow, hkey])
    | some key => exact .inr ⟨key, by simp [demoRow, hkey], key_of_genRow floats hkey⟩

/-- A table of two chunks, and one of four that starts with it. -/
theorem demoBatches_stable_two : ∃ short long,
    demoBatches ⟨fun _ => 0, fun _ => 0⟩ (chunkRows + 1) 7 = .ok short ∧
    demoBatches ⟨fun _ => 0, fun _ => 0⟩ (3 * chunkRows + 5) 7 = .ok long ∧
    short.flatMap RecordBatch.rows = (long.flatMap RecordBatch.rows).take (chunkRows + 1) := by
  have hle : chunkRows + 1 ≤ 3 * chunkRows + 5 := by decide
  obtain ⟨short, long, hshort, hlong, hrows, -⟩ :=
    demoBatches_stable ⟨fun _ => 0, fun _ => 0⟩ 7 hle (by decide)
  exact ⟨short, long, hshort, hlong, hrows⟩

end Tables

end Datagen

end OxideLake
