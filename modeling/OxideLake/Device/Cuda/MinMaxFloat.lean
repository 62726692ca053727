import OxideLake.Device.Cuda.Aggregation
import OxideLake.Foundations.Binary64
import OxideLake.Foundations.CasExtremum

/-!
# `MIN` and `MAX` of floats

`oxide_agg_minmax_f64` has no atomic minimum of doubles to call.  `oxide_atomic_min_f64` and
`oxide_atomic_max_f64` load the cell with a plain load and then compare and swap bit patterns in
a loop that is left as soon as the thread's value is not better than what it saw.

A plain load may be stale: here it returns any value the cell has held, an arbitrary one for
every thread and every cell (`Lags`).  Comparisons are those of IEEE 754, so a NaN beats nothing
and is beaten by nothing.  Under every schedule a finished launch leaves the smallest and the
largest number of every group, or the infinities it started from (`minmax_f64_extremes`).
-/

namespace OxideLake

namespace Cuda

open List Probing Interleaving CasExtremum Binary64 Function

variable {offer : Offer F64}

/-! ## The kernel -/

/-- `v < cur`: the test of `oxide_atomic_min_f64`. -/
def below (v cur : F64) : Bool := ieeeLt v cur

/-- `v > cur`: the test of `oxide_atomic_max_f64`. -/
def above (v cur : F64) : Bool := ieeeLt cur v

theorem strict_below : Strict below := ⟨ieeeLt_irrefl, ieeeLt_trans⟩

theorem strict_above : Strict above := ⟨ieeeLt_irrefl, fun hab hbc => ieeeLt_trans hbc hab⟩

/-- The accumulators of one group: `mins`, `maxs` and `counts` at one index. -/
structure MinMaxCell where
  min : Held F64
  max : Held F64
  count : UInt32

/-- The accumulators as allocated. -/
def MinMaxCell.initial : MinMaxCell := ⟨⟨[], posInf⟩, ⟨[], negInf⟩, 0⟩

/-- The table, read only, and the accumulators by slot; `none` is index 0 of the `*_null`
arrays. -/
structure MinMaxMemory where
  table : GroupTable
  cells : Option ℕ → MinMaxCell

/-- Where a thread of `oxide_agg_minmax_f64` stands. -/
inductive MinMaxPc where
  /-- inside `oxide_ag_slot` -/
  | find (key : Int64) (v : F64) (pc : SlotPc)
  /-- inside `oxide_atomic_min_f64` -/
  | offerMin (address : Option ℕ) (v : F64) (offer : Offer F64)
  /-- inside `oxide_atomic_max_f64` -/
  | offerMax (address : Option ℕ) (v : F64) (offer : Offer F64)
  /-- about to `atomicAdd` the count -/
  | addCount (address : Option ℕ)
  | exited

/-- The thread has returned. -/
def MinMaxPc.finished : MinMaxPc → Bool
  | .exited => true
  | _ => false

/-- By how many writes the plain loads of every thread lag behind. -/
structure Lags where
  min : ℕ → ℕ
  max : ℕ → ℕ

/-- From `oxide_atomic_min_f64` to `oxide_atomic_max_f64`. -/
def MinMaxPc.afterMin (address : Option ℕ) (v : F64) : Offer F64 → MinMaxPc
  | .done => .offerMax address v .load
  | offer => .offerMin address v offer

/-- From `oxide_atomic_max_f64` to the count. -/
def MinMaxPc.afterMax (address : Option ℕ) (v : F64) : Offer F64 → MinMaxPc
  | .done => .addCount address
  | offer => .offerMax address v offer

/-- The memory with one group's accumulators replaced. -/
def MinMaxMemory.set (memory : MinMaxMemory) (address : Option ℕ) (cell : MinMaxCell) :
    MinMaxMemory :=
  { memory with cells := update memory.cells address cell }

/-- One atomic step of a thread of `oxide_agg_minmax_f64`. -/
def minMaxStep (shape : TableShape) (lags : Lags) : ThreadStep ℕ MinMaxMemory MinMaxPc :=
  fun i pc memory =>
    match pc with
    | .find key v pc =>
      let next := slotStep shape false key pc memory.table
      let memory := { memory with table := next.2 }
      match next.1 with
      | .returned none => (.exited, memory)
      | .returned (some slot) => (.offerMin (some slot) v .load, memory)
      | pc => (.find key v pc, memory)
    | .offerMin address v offer =>
      let cell := memory.cells address
      let next := CasExtremum.step below (lags.min i) v offer cell.min
      (.afterMin address v next.1, memory.set address { cell with min := next.2 })
    | .offerMax address v offer =>
      let cell := memory.cells address
      let next := CasExtremum.step above (lags.max i) v offer cell.max
      (.afterMax address v next.1, memory.set address { cell with max := next.2 })
    | .addCount address =>
      let cell := memory.cells address
      (.exited, memory.set address { cell with count := cell.count + 1 })
    | .exited => (.exited, memory)

/-- Thread `i` at launch: it returns at once past the last row and on a `NULL` value, and goes
to the `NULL` group on a `NULL` key. -/
def minMaxThread (shape : TableShape) (keys : Int64Array) (values : Float64Array)
    (i : ℕ) : MinMaxPc :=
  match values[i]? with
  | some (some v) =>
    match keys[i]? with
    | some (some key) => .find key v (.load (shape.hash key) 0)
    | some none => .offerMin none v .load
    | none => .exited
  | _ => .exited

/-- The launch of `oxide_agg_minmax_f64` over a finished table. -/
def minMaxLaunch (shape : TableShape) (table : GroupTable) (keys : Int64Array)
    (values : Float64Array) : Config ℕ MinMaxMemory MinMaxPc :=
  ⟨⟨table, fun _ => .initial⟩, minMaxThread shape keys values⟩

/-- Every thread has returned. -/
def MinMaxFinished (keys : Int64Array) (c : Config ℕ MinMaxMemory MinMaxPc) : Prop :=
  ∀ i < keys.length, (c.thread i).finished = true

instance (keys : Int64Array) (c : Config ℕ MinMaxMemory MinMaxPc) :
    Decidable (MinMaxFinished keys c) :=
  inferInstanceAs (Decidable (∀ i < keys.length, (c.thread i).finished = true))

/-! ## The invariant -/

section Invariant

variable (shape : TableShape) (keys : Int64Array) (values : Float64Array)
  (table : GroupTable) (slotOf : Int64 → ℕ)

/-- Row `i` offers `v` to the group at an address. -/
def RowAt (i : ℕ) (address : Option ℕ) (v : F64) : Prop :=
  ∃ key, keys[i]? = some key ∧ values[i]? = some (some v) ∧ address = key.map slotOf

/-- A cell at an address: it has only got better, from its initial value, by values of rows of
the group. -/
structure HeldOk (better : F64 → F64 → Bool) (initial : F64) (address : Option ℕ)
    (held : Held F64) : Prop where
  sorted : held.Sorted better
  start : held.initial = initial
  written : ∀ v ∈ held.written, ∃ i, RowAt keys values slotOf i address v

structure MemoryOk (memory : MinMaxMemory) : Prop where
  tableKept : memory.table = table
  min : ∀ address, HeldOk keys values slotOf below posInf address (memory.cells address).min
  max : ∀ address, HeldOk keys values slotOf above negInf address (memory.cells address).max

/-- What holds of thread `i`. -/
def MinMaxThreadOk (memory : MinMaxMemory) (i : ℕ) : MinMaxPc → Prop
  | .find key v pc => RowAt keys values slotOf i (some (slotOf key)) v ∧ some key ∈ keys ∧
      FindOk shape table key pc
  | .offerMin address v offer => RowAt keys values slotOf i address v ∧
      offer.Ok below (memory.cells address).min v ∧ offer ≠ .done
  | .offerMax address v offer => RowAt keys values slotOf i address v ∧
      below v (memory.cells address).min.current = false ∧
      offer.Ok above (memory.cells address).max v ∧ offer ≠ .done
  | .addCount address => ∃ v, RowAt keys values slotOf i address v ∧
      below v (memory.cells address).min.current = false ∧
      above v (memory.cells address).max.current = false
  | .exited => ∀ address v, RowAt keys values slotOf i address v →
      below v (memory.cells address).min.current = false ∧
      above v (memory.cells address).max.current = false

/-- The values offered in the launch. -/
def offered : List F64 := values.filterMap id

/-- Steps left at most. -/
def MinMaxPc.cost : MinMaxPc → ℕ
  | .find _ _ pc => pc.cost shape.capacity + 2 * (offered values).length + 8
  | .offerMin _ _ offer => offer.cost below (offered values) + (offered values).length + 5
  | .offerMax _ _ offer => offer.cost above (offered values) + 2
  | .addCount _ => 1
  | .exited => 0

end Invariant

/-- A cell as another thread may find it later. -/
def Grown (better : F64 → F64 → Bool) (held held' : Held F64) : Prop :=
  held' = held ∨ ∃ v, held' = held.push v ∧ better v held.current = true

/-- A memory as another thread may find it later. -/
def MemoryGrown (memory memory' : MinMaxMemory) : Prop :=
  ∀ address, Grown below (memory.cells address).min (memory'.cells address).min ∧
    Grown above (memory.cells address).max (memory'.cells address).max

section Steps

variable {shape : TableShape} {keys : Int64Array} {values : Float64Array}
  {table : GroupTable} {slotOf : Int64 → ℕ} {memory memory' : MinMaxMemory} {i : ℕ}
  {pc : MinMaxPc} {better : F64 → F64 → Bool} {held held' : Held F64} {v : F64}
  {address : Option ℕ}

section

variable (h : RowAt keys values slotOf i address v)
include h

theorem RowAt.value_eq {address' : Option ℕ} {v' : F64}
    (h' : RowAt keys values slotOf i address' v') : address = address' ∧ v = v' := by
  obtain ⟨key, hkey, hvalue, rfl⟩ := h
  obtain ⟨key', hkey', hvalue', rfl⟩ := h'
  rw [hkey] at hkey'
  rw [hvalue] at hvalue'
  cases hkey'
  cases hvalue'
  exact ⟨rfl, rfl⟩

theorem RowAt.lt : i < keys.length := by
  obtain ⟨key, hkey, -⟩ := h
  exact (List.getElem?_eq_some_iff.mp hkey).1

theorem RowAt.mem_offered : v ∈ offered values := by
  obtain ⟨-, -, hvalue, -⟩ := h
  exact mem_filterMap.mpr ⟨some v, mem_of_getElem? hvalue, rfl⟩

end

theorem Grown.ok (hstrict : Strict better) (hgrown : Grown better held held')
    (h : offer.Ok better held v) : offer.Ok better held' v := by
  rcases hgrown with rfl | ⟨w, rfl, hbetter⟩
  · exact h
  · exact h.push hstrict hbetter

theorem Grown.over (hstrict : Strict better) (hgrown : Grown better held held')
    (h : better v held.current = false) : better v held'.current = false :=
  hgrown.ok hstrict (show Offer.done.Ok better held v from h)

/-- **A thread relies on nothing that another one changes.** -/
theorem MinMaxThreadOk.grown (hgrown : MemoryGrown memory memory')
    (h : MinMaxThreadOk shape keys values table slotOf memory i pc) :
    MinMaxThreadOk shape keys values table slotOf memory' i pc := by
  cases pc with
  | find key v pc => exact h
  | offerMin address v offer => exact ⟨h.1, (hgrown address).1.ok strict_below h.2.1, h.2.2⟩
  | offerMax address v offer =>
    exact ⟨h.1, (hgrown address).1.over strict_below h.2.1,
      (hgrown address).2.ok strict_above h.2.2.1, h.2.2.2⟩
  | addCount address =>
    obtain ⟨v, hrow, hmin, hmax⟩ := h
    exact ⟨v, hrow, (hgrown address).1.over strict_below hmin,
      (hgrown address).2.over strict_above hmax⟩
  | exited =>
    intro address v hrow
    obtain ⟨hmin, hmax⟩ := h address v hrow
    exact ⟨(hgrown address).1.over strict_below hmin, (hgrown address).2.over strict_above hmax⟩

/-- **One compare-and-swap** on a cell. -/
theorem HeldOk.step {initial : F64} (hstrict : Strict better)
    (h : HeldOk keys values slotOf better initial address held)
    (hrow : RowAt keys values slotOf i address v) (hok : offer.Ok better held v)
    (hnot : offer ≠ .done) (lag : ℕ) :
    HeldOk keys values slotOf better initial address (CasExtremum.step better lag v offer held).2 ∧
    (CasExtremum.step better lag v offer held).1.Ok better
      (CasExtremum.step better lag v offer held).2 v ∧
    Grown better held (CasExtremum.step better lag v offer held).2 ∧
    (CasExtremum.step better lag v offer held).1.cost better (offered values) <
      offer.cost better (offered values) := by
  have hwritten : ∀ w ∈ held.written, w ∈ offered values := by
    intro w hw
    obtain ⟨j, hj⟩ := h.written w hw
    exact hj.mem_offered
  obtain ⟨hok', hcell, hcost⟩ := step_spec hstrict h.sorted hok hwritten lag
  refine ⟨?_, hok', hcell.imp_right fun hpush => ⟨v, hpush⟩, hcost hnot⟩
  rcases hcell with hsame | ⟨hpush, hbetter⟩
  · rw [hsame]
    exact h
  · rw [hpush]
    refine ⟨h.sorted.push hstrict hbetter, h.start, fun w hw => ?_⟩
    rcases mem_cons.mp hw with rfl | hw
    · exact ⟨i, hrow⟩
    · exact h.written w hw

theorem Grown.refl (better : F64 → F64 → Bool) (held : Held F64) :
    Grown better held held := .inl rfl

theorem MemoryOk.set (h : MemoryOk keys values table slotOf memory) {cell : MinMaxCell}
    (hmin : HeldOk keys values slotOf below posInf address cell.min)
    (hmax : HeldOk keys values slotOf above negInf address cell.max) :
    MemoryOk keys values table slotOf (memory.set address cell) where
  tableKept := h.tableKept
  min := fun a => by
    by_cases ha : a = address
    · subst ha
      simpa only [MinMaxMemory.set, update_self] using hmin
    · simpa only [MinMaxMemory.set, update_of_ne ha] using h.min a
  max := fun a => by
    by_cases ha : a = address
    · subst ha
      simpa only [MinMaxMemory.set, update_self] using hmax
    · simpa only [MinMaxMemory.set, update_of_ne ha] using h.max a

theorem MemoryGrown.set {cell : MinMaxCell} (hmin : Grown below (memory.cells address).min cell.min)
    (hmax : Grown above (memory.cells address).max cell.max) :
    MemoryGrown memory (memory.set address cell) := by
  intro a
  by_cases ha : a = address
  · subst ha
    simp only [MinMaxMemory.set, update_self]
    exact ⟨hmin, hmax⟩
  · simp only [MinMaxMemory.set, update_of_ne ha]
    exact ⟨.refl .., .refl ..⟩

theorem MinMaxMemory.set_cells (memory : MinMaxMemory) (address : Option ℕ) (cell : MinMaxCell) :
    (memory.set address cell).cells address = cell :=
  update_self ..

variable (shape keys values table slotOf) in
/-- What a step of thread `i` has to establish. -/
structure StepOk (i : ℕ) (pc : MinMaxPc) (memory : MinMaxMemory) (next : MinMaxPc × MinMaxMemory) :
    Prop where
  memoryOk : MemoryOk keys values table slotOf next.2
  threadOk : MinMaxThreadOk shape keys values table slotOf next.2 i next.1
  grown : MemoryGrown memory next.2
  cost : next.1.cost shape values < pc.cost shape values

/-- An offer to the minimum. -/
theorem offerMin_stepOk (lags : Lags) (hmemory : MemoryOk keys values table slotOf memory)
    (h : MinMaxThreadOk shape keys values table slotOf memory i (.offerMin address v offer)) :
    StepOk shape keys values table slotOf i (.offerMin address v offer) memory
      (minMaxStep shape lags i (.offerMin address v offer) memory) := by
  obtain ⟨hrow, hok, hnot⟩ := h
  obtain ⟨hheld, hok', hgrown, hcost⟩ :=
    (hmemory.min address).step strict_below hrow hok hnot (lags.min i)
  refine ⟨hmemory.set hheld (hmemory.max address), ?_, .set hgrown (.refl ..), ?_⟩
  · rw [minMaxStep]
    revert hok'
    cases (CasExtremum.step below (lags.min i) v offer (memory.cells address).min).1 with
    | done =>
      intro hover
      refine ⟨hrow, ?_, trivial, nofun⟩
      rw [MinMaxMemory.set_cells]
      exact hover
    | load => exact fun _ => ⟨hrow, trivial, nofun⟩
    | cas assumed =>
      intro hok'
      refine ⟨hrow, ?_, nofun⟩
      rw [MinMaxMemory.set_cells]
      exact hok'
  · rw [minMaxStep]
    revert hcost
    cases (CasExtremum.step below (lags.min i) v offer (memory.cells address).min).1 with
    | done =>
      intro _
      simp only [MinMaxPc.afterMin, MinMaxPc.cost, Offer.cost]
      omega
    | load | cas assumed =>
      intro hcost
      simp only [MinMaxPc.afterMin, MinMaxPc.cost]
      omega

/-- An offer to the maximum. -/
theorem offerMax_stepOk (lags : Lags) (hmemory : MemoryOk keys values table slotOf memory)
    (h : MinMaxThreadOk shape keys values table slotOf memory i (.offerMax address v offer)) :
    StepOk shape keys values table slotOf i (.offerMax address v offer) memory
      (minMaxStep shape lags i (.offerMax address v offer) memory) := by
  obtain ⟨hrow, hover, hok, hnot⟩ := h
  obtain ⟨hheld, hok', hgrown, hcost⟩ :=
    (hmemory.max address).step strict_above hrow hok hnot (lags.max i)
  refine ⟨hmemory.set (hmemory.min address) hheld, ?_, .set (.refl ..) hgrown, ?_⟩
  · rw [minMaxStep]
    revert hok'
    cases (CasExtremum.step above (lags.max i) v offer (memory.cells address).max).1 with
    | done =>
      intro hok'
      refine ⟨v, hrow, ?_⟩
      rw [MinMaxMemory.set_cells]
      exact ⟨hover, hok'⟩
    | load =>
      intro _
      refine ⟨hrow, ?_, trivial, nofun⟩
      rw [MinMaxMemory.set_cells]
      exact hover
    | cas assumed =>
      intro hok'
      refine ⟨hrow, ?_, ?_, nofun⟩ <;> rw [MinMaxMemory.set_cells]
      · exact hover
      · exact hok'
  · rw [minMaxStep]
    revert hcost
    cases (CasExtremum.step above (lags.max i) v offer (memory.cells address).max).1 with
    | done =>
      intro _
      simp only [MinMaxPc.afterMax, MinMaxPc.cost]
      omega
    | load | cas assumed =>
      intro hcost
      simp only [MinMaxPc.afterMax, MinMaxPc.cost]
      omega

/-- A step of the walk. -/
theorem find_stepOk (hindex : Indexes shape keys table) (hlocates : Locates keys table slotOf)
    (lags : Lags) (hmemory : MemoryOk keys values table slotOf memory) {key : Int64} {pc : SlotPc}
    (h : MinMaxThreadOk shape keys values table slotOf memory i (.find key v pc)) :
    StepOk shape keys values table slotOf i (.find key v pc) memory
      (minMaxStep shape lags i (.find key v pc) memory) := by
  obtain ⟨hrow, hkey, hpc⟩ := h
  obtain ⟨htable, hnext⟩ := slotStep_finds hindex hkey hpc
  have hsame : ({ memory with table := (slotStep shape false key pc memory.table).2 } :
      MinMaxMemory) = memory := by
    rw [hmemory.tableKept, htable, ← hmemory.tableKept]
  have hrefl : MemoryGrown memory memory := fun _ => ⟨.refl .., .refl ..⟩
  unfold minMaxStep
  simp only [hsame]
  rw [hmemory.tableKept]
  rcases hnext with ⟨slot, hslot, hstate, hfound⟩ | ⟨hnot, hfind, hcost⟩
  · -- the slot found is the slot of the key: no other is published with it
    obtain ⟨hstate', hfound'⟩ := hlocates key hkey
    have heq := hindex.unique slot (slotOf key) hstate hstate' (hfound.trans hfound'.symm)
    rw [hslot, heq]
    refine ⟨hmemory, ⟨hrow, trivial, nofun⟩, hrefl, ?_⟩
    simp only [MinMaxPc.cost, Offer.cost]
    omega
  · split
    · next hresult => exact absurd hresult (hnot _)
    · next hresult => exact absurd hresult (hnot _)
    · refine ⟨hmemory, ⟨hrow, hkey, hfind⟩, hrefl, ?_⟩
      simp only [MinMaxPc.cost]
      omega

/-- The count of a row. -/
theorem addCount_stepOk (lags : Lags) (hmemory : MemoryOk keys values table slotOf memory)
    (h : MinMaxThreadOk shape keys values table slotOf memory i (.addCount address)) :
    StepOk shape keys values table slotOf i (.addCount address) memory
      (minMaxStep shape lags i (.addCount address) memory) := by
  obtain ⟨v, hrow, hmin, hmax⟩ := h
  refine ⟨hmemory.set (hmemory.min address) (hmemory.max address), fun address' v' hrow' => ?_,
    .set (.refl ..) (.refl ..), Nat.one_pos⟩
  obtain ⟨rfl, rfl⟩ := hrow.value_eq hrow'
  rw [minMaxStep]
  rw [MinMaxMemory.set_cells]
  exact ⟨hmin, hmax⟩

/-- **What one step does**: nothing, in a thread that has returned, or all of `StepOk`. -/
theorem minMaxStep_spec (hindex : Indexes shape keys table) (hlocates : Locates keys table slotOf)
    (lags : Lags) (hmemory : MemoryOk keys values table slotOf memory)
    (h : MinMaxThreadOk shape keys values table slotOf memory i pc) :
    pc = .exited ∨ StepOk shape keys values table slotOf i pc memory
      (minMaxStep shape lags i pc memory) := by
  cases pc with
  | find key v pc => exact .inr (find_stepOk hindex hlocates lags hmemory h)
  | offerMin address v offer => exact .inr (offerMin_stepOk lags hmemory h)
  | offerMax address v offer => exact .inr (offerMax_stepOk lags hmemory h)
  | addCount address => exact .inr (addCount_stepOk lags hmemory h)
  | exited => exact .inl rfl

end Steps

/-! ## Whole launches -/

section Launch

variable {shape : TableShape} {keys : Int64Array} {values : Float64Array}
  {table : GroupTable} {slotOf : Int64 → ℕ} {c : Config ℕ MinMaxMemory MinMaxPc} {lags : Lags}

variable (shape keys values table slotOf) in
/-- **The invariant of the kernel.** -/
structure MinMaxInv (c : Config ℕ MinMaxMemory MinMaxPc) : Prop where
  memory : MemoryOk keys values table slotOf c.memory
  thread : ∀ i, MinMaxThreadOk shape keys values table slotOf c.memory i (c.thread i)
  idle : ∀ i, keys.length ≤ i → c.thread i = .exited

theorem MinMaxInv.launch (shape : TableShape) (keys : Int64Array)
    (values : Float64Array) (table : GroupTable) (slotOf : Int64 → ℕ) :
    MinMaxInv shape keys values table slotOf (minMaxLaunch shape table keys values) where
  memory := {
    tableKept := rfl
    min := fun _ => ⟨Held.sorted_fresh .., rfl, nofun⟩
    max := fun _ => ⟨Held.sorted_fresh .., rfl, nofun⟩ }
  thread := by
    intro i
    show MinMaxThreadOk _ _ _ _ _ _ i (minMaxThread shape keys values i)
    unfold minMaxThread
    split
    · next v hv =>
      split
      · next key hkey =>
        exact ⟨⟨some key, hkey, hv, rfl⟩, mem_of_getElem? hkey, walks_start shape table _⟩
      · next hkey => exact ⟨⟨none, hkey, hv, rfl⟩, trivial, nofun⟩
      · next hkey =>
        rintro address v' ⟨key, hkey', -⟩
        rw [hkey] at hkey'
        cases hkey'
    · next hv =>
      rintro address v ⟨key, -, hv', -⟩
      exact absurd hv' (hv v)
  idle := by
    intro i hi
    show minMaxThread shape keys values i = _
    unfold minMaxThread
    rw [getElem?_eq_none hi]
    split <;> rfl

/-- **Every step keeps the invariant.** -/
theorem MinMaxInv.step (hindex : Indexes shape keys table) (hlocates : Locates keys table slotOf)
    (lags : Lags) (c : Config ℕ MinMaxMemory MinMaxPc) (i : ℕ)
    (h : MinMaxInv shape keys values table slotOf c) :
    MinMaxInv shape keys values table slotOf (stepAt (minMaxStep shape lags) c i) := by
  rcases minMaxStep_spec hindex hlocates lags h.memory (h.thread i) with hexited | hok
  · rw [stepAt_eq_self (by rw [hexited, minMaxStep])]
    exact h
  · refine ⟨hok.memoryOk, stepAt_relies ?_ (fun j pc hj => hj.grown hok.grown) h.thread, ?_⟩
    · rw [stepAt_thread_self]
      exact hok.threadOk
    · intro j hj
      by_cases hji : j = i
      · have hidle := h.idle i (hji ▸ hj)
        rw [hji, stepAt_eq_self (by rw [hidle, minMaxStep])]
        exact hidle
      · rw [stepAt_thread_of_ne hji]
        exact h.idle j hj

/-- A step is paid for by its thread, failed swaps included. -/
theorem minMaxStep_cost (hindex : Indexes shape keys table) (hlocates : Locates keys table slotOf)
    (lags : Lags) (i : ℕ) (h : MinMaxInv shape keys values table slotOf c) :
    stepAt (minMaxStep shape lags) c i = c ∧ (c.thread i).finished = true ∨
      i ∈ Finset.range keys.length ∧
        ((stepAt (minMaxStep shape lags) c i).thread i).cost shape values <
          (c.thread i).cost shape values := by
  rcases minMaxStep_spec hindex hlocates lags h.memory (h.thread i) with hexited | hok
  · exact .inl ⟨stepAt_eq_self (by rw [hexited, minMaxStep]), by rw [hexited]; rfl⟩
  · refine .inr ⟨Finset.mem_range.mpr ?_, by rw [stepAt_thread_self]; exact hok.cost⟩
    by_contra hi
    have hcost := hok.cost
    rw [h.idle i (not_lt.mp hi)] at hcost
    exact Nat.not_lt_zero _ hcost

/-- **The kernel terminates** on a finished table under every fair schedule. -/
theorem minMax_terminates (hindex : Indexes shape keys table) (values : Float64Array)
    (lags : Lags) {schedule : ℕ → ℕ} (hfair : Fair (Finset.range keys.length) schedule) :
    ∃ t, MinMaxFinished keys (run (minMaxStep shape lags) (minMaxLaunch shape table keys values)
      (upTo schedule t)) := by
  obtain ⟨slotOf, hlocates⟩ := hindex.locates
  obtain ⟨t, ht⟩ := returns_of_fair (MinMaxPc.cost shape values) MinMaxPc.finished
    (fun c i h => MinMaxInv.step hindex hlocates lags c i h)
    (fun c i h => minMaxStep_cost hindex hlocates lags i h) hfair
    (MinMaxInv.launch shape keys values table slotOf)
  exact ⟨t, fun i hi => ht i (Finset.mem_range.mpr hi)⟩

theorem MinMaxInv.over (h : MinMaxInv shape keys values table slotOf c)
    (hfinished : MinMaxFinished keys c) {i : ℕ} {address : Option ℕ} {v : F64}
    (hrow : RowAt keys values slotOf i address v) :
    below v (c.memory.cells address).min.current = false ∧
      above v (c.memory.cells address).max.current = false := by
  have hdone := hfinished i hrow.lt
  have hthread := h.thread i
  cases hi : c.thread i with
  | exited =>
    rw [hi] at hthread
    exact hthread address v hrow
  | _ =>
    rw [hi] at hdone
    cases hdone

end Launch

/-! ## The extremes of a group -/

/-- The values that are not `NULL` of the rows of `rows` that have a key. -/
def groupValues (keys : Int64Array) (values : Float64Array) (key : Option Int64)
    (rows : List ℕ) : List F64 :=
  (rows.filter fun row => (keys[row]?).join = key).filterMap fun row => (values[row]?).join

/-- **The extreme of some values**: a number among them that none of them is better than, or the
initial infinity where there is no number among them. -/
structure IsExtreme (better : F64 → F64 → Bool) (initial : F64) (vs : List F64) (x : F64) :
    Prop where
  best : ∀ v ∈ vs, better v x = false
  held : x ∈ vs ∧ isNaN x = false ∨ x = initial ∧ ∀ v ∈ vs, isNaN v = true

/-- A test of the IEEE order, in one direction or the other, and the infinity that every other
number beats. -/
structure Extremal (better : F64 → F64 → Bool) (initial : F64) : Prop extends Strict better where
  notNaN : ∀ {a b}, better a b = true → isNaN a = false
  cotrans : ∀ {a b c}, isNaN b = false → better a b = false → better b c = false →
    better a c = false
  equal : ∀ {a b}, isNaN a = false → isNaN b = false → better a b = false → better b a = false →
    ieeeEq a b = true
  initial_notNaN : isNaN initial = false
  initial_worst : ∀ {a}, isNaN a = false → better a initial = false → a = initial

theorem extremal_below : Extremal below posInf where
  toStrict := strict_below
  notNaN h := (isNaN_of_ieeeLt h).1
  cotrans hb hab hbc := by
    refine Bool.of_not_eq_true fun hac => ?_
    rw [below, ieeeLt_cotrans hac hb hab] at hbc
    cases hbc
  equal ha hb hab hba := ieeeEq_of_not_lt ha hb hab hba
  initial_notNaN := by decide
  initial_worst := eq_posInf

theorem extremal_above : Extremal above negInf where
  toStrict := strict_above
  notNaN h := (isNaN_of_ieeeLt h).2
  cotrans hb hab hbc := by
    refine Bool.of_not_eq_true fun hac => ?_
    rw [above, ieeeLt_cotrans hac hb hbc] at hab
    cases hab
  equal ha hb hab hba := ieeeEq_of_not_lt ha hb hba hab
  initial_notNaN := by decide
  initial_worst := eq_negInf

section Extreme

variable {better : F64 → F64 → Bool} {initial x y v : F64} {vs : List F64}

theorem IsExtreme.notNaN (hextremal : Extremal better initial)
    (h : IsExtreme better initial vs x) : isNaN x = false := by
  rcases h.held with ⟨-, hx⟩ | ⟨rfl, -⟩
  · exact hx
  · exact hextremal.initial_notNaN

theorem IsExtreme.not_better (hextremal : Extremal better initial)
    (hx : IsExtreme better initial vs x) (hy : IsExtreme better initial vs y) :
    better x y = false := by
  rcases hx.held with ⟨hmem, -⟩ | ⟨rfl, hnan⟩
  · exact hy.best x hmem
  · rcases hy.held with ⟨hmem, hy'⟩ | ⟨rfl, -⟩
    · rw [hnan y hmem] at hy'
      cases hy'
    · exact hextremal.irrefl _

theorem IsExtreme.ieeeEq (hextremal : Extremal better initial)
    (hx : IsExtreme better initial vs x) (hy : IsExtreme better initial vs y) :
    ieeeEq x y = true :=
  hextremal.equal (hx.notNaN hextremal) (hy.notNaN hextremal) (hx.not_better hextremal hy)
    (hy.not_better hextremal hx)

/-- An operation that keeps the better of two numbers and ignores a NaN. -/
structure KeepsBetter (better : F64 → F64 → Bool) (f : F64 → F64 → F64) : Prop where
  ignores : ∀ {a v}, isNaN a = false → isNaN v = true → f a v = a
  number : ∀ {a v}, isNaN a = false → isNaN v = false →
    (f a v = a ∨ f a v = v) ∧ better a (f a v) = false ∧ better v (f a v) = false

theorem IsExtreme.snoc (hextremal : Extremal better initial) {f : F64 → F64 → F64}
    (hf : KeepsBetter better f) (h : IsExtreme better initial vs x) (v : F64) :
    IsExtreme better initial (vs ++ [v]) (f x v) := by
  have hx := h.notNaN hextremal
  cases hv : isNaN v with
  | true =>
    rw [hf.ignores hx hv]
    refine ⟨fun w hw => ?_, ?_⟩
    · rcases mem_append.mp hw with hw | hw
      · exact h.best w hw
      · rw [mem_singleton.mp hw]
        refine Bool.of_not_eq_true fun hbetter => ?_
        rw [hextremal.notNaN hbetter] at hv
        cases hv
    · refine h.held.imp (fun hheld => ⟨mem_append_left _ hheld.1, hheld.2⟩)
        fun hheld => ⟨hheld.1, fun w hw => ?_⟩
      rcases mem_append.mp hw with hw | hw
      · exact hheld.2 w hw
      · rw [mem_singleton.mp hw, hv]
  | false =>
    obtain ⟨heither, hbestx, hbestv⟩ := hf.number hx hv
    refine ⟨fun w hw => ?_, .inl ?_⟩
    · rcases mem_append.mp hw with hw | hw
      · exact hextremal.cotrans hx (h.best w hw) hbestx
      · rw [mem_singleton.mp hw]
        exact hbestv
    · rcases heither with hfx | hfv
      · rw [hfx] at hbestv ⊢
        refine ⟨?_, hx⟩
        rcases h.held with ⟨hmem, -⟩ | ⟨rfl, -⟩
        · exact mem_append_left _ hmem
        · -- the infinity is kept only if it is what is offered
          rw [hextremal.initial_worst hv hbestv]
          exact mem_append_right _ (mem_singleton_self _)
      · rw [hfv]
        exact ⟨mem_append_right _ (mem_singleton_self _), hv⟩

/-- **What a cell holds in the end** is the extreme of the values offered to it. -/
theorem isExtreme_current (hextremal : Extremal better initial) {held : Held F64}
    (hsorted : held.Sorted better) (hstart : held.initial = initial)
    (hwritten : ∀ w ∈ held.written, w ∈ vs) (hbest : ∀ v ∈ vs, better v held.current = false) :
    IsExtreme better initial vs held.current := by
  refine ⟨hbest, ?_⟩
  rcases hsorted.current_better held.initial_mem with hsame | hbetter
  · rw [hstart] at hsame
    rw [← hsame] at hbest ⊢
    by_cases hnan : ∀ v ∈ vs, isNaN v = true
    · exact .inr ⟨rfl, hnan⟩
    · obtain ⟨v, hnot⟩ := not_forall.mp hnan
      obtain ⟨hmem, hv⟩ := Classical.not_imp.mp hnot
      have hv := Bool.of_not_eq_true hv
      have heq := hextremal.initial_worst hv (hbest v hmem)
      rw [← heq]
      exact .inl ⟨hmem, hv⟩
  · refine .inl ⟨hwritten _ ?_, hextremal.notNaN hbetter⟩
    refine held.current_mem_written held.initial_mem fun heq => ?_
    rw [heq, hextremal.irrefl] at hbetter
    cases hbetter

end Extreme

/-! ## The two sides -/

/-- What is assumed of `f64::min` and `f64::max`: they ignore a NaN operand. -/
structure IgnoresNaN (fpu : FloatUnit) : Prop where
  min : KeepsBetter below fpu.minF64
  max : KeepsBetter above fpu.maxF64

section Sides

variable {shape : TableShape} {keys : Int64Array} {values : Float64Array}
  {table : GroupTable} {slotOf : Int64 → ℕ} {c : Config ℕ MinMaxMemory MinMaxPc} {lags : Lags}

theorem groupValues_range_succ (keys : Int64Array) (values : Float64Array)
    (key : Option Int64) (n : ℕ) :
    groupValues keys values key (range (n + 1)) =
      groupValues keys values key (range n) ++
        if (keys[n]?).join = key then ((values[n]?).join).toList else [] := by
  rw [groupValues, range_succ, filter_append, filterMap_append]
  congr 1
  by_cases h : (keys[n]?).join = key
  · rw [if_pos h, filter_cons_of_pos (by simpa using h)]
    cases hv : (values[n]?).join with
    | none => exact filterMap_cons_none hv
    | some v => exact filterMap_cons_some hv
  · rw [if_neg h, filter_cons_of_neg (by simpa using h)]
    rfl

/-- **The reference's fold** leaves the extremes of the group. -/
theorem accOver_extremes {fpu : FloatUnit} (hfpu : IgnoresNaN fpu) (keys : Int64Array)
    (values : Float64Array) (key : Option Int64) (n : ℕ) :
    ∃ count sum lo hi,
      Kernels.accOver fpu keys key (.f values) (range n) = .f64 count sum lo hi ∧
      IsExtreme below posInf (groupValues keys values key (range n)) lo ∧
      IsExtreme above negInf (groupValues keys values key (range n)) hi := by
  induction n with
  | zero =>
    exact ⟨0, 0#64, posInf, negInf, rfl, ⟨nofun, .inr ⟨rfl, nofun⟩⟩,
      ⟨nofun, .inr ⟨rfl, nofun⟩⟩⟩
  | succ n ih =>
    obtain ⟨count, sum, lo, hi, hacc, hlo, hhi⟩ := ih
    rw [Kernels.accOver_range_succ, groupValues_range_succ, hacc]
    split
    · rw [Input.accumulate]
      cases hv : (values[n]?).join with
      | none => exact ⟨count, sum, lo, hi, rfl, by simpa using hlo, by simpa using hhi⟩
      | some v =>
        exact ⟨_, _, _, _, rfl, hlo.snoc extremal_below hfpu.min v,
          hhi.snoc extremal_above hfpu.max v⟩
    · exact ⟨count, sum, lo, hi, rfl, by simpa using hlo, by simpa using hhi⟩

theorem mem_groupValues (hlocates : Locates keys table slotOf) {key : Option Int64}
    (hkey : key ∈ keys) {v : F64} :
    v ∈ groupValues keys values key (List.range keys.length) ↔
      ∃ i, RowAt keys values slotOf i (key.map slotOf) v := by
  simp only [groupValues, List.mem_filterMap, mem_filter, mem_range,
    decide_eq_true_iff, Option.join_eq_some_iff]
  constructor
  · rintro ⟨row, ⟨hrow, hjoin⟩, hv⟩
    refine ⟨row, key, ?_, hv, rfl⟩
    rw [getElem?_eq_getElem hrow] at hjoin ⊢
    exact congrArg some hjoin
  · rintro ⟨i, key', hkey', hv, haddress⟩
    have heq := hlocates.address_inj hkey (List.mem_of_getElem? hkey') haddress
    refine ⟨i, ⟨(List.getElem?_eq_some_iff.mp hkey').1, ?_⟩, hv⟩
    rw [hkey', heq]
    rfl

/-- **A finished launch** leaves the extremes of every group. -/
theorem MinMaxInv.extremes (h : MinMaxInv shape keys values table slotOf c)
    (hlocates : Locates keys table slotOf) (hfinished : MinMaxFinished keys c)
    {key : Option Int64} (hkey : key ∈ keys) :
    IsExtreme below posInf (groupValues keys values key (range keys.length))
        (c.memory.cells (key.map slotOf)).min.current ∧
      IsExtreme above negInf (groupValues keys values key (range keys.length))
        (c.memory.cells (key.map slotOf)).max.current := by
  have hmin := h.memory.min (key.map slotOf)
  have hmax := h.memory.max (key.map slotOf)
  constructor
  · refine isExtreme_current extremal_below hmin.sorted hmin.start
      (fun w hw => (mem_groupValues hlocates hkey).mpr (hmin.written w hw)) fun v hv => ?_
    obtain ⟨i, hrow⟩ := (mem_groupValues hlocates hkey).mp hv
    exact (h.over hfinished hrow).1
  · refine isExtreme_current extremal_above hmax.sorted hmax.start
      (fun w hw => (mem_groupValues hlocates hkey).mpr (hmax.written w hw)) fun v hv => ?_
    obtain ⟨i, hrow⟩ := (mem_groupValues hlocates hkey).mp hv
    exact (h.over hfinished hrow).2

end Sides

/-- The configuration after the steps of a schedule, over the table an insert launch left. -/
def minMaxRun (hash : TableHash) (keys : Int64Array) (values : Float64Array)
    (insertion : List ℕ) (lags : Lags) (schedule : List ℕ) : Config ℕ MinMaxMemory MinMaxPc :=
  let shape := TableShape.ofRows hash keys.length
  run (minMaxStep shape lags)
    (minMaxLaunch shape (inserted shape keys insertion).table keys values) schedule

/-- **`MIN` and `MAX` of floats are right under every schedule and stale first loads.**  After
an insert launch that has ended, every fair schedule ends the launch of
`oxide_agg_minmax_f64`.  However the steps of its threads came one after another, and whatever
the plain loads returned of what their cells had held, each group of the reference is in the
output and its cells hold the extremes of its values: numerically what the reference folds. -/
theorem minmax_f64_extremes {fpu : FloatUnit} (hfpu : IgnoresNaN fpu) (hash : TableHash)
    (keys : Int64Array) (values : Float64Array) {insertion : List ℕ}
    (hinserted : InsertFinished keys (run (insertStep (.ofRows hash keys.length))
      (insertLaunch (.ofRows hash keys.length) keys) insertion)) (lags : Lags) :
    (∀ schedule, Fair (Finset.range keys.length) schedule →
      ∃ t, MinMaxFinished keys (minMaxRun hash keys values insertion lags (upTo schedule t))) ∧
    ∀ schedule, MinMaxFinished keys (minMaxRun hash keys values insertion lags schedule) →
      ∀ key accs, (key, accs) ∈ Kernels.groupRows fpu [.f values] keys →
        ∃ address count sum lo hi, accs = [.f64 count sum lo hi] ∧
          let shape := TableShape.ofRows hash keys.length
          let memory := inserted shape keys insertion
          let cell := (minMaxRun hash keys values insertion lags schedule).memory.cells address
          let vs := groupValues keys values key (range keys.length)
          (key, address) ∈ (outputKeys shape memory).zip (outputAddresses shape memory) ∧
          (IsExtreme below posInf vs cell.min.current ∧ ieeeEq cell.min.current lo = true) ∧
          (IsExtreme above negInf vs cell.max.current ∧ ieeeEq cell.max.current hi = true) := by
  have hroom : 2 * keys.length ≤ (TableShape.ofRows hash keys.length).capacity :=
    two_mul_le_two_pow_tableBits _
  obtain ⟨hindex, hflag⟩ := inserted_indexes hroom hinserted
  obtain ⟨slotOf, hlocates⟩ := hindex.locates
  refine ⟨fun schedule hfair => minMax_terminates hindex values lags hfair,
    fun schedule hfinished key accs hgroup => ?_⟩
  have hkey : key ∈ keys :=
    ((Kernels.groupRows_keys fpu [.f values] keys).2 key).mp (mem_map.mpr ⟨_, hgroup, rfl⟩)
  have hinv := run_invariant (MinMaxInv.step hindex hlocates lags)
    (MinMaxInv.launch _ keys values _ slotOf) schedule
  obtain ⟨hmin, hmax⟩ := hinv.extremes hlocates hfinished hkey
  obtain ⟨count, sum, lo, hi, hacc, hlo, hhi⟩ :=
    accOver_extremes hfpu keys values key keys.length
  have haccs := Kernels.groupLoop_accs fpu [.f values] keys keys.length _ hgroup
  refine ⟨key.map slotOf, count, sum, lo, hi, ?_, ?_, ⟨hmin, hmin.ieeeEq extremal_below hlo⟩,
    ⟨hmax, hmax.ieeeEq extremal_above hhi⟩⟩
  · rw [show accs = _ from haccs, map_singleton, hacc]
  · obtain ⟨g, hg⟩ := mem_iff_getElem?.mp ((mem_outputKeys hindex hflag).mpr hkey)
    rw [outputAddresses_eq hindex hlocates, mem_iff_getElem?]
    refine ⟨g, getElem?_zip_eq_some.mpr ⟨hg, ?_⟩⟩
    rw [getElem?_map, hg]
    rfl

/-- Comparisons that ignore a NaN operand. -/
def comparingUnit : FloatUnit where
  addF64 := fun a _ => a
  minF64 := fun a v => if ieeeLt v a then v else a
  maxF64 := fun a v => if ieeeLt a v then v else a
  l2 := fun _ _ => 0
  cosine := fun _ _ => 0

theorem Extremal.keepsBetter {better : F64 → F64 → Bool} {initial : F64}
    (h : Extremal better initial) :
    KeepsBetter better fun a v => if better v a then v else a where
  ignores := by
    intro a v _ hv
    refine if_neg fun hbetter => ?_
    rw [h.notNaN hbetter] at hv
    cases hv
  number := by
    intro a v _ _
    split
    · next hbetter =>
      refine ⟨.inr rfl, Bool.of_not_eq_true fun hback => ?_, h.irrefl v⟩
      have hself := h.trans hbetter hback
      rw [h.irrefl] at hself
      cases hself
    · next hnot => exact ⟨.inl rfl, h.irrefl a, Bool.of_not_eq_true hnot⟩

theorem comparingUnit_ignoresNaN : IgnoresNaN comparingUnit :=
  ⟨extremal_below.keepsBetter, extremal_above.keepsBetter⟩

/-- The amounts 2, NaN and 1 of the regions of `sales`. -/
def floatAmounts : Float64Array :=
  [some 0x4000000000000000#64, some 0x7FF8000000000000#64, some 0x3FF0000000000000#64]

/-- A launch in which every thread loads the oldest value of its cells. -/
def staleRun : Config ℕ MinMaxMemory MinMaxPc :=
  minMaxRun oxideHash [some 7, none, some 7] floatAmounts racingDevice.insert
    ⟨fun _ => 3, fun _ => 3⟩ (replicate 12 [2, 0, 1]).flatten

theorem minmax_f64_extremes_floatAmounts :
    MinMaxFinished [some 7, none, some 7] staleRun ∧
      ∃ address, IsExtreme below posInf [0x4000000000000000#64, 0x3FF0000000000000#64]
        (staleRun.memory.cells address).min.current := by
  have hfinished : MinMaxFinished [some 7, none, some 7] staleRun := by decide
  refine ⟨hfinished, ?_⟩
  obtain ⟨-, hlaunches⟩ := minmax_f64_extremes comparingUnit_ignoresNaN oxideHash
    [some 7, none, some 7] floatAmounts (show InsertFinished _ (run _ _ racingDevice.insert) by
      decide) ⟨fun _ => 3, fun _ => 3⟩
  obtain ⟨accs, hgroup⟩ : ∃ accs, (some (7 : Int64), accs) ∈
      Kernels.groupRows comparingUnit [.f floatAmounts] [some 7, none, some 7] := by
    obtain ⟨group, hgroup, hkey⟩ := mem_map.mp
      (((Kernels.groupRows_keys comparingUnit [.f floatAmounts] [some 7, none, some 7]).2
        (some 7)).mpr mem_cons_self)
    exact ⟨group.2, hkey ▸ hgroup⟩
  obtain ⟨address, -, -, -, -, -, -, ⟨hmin, -⟩, -⟩ := hlaunches _ hfinished _ _ hgroup
  exact ⟨address, hmin⟩

end Cuda

end OxideLake
