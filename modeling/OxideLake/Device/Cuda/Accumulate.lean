import OxideLake.Core.Params
import OxideLake.Device.Cuda.GroupTable

/-!
# Atomic reductions into the group table

The second pass of the aggregation: `oxide_agg_count`, `oxide_agg_sum_i64` and
`oxide_agg_minmax_i64` run one thread a row.  A thread looks its key up in the
finished table and then applies its atomic operations, one at a time, to the
accumulators of the slot it found; a `NULL` key goes to accumulators of its own.

The table no longer changes, so a lookup returns the slot of its key
(`lookup_returns`).  The atomic operations commute, so the accumulators of a finished
run are the fold of every row's operations in row order, whatever the interleaving
(`accumulate_cells`).
-/

namespace OxideLake

namespace Cuda

open Probing Interleaving Function Finset

/-! ## Looking a key up -/

/-- What a thread that looks `key` up knows of the finished table. -/
def FindOk (shape : TableShape) (table : GroupTable) (key : Int64) : SlotPc → Prop
  | .load slot probes => Walks shape table key slot probes
  | .loadKey slot probes => Walks shape table key slot probes ∧ table.state slot = .published
  | .returned (some slot) => table.state slot = .published ∧ table.keys slot = key
  | _ => False

section Find

variable {shape : TableShape} {keys : Int64Array} {table : GroupTable} {key : Int64}
  {pc : SlotPc}

theorem Walks.published (hindex : Indexes shape keys table) (hkey : some key ∈ keys)
    {slot probes : ℕ} (h : Walks shape table key slot probes) :
    table.state slot = .published := by
  by_contra hstate
  obtain ⟨found, probes', hfound, hfoundKey, hwalks⟩ := hindex.found key hkey
  have heq := h.unique hwalks (fun hother => hstate hother.1) fun hother => hother.2 hfoundKey
  exact hstate (heq ▸ hfound)

/-- **One step of a lookup**: the table is only read, and the thread has returned or
gets closer to the slot of its key. -/
theorem slotStep_find (hindex : Indexes shape keys table) (hkey : some key ∈ keys)
    (hpc : FindOk shape table key pc) :
    (slotStep shape false key pc table).2 = table ∧
      FindOk shape table key (slotStep shape false key pc table).1 ∧
      ((∃ slot, pc = .returned (some slot)) ∨
        (slotStep shape false key pc table).1.cost shape.capacity < pc.cost shape.capacity) := by
  cases pc with
  | load slot probes =>
    rw [slotStep, Walks.published hindex hkey hpc]
    exact ⟨rfl, ⟨hpc, Walks.published hindex hkey hpc⟩, .inr (by simp [SlotPc.cost])⟩
  | loadKey slot probes =>
    obtain ⟨hwalks, hpublished⟩ := hpc
    have hinside := hwalks.inside
    rw [slotStep]
    split
    · next hfound =>
      exact ⟨rfl, ⟨hpublished, hfound⟩, .inr (by simp only [SlotPc.cost]; omega)⟩
    · next hfound =>
      have hpassed : Passed (Other table key) shape.capacity (shape.hash key) (probes + 1) := by
        refine passed_succ.mpr ⟨hwalks.passed, ?_⟩
        show Other table key (shape.slotAt key probes)
        rw [← hwalks.position]
        exact ⟨hpublished, hfound⟩
      -- the slot of the key is not behind, so there is one ahead
      have hnext : probes + 1 < shape.capacity := by
        by_contra hend
        have hall : probes + 1 = shape.capacity := by omega
        obtain ⟨found, -, hstate, hfoundKey, -⟩ := hindex.found key hkey
        exact ((hall ▸ hpassed).all (shape.hash_lt key) (hindex.mem found hstate).1).2 hfoundKey
      rw [if_pos hnext]
      refine ⟨rfl, ⟨hnext, ?_, hpassed⟩, .inr ?_⟩
      · rw [hwalks.position, shape.next_slotAt]
      · simp only [SlotPc.cost]
        omega
  | returned result =>
    cases result with
    | none => exact hpc.elim
    | some slot => exact ⟨rfl, hpc, .inl ⟨slot, rfl⟩⟩
  | cas | storeKey | publish | spin => exact hpc.elim

/-- A walk over a finished table finds its key. -/
theorem slotStep_finds (hindex : Indexes shape keys table) (hkey : some key ∈ keys)
    (hpc : FindOk shape table key pc) :
    (slotStep shape false key pc table).2 = table ∧
      ((∃ slot, (slotStep shape false key pc table).1 = .returned (some slot) ∧
          table.state slot = .published ∧ table.keys slot = key) ∨
        (∀ result, (slotStep shape false key pc table).1 ≠ .returned result) ∧
          FindOk shape table key (slotStep shape false key pc table).1 ∧
          (slotStep shape false key pc table).1.cost shape.capacity < pc.cost shape.capacity) := by
  obtain ⟨htable, hnext, hdone⟩ := slotStep_find hindex hkey hpc
  refine ⟨htable, ?_⟩
  by_cases hreturned : ∃ result, (slotStep shape false key pc table).1 = .returned result
  · obtain ⟨result, hresult⟩ := hreturned
    rw [hresult] at hnext
    cases result with
    | none => exact hnext.elim
    | some slot => exact .inl ⟨slot, hresult, hnext⟩
  · refine .inr ⟨fun result hresult => hreturned ⟨result, hresult⟩, hnext, hdone.resolve_left ?_⟩
    rintro ⟨slot, rfl⟩
    exact hreturned ⟨some slot, rfl⟩

/-- `m` steps of a lookup of `key` from its home slot. -/
def lookup (shape : TableShape) (table : GroupTable) (key : Int64) (m : ℕ) : SlotPc × GroupTable :=
  (fun at' : SlotPc × GroupTable => slotStep shape false key at'.1 at'.2)^[m]
    (.load (shape.hash key) 0, table)

/-- Every published slot is found. -/
theorem lookup_returns (hindex : Indexes shape keys table) {slot : ℕ}
    (hslot : table.state slot = .published) :
    ∃ m, lookup shape table (table.keys slot) m = (.returned (some slot), table) := by
  obtain ⟨-, hkey⟩ := hindex.mem slot hslot
  suffices h : ∀ n pc, pc.cost shape.capacity = n → FindOk shape table (table.keys slot) pc →
      ∃ m, (fun at' : SlotPc × GroupTable =>
          slotStep shape false (table.keys slot) at'.1 at'.2)^[m] (pc, table) =
        (.returned (some slot), table) from
    h _ _ rfl (walks_start shape table _)
  intro n
  induction n using Nat.strong_induction_on with
  | _ n ih =>
    intro pc hn hpc
    obtain ⟨htable, hnext, hdone | hlt⟩ := slotStep_find hindex hkey hpc
    · obtain ⟨found, rfl⟩ := hdone
      exact ⟨0, by rw [hindex.unique found slot hpc.1 hslot hpc.2]; rfl⟩
    · obtain ⟨m, hm⟩ := ih _ (hn ▸ hlt) _ rfl hnext
      have hstep : slotStep shape false (table.keys slot) pc table =
          ((slotStep shape false (table.keys slot) pc table).1, table) := Prod.ext rfl htable
      exact ⟨m + 1, by rw [iterate_succ_apply, hstep, hm]⟩

end Find

/-! ## Accumulators -/

/-- One atomic operation on the accumulators of a group. -/
inductive AtomicOp where
  | addSum (v : Int64)
  | min (v : Int64)
  | max (v : Int64)
  | addCount
  deriving DecidableEq

/-- The accumulators of one group: `sums`, `mins`, `maxs` and `counts` at one index.
An array a launch does not have keeps its initial value. -/
structure GroupCell where
  sum : Int64
  min : Int64
  max : Int64
  count : UInt32
  deriving DecidableEq

/-- The accumulators as allocated. -/
def GroupCell.initial : GroupCell := ⟨0, Int64.maxValue, Int64.minValue, 0⟩

/-- `atomicAdd`, `atomicMin` and `atomicMax`; additions wrap. -/
def GroupCell.apply (cell : GroupCell) : AtomicOp → GroupCell
  | .addSum v => { cell with sum := cell.sum + v }
  | .min v => { cell with min := Min.min cell.min v }
  | .max v => { cell with max := Max.max cell.max v }
  | .addCount => { cell with count := cell.count + 1 }

/-- The accumulators by slot; `none` is index 0 of the `*_null` arrays. -/
abbrev Cells := Option ℕ → GroupCell

/-- An atomic operation at an address. -/
def Cells.apply (cells : Cells) (op : Option ℕ × AtomicOp) : Cells :=
  update cells op.1 ((cells op.1).apply op.2)

theorem int64_add_right_comm (a b c : Int64) : a + b + c = a + c + b := by
  rw [Int64.add_assoc, Int64.add_comm b c, ← Int64.add_assoc]

theorem int64_min_right_comm (a b c : Int64) :
    Min.min (Min.min a b) c = Min.min (Min.min a c) b := by
  grind

theorem int64_max_right_comm (a b c : Int64) :
    Max.max (Max.max a b) c = Max.max (Max.max a c) b := by
  have hmax : ∀ a b : Int64, Max.max a b = if a ≤ b then b else a := fun _ _ => rfl
  grind

theorem GroupCell.apply_right_comm (cell : GroupCell) (a b : AtomicOp) :
    (cell.apply a).apply b = (cell.apply b).apply a := by
  cases a with
  | addSum v =>
    cases b with
    | addSum v' => simp only [GroupCell.apply, int64_add_right_comm cell.sum v v']
    | _ => rfl
  | min v =>
    cases b with
    | min v' => simp only [GroupCell.apply, int64_min_right_comm cell.min v v']
    | _ => rfl
  | max v =>
    cases b with
    | max v' => simp only [GroupCell.apply, int64_max_right_comm cell.max v v']
    | _ => rfl
  | addCount => cases b <;> rfl

/-- Atomic operations commute, at one address and at two. -/
instance : RightCommutative Cells.apply where
  right_comm := by
    intro cells a b
    funext address
    obtain ⟨x, a⟩ := a
    obtain ⟨y, b⟩ := b
    by_cases hxy : x = y
    · subst hxy
      simp [Cells.apply, GroupCell.apply_right_comm]
    · have hyx : y ≠ x := fun h => hxy h.symm
      simp only [Cells.apply, update_of_ne hyx, update_of_ne hxy]
      rw [update_comm hxy]

theorem foldl_cells_apply (ops : List AtomicOp) (cells : Cells) (target address : Option ℕ) :
    (ops.map fun op => (target, op)).foldl Cells.apply cells address =
      if target = address then ops.foldl GroupCell.apply (cells address) else cells address := by
  induction ops generalizing cells with
  | nil => simp
  | cons op ops ih =>
    rw [List.map_cons, List.foldl_cons, ih]
    by_cases h : target = address
    · subst h
      simp only [if_true, List.foldl_cons, Cells.apply, update_self]
    · simp only [if_neg h, Cells.apply, update_of_ne fun heq : address = target => h heq.symm]

/-! ## The accumulate kernels -/

/-- The atomic operations of one row: `oxide_agg_sum_i64`, `oxide_agg_count`, and
`oxide_agg_minmax_i64` for both `MIN` and `MAX`. -/
def kernelOps : AggregateFunction → Int64 → List AtomicOp
  | .sum, v => [.addSum v, .addCount]
  | .count, _ => [.addCount]
  | .min, v => [.min v, .max v, .addCount]
  | .max, v => [.min v, .max v, .addCount]

/-- The table, read only, and the accumulators of this launch. -/
structure AccumulateMemory where
  table : GroupTable
  cells : Cells

/-- Where a thread of an accumulate kernel stands. -/
inductive AccumulatePc where
  /-- inside `oxide_ag_slot`, with the operations to apply -/
  | find (key : Int64) (ops : List AtomicOp) (pc : SlotPc)
  /-- about to apply the remaining operations at an address -/
  | atomics (address : Option ℕ) (ops : List AtomicOp)
  | exited

/-- The thread has returned. -/
def AccumulatePc.finished : AccumulatePc → Bool
  | .find _ _ _ => false
  | .atomics _ ops => ops.isEmpty
  | .exited => true

/-- One atomic step of a thread of an accumulate kernel. -/
def accumulateStep (shape : TableShape) : ThreadStep ℕ AccumulateMemory AccumulatePc :=
  fun _ pc memory =>
    match pc with
    | .find key ops pc =>
      let next := slotStep shape false key pc memory.table
      let memory := { memory with table := next.2 }
      match next.1 with
      | .returned none => (.exited, memory)
      | .returned (some slot) => (.atomics (some slot) ops, memory)
      | pc => (.find key ops pc, memory)
    | .atomics address (op :: ops) =>
      (.atomics address ops, { memory with cells := memory.cells.apply (address, op) })
    | .atomics address [] => (.atomics address [], memory)
    | .exited => (.exited, memory)

/-- Thread `i` at launch: it returns at once past the last row and on a `NULL` value,
and goes to the `NULL` group on a `NULL` key. -/
def accumulateThread (shape : TableShape) (func : AggregateFunction)
    (keys values : Int64Array) (i : ℕ) : AccumulatePc :=
  match values[i]? with
  | some (some v) =>
    match keys[i]? with
    | some (some key) => .find key (kernelOps func v) (.load (shape.hash key) 0)
    | some none => .atomics none (kernelOps func v)
    | none => .exited
  | _ => .exited

/-- The launch of an accumulate kernel over a finished table. -/
def accumulateLaunch (shape : TableShape) (table : GroupTable) (func : AggregateFunction)
    (keys values : Int64Array) : Config ℕ AccumulateMemory AccumulatePc :=
  ⟨⟨table, fun _ => .initial⟩, accumulateThread shape func keys values⟩

/-- Every thread has returned. -/
def AccumulateFinished (keys : Int64Array) (c : Config ℕ AccumulateMemory AccumulatePc) :
    Prop :=
  ∀ i < keys.length, (c.thread i).finished = true

instance (keys : Int64Array) (c : Config ℕ AccumulateMemory AccumulatePc) :
    Decidable (AccumulateFinished keys c) :=
  inferInstanceAs (Decidable (∀ i < keys.length, (c.thread i).finished = true))

/-- **The invariant of an accumulate kernel**: the table is as it was, and a thread
that looks its key up is on the way to it. -/
structure AccumulateInv (shape : TableShape) (keys : Int64Array) (table : GroupTable)
    (c : Config ℕ AccumulateMemory AccumulatePc) : Prop where
  tableKept : c.memory.table = table
  finder : ∀ i key ops pc, c.thread i = .find key ops pc →
    some key ∈ keys ∧ FindOk shape table key pc
  idle : ∀ i, keys.length ≤ i → c.thread i = .exited

/-- Steps left at most. -/
def AccumulatePc.cost (capacity : ℕ) : AccumulatePc → ℕ
  | .find _ ops pc => pc.cost capacity + ops.length + 1
  | .atomics _ ops => ops.length
  | .exited => 0

/-- The operations a thread has still to apply, at the slot `slotOf` gives its key. -/
def pendingOps (slotOf : Int64 → ℕ) : AccumulatePc → List (Option ℕ × AtomicOp)
  | .find key ops _ => ops.map fun op => (some (slotOf key), op)
  | .atomics address ops => ops.map fun op => (address, op)
  | .exited => []

/-- `slotOf` gives every key of the input its published slot. -/
def Locates (keys : Int64Array) (table : GroupTable) (slotOf : Int64 → ℕ) : Prop :=
  ∀ key, some key ∈ keys → table.state (slotOf key) = .published ∧ table.keys (slotOf key) = key

theorem Locates.address_inj {keys : Int64Array} {table : GroupTable}
    {slotOf : Int64 → ℕ} (h : Locates keys table slotOf) {key key' : Option Int64}
    (hkey : key ∈ keys) (hkey' : key' ∈ keys) (heq : key.map slotOf = key'.map slotOf) :
    key = key' := by
  cases key with
  | none =>
    cases key' with
    | none => rfl
    | some y => cases heq
  | some x =>
    cases key' with
    | none => cases heq
    | some y =>
      have hslot : slotOf x = slotOf y := Option.some.inj heq
      rw [← (h x hkey).2, ← (h y hkey').2, hslot]

section Accumulate

variable {shape : TableShape} {keys values : Int64Array} {table : GroupTable}
  {func : AggregateFunction} {slotOf : Int64 → ℕ} {c : Config ℕ AccumulateMemory AccumulatePc}

/-- **A step of the walk** comes closer to the slot. -/
theorem accumulateStep_find (hindex : Indexes shape keys table) {key : Int64} {pc : SlotPc}
    (hkey : some key ∈ keys) (hpc : FindOk shape table key pc) (i : ℕ) (ops : List AtomicOp)
    {memory : AccumulateMemory} (hmemory : memory.table = table) :
    (accumulateStep shape i (.find key ops pc) memory).2 = memory ∧
      ((∃ pc', (accumulateStep shape i (.find key ops pc) memory).1 = .find key ops pc' ∧
          FindOk shape table key pc' ∧ pc'.cost shape.capacity < pc.cost shape.capacity) ∨
        ∃ slot, (accumulateStep shape i (.find key ops pc) memory).1 = .atomics (some slot) ops ∧
          table.state slot = .published ∧ table.keys slot = key) := by
  obtain ⟨htable, hnext⟩ := slotStep_finds hindex hkey hpc
  have hsame : ({ memory with table := (slotStep shape false key pc memory.table).2 } :
      AccumulateMemory) = memory := by
    rw [hmemory, htable, ← hmemory]
  unfold accumulateStep
  simp only [hsame]
  rw [hmemory]
  rcases hnext with ⟨slot, hslot, hfound⟩ | ⟨hnot, hfind, hcost⟩
  · rw [hslot]
    exact ⟨rfl, .inr ⟨slot, rfl, hfound⟩⟩
  · split
    · next hresult => exact absurd hresult (hnot _)
    · next hresult => exact absurd hresult (hnot _)
    · exact ⟨rfl, .inl ⟨_, rfl, hfind, hcost⟩⟩

/-- **What one step of an accumulate kernel does**: nothing, a step of a lookup, the
end of a lookup, or the next atomic operation of its thread. -/
inductive AccumulateEffect (shape : TableShape) (table : GroupTable)
    (c c' : Config ℕ AccumulateMemory AccumulatePc) (i : ℕ) : Prop where
  | none (hsame : c' = c) (hdone : (c.thread i).finished = true)
  | looks (key : Int64) (ops : List AtomicOp) (pc pc' : SlotPc) (hmemory : c'.memory = c.memory)
      (hi : c.thread i = .find key ops pc) (hi' : c'.thread i = .find key ops pc')
      (hpc' : FindOk shape table key pc') (hcost : pc'.cost shape.capacity < pc.cost shape.capacity)
  | finds (key : Int64) (ops : List AtomicOp) (pc : SlotPc) (slot : ℕ)
      (hmemory : c'.memory = c.memory) (hi : c.thread i = .find key ops pc)
      (hi' : c'.thread i = .atomics (some slot) ops) (hslot : table.state slot = .published)
      (hkey : table.keys slot = key)
  | applies (address : Option ℕ) (op : AtomicOp) (ops : List AtomicOp)
      (htable : c'.memory.table = c.memory.table)
      (hcells : c'.memory.cells = c.memory.cells.apply (address, op))
      (hi : c.thread i = .atomics address (op :: ops)) (hi' : c'.thread i = .atomics address ops)

/-- **One step** is part of a walk or one atomic operation. -/
theorem accumulateStep_effect (hindex : Indexes shape keys table)
    (h : AccumulateInv shape keys table c) (i : ℕ) :
    AccumulateEffect shape table c (stepAt (accumulateStep shape) c i) i := by
  cases hi : c.thread i with
  | find key ops pc =>
    obtain ⟨hkey, hpc⟩ := h.finder i key ops pc hi
    obtain ⟨hmemory, ⟨pc', hpc', hok, hcost⟩ | ⟨slot, hslot, hstate, hfound⟩⟩ :=
      accumulateStep_find hindex hkey hpc i ops h.tableKept
    · exact .looks key ops pc pc' (by rw [stepAt_memory, hi, hmemory]) hi
        (by rw [stepAt_thread_self, hi, hpc']) hok hcost
    · exact .finds key ops pc slot (by rw [stepAt_memory, hi, hmemory]) hi
        (by rw [stepAt_thread_self, hi, hslot]) hstate hfound
  | atomics address ops =>
    cases ops with
    | nil => exact .none (stepAt_eq_self (by rw [hi, accumulateStep])) (by rw [hi]; rfl)
    | cons op ops =>
      exact .applies address op ops (by rw [stepAt_memory, hi, accumulateStep])
        (by rw [stepAt_memory, hi, accumulateStep]) hi
        (by rw [stepAt_thread_self, hi, accumulateStep])
  | exited => exact .none (stepAt_eq_self (by rw [hi, accumulateStep])) (by rw [hi]; rfl)

theorem AccumulateInv.lt_of_ne (h : AccumulateInv shape keys table c) {i : ℕ}
    (hi : c.thread i ≠ .exited) : i < keys.length := by
  by_contra hlt
  exact hi (h.idle i (not_lt.mp hlt))

theorem AccumulateInv.launch (shape : TableShape) (table : GroupTable) (func : AggregateFunction)
    (keys values : Int64Array) :
    AccumulateInv shape keys table (accumulateLaunch shape table func keys values) where
  tableKept := rfl
  finder := by
    intro i key ops pc hi
    change accumulateThread shape func keys values i = _ at hi
    unfold accumulateThread at hi
    split at hi
    · split at hi
      · next hkey =>
        cases hi
        exact ⟨List.mem_of_getElem? hkey, walks_start shape table _⟩
      · cases hi
      · cases hi
    · cases hi
  idle := by
    intro i hi
    show accumulateThread shape func keys values i = _
    unfold accumulateThread
    rw [List.getElem?_eq_none hi]
    split <;> rfl

/-- **Every step keeps the invariant.** -/
theorem AccumulateInv.step (hindex : Indexes shape keys table)
    (c : Config ℕ AccumulateMemory AccumulatePc) (i : ℕ) (h : AccumulateInv shape keys table c) :
    AccumulateInv shape keys table (stepAt (accumulateStep shape) c i) := by
  have heffect := accumulateStep_effect hindex h i
  constructor
  · cases heffect with
    | none hsame => rw [hsame, h.tableKept]
    | looks _ _ _ _ hmemory | finds _ _ _ _ hmemory => rw [hmemory, h.tableKept]
    | applies _ _ _ htable => rw [htable, h.tableKept]
  · intro j key ops pc hj
    by_cases hji : j = i
    · rw [hji] at hj
      cases heffect with
      | none hsame =>
        rw [hsame] at hj
        exact h.finder i key ops pc hj
      | looks key' ops' pc' pc'' _ hi hi' hpc'' _ =>
        rw [hi'] at hj
        cases hj
        exact ⟨(h.finder i key ops pc' hi).1, hpc''⟩
      | finds _ _ _ _ _ _ hi' | applies _ _ _ _ _ _ hi' =>
        rw [hi'] at hj
        cases hj
    · rw [stepAt_thread_of_ne hji] at hj
      exact h.finder j key ops pc hj
  · intro j hj
    by_cases hji : j = i
    · have hidle := h.idle i (hji ▸ hj)
      rw [hji, stepAt_eq_self (by rw [hidle, accumulateStep])]
      exact hidle
    · rw [stepAt_thread_of_ne hji]
      exact h.idle j hj

/-- **Every step applies the next operation of its thread, or none.** -/
theorem accounts_step (hindex : Indexes shape keys table) (hlocates : Locates keys table slotOf)
    {init : Cells} {total : Multiset (Option ℕ × AtomicOp)}
    (h : AccumulateInv shape keys table c) (i : ℕ)
    (hc : Accounts Cells.apply AccumulateMemory.cells (fun pc => ↑(pendingOps slotOf pc))
      (range keys.length) init total c) :
    Accounts Cells.apply AccumulateMemory.cells (fun pc => ↑(pendingOps slotOf pc))
      (range keys.length) init total (stepAt (accumulateStep shape) c i) := by
  cases accumulateStep_effect hindex h i with
  | none hsame => rwa [hsame]
  | looks key ops pc pc' hmemory hi hi' =>
    exact hc.stepAt (.inl ⟨by rw [hmemory], by rw [hi', hi]; rfl⟩)
  | finds key ops pc slot hmemory hi hi' hstate hfound =>
    -- the slot found is the slot of the key: no other is published with it
    obtain ⟨hstate', hfound'⟩ := hlocates key (h.finder i key ops pc hi).1
    have hslot := hindex.unique slot (slotOf key) hstate hstate' (hfound.trans hfound'.symm)
    exact hc.stepAt (.inl ⟨by rw [hmemory], by rw [hi', hi, hslot]; rfl⟩)
  | applies address op ops htable hcells hi hi' =>
    have hlt : i < keys.length := h.lt_of_ne (by rw [hi]; exact fun hexit => by cases hexit)
    exact hc.stepAt (.inr ⟨mem_range.mpr hlt, (address, op), hcells, by
      rw [hi, hi']; rfl⟩)

theorem sum_range_coe {α : Type} (f : ℕ → List α) (n : ℕ) :
    (∑ i ∈ range n, (↑(f i) : Multiset α)) = ↑((List.range n).flatMap f) := by
  induction n with
  | zero => rfl
  | succ n ih =>
    rw [sum_range_succ, ih, List.range_succ, List.flatMap_append, List.flatMap_singleton,
      Multiset.coe_add]

/-- The operations of the rows, in row order. -/
def rowOps (shape : TableShape) (slotOf : Int64 → ℕ) (func : AggregateFunction)
    (keys values : Int64Array) : List (Option ℕ × AtomicOp) :=
  (List.range keys.length).flatMap fun i =>
    pendingOps slotOf (accumulateThread shape func keys values i)

/-- **What an accumulate kernel leaves**: every operation of every row applied once at
the slot of the row's key, as if the rows had come one after another. -/
theorem accumulate_cells (hindex : Indexes shape keys table) (hlocates : Locates keys table slotOf)
    (func : AggregateFunction) (values : Int64Array) (schedule : List ℕ)
    (hfinished : AccumulateFinished keys
      (run (accumulateStep shape) (accumulateLaunch shape table func keys values) schedule)) :
    (run (accumulateStep shape) (accumulateLaunch shape table func keys values)
        schedule).memory.cells =
      (rowOps shape slotOf func keys values).foldl Cells.apply fun _ => .initial := by
  let P : Config ℕ AccumulateMemory AccumulatePc → Prop := fun c =>
    AccumulateInv shape keys table c ∧
      Accounts Cells.apply AccumulateMemory.cells (fun pc => ↑(pendingOps slotOf pc))
        (range keys.length) (fun _ => GroupCell.initial)
        ↑(rowOps shape slotOf func keys values) c
  have hstep : ∀ c i, P c → P (stepAt (accumulateStep shape) c i) := fun c i h =>
    ⟨h.1.step hindex c i, accounts_step hindex hlocates h.1 i h.2⟩
  have hlaunch : P (accumulateLaunch shape table func keys values) :=
    ⟨.launch shape table func keys values, 0, rfl, by rw [zero_add]; exact sum_range_coe _ _⟩
  have hrun := run_invariant hstep hlaunch schedule
  refine hrun.2.eq_foldl fun i hi => ?_
  have hdone := hfinished i (mem_range.mp hi)
  revert hdone
  cases (run (accumulateStep shape) (accumulateLaunch shape table func keys values)
      schedule).thread i with
  | find => exact fun h => by cases h
  | atomics address ops =>
    intro h
    rw [List.isEmpty_iff.mp h]
    rfl
  | exited => exact fun _ => rfl

/-- A step is paid for by its thread. -/
theorem accumulateStep_cost (hindex : Indexes shape keys table)
    (h : AccumulateInv shape keys table c) (i : ℕ) :
    stepAt (accumulateStep shape) c i = c ∧ (c.thread i).finished = true ∨
      i ∈ range keys.length ∧
        ((stepAt (accumulateStep shape) c i).thread i).cost shape.capacity <
          (c.thread i).cost shape.capacity := by
  have hlive : ∀ pc, c.thread i = pc → pc ≠ .exited → i ∈ range keys.length :=
    fun pc hpc hne => mem_range.mpr (h.lt_of_ne (hpc ▸ hne))
  cases accumulateStep_effect hindex h i with
  | none hsame hdone => exact .inl ⟨hsame, hdone⟩
  | looks key ops pc pc' _ hi hi' _ hcost | finds key ops pc slot _ hi hi' =>
    refine .inr ⟨hlive _ hi (by simp), ?_⟩
    rw [hi, hi']
    simp only [AccumulatePc.cost]
    omega
  | applies address op ops _ _ hi hi' =>
    refine .inr ⟨hlive _ hi (by simp), ?_⟩
    rw [hi, hi']
    exact Nat.lt_succ_self ops.length

/-- **The accumulate kernels terminate** on a finished table under every fair schedule. -/
theorem accumulate_terminates (hindex : Indexes shape keys table) (func : AggregateFunction)
    (values : Int64Array) {schedule : ℕ → ℕ} (hfair : Fair (range keys.length) schedule) :
    ∃ t, AccumulateFinished keys (run (accumulateStep shape)
      (accumulateLaunch shape table func keys values) (upTo schedule t)) := by
  obtain ⟨t, ht⟩ := returns_of_fair (AccumulatePc.cost shape.capacity) AccumulatePc.finished
    (fun c i h => AccumulateInv.step hindex c i h) (fun c i h => accumulateStep_cost hindex h i)
    hfair (AccumulateInv.launch shape table func keys values)
  exact ⟨t, fun i hi => ht i (mem_range.mpr hi)⟩

end Accumulate

end Cuda

end OxideLake
