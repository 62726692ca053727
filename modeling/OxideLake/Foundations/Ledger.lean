import Mathlib

/-!
# Ledgers

A finite map from natural numbers, kept as the list of its rows, and the total weight of
its rows under a weight function.  Changing, adding or dropping a row changes a total by
the weights of that row alone.
-/

/-- Rows under distinct keys. -/
structure Ledger (α : Type) where
  rows : List (ℕ × α)
  nodup : (rows.map Prod.fst).Nodup

namespace Ledger

open List

variable {α : Type}

/-- No rows. -/
def empty : Ledger α := ⟨[], nodup_nil⟩

/-- The row under a key. -/
def get? (ledger : Ledger α) (key : ℕ) : Option α := ledger.rows.lookup key

/-- Drops the row under a key. -/
def erase (ledger : Ledger α) (key : ℕ) : Ledger α where
  rows := ledger.rows.filter fun row => row.1 ≠ key
  nodup := ledger.nodup.sublist (filter_sublist.map Prod.fst)

/-- Puts a row under a key, in place of the one there. -/
def insert (ledger : Ledger α) (key : ℕ) (value : α) : Ledger α where
  rows := (key, value) :: (ledger.erase key).rows
  nodup := by
    rw [map_cons, nodup_cons]
    refine ⟨fun hmem => ?_, (ledger.erase key).nodup⟩
    obtain ⟨row, hrow, heq⟩ := mem_map.mp hmem
    exact absurd heq (of_decide_eq_true (mem_filter.mp hrow).2)

/-- Changes the row under a key. -/
def modify (ledger : Ledger α) (key : ℕ) (f : α → α) : Ledger α where
  rows := ledger.rows.map fun row => (row.1, if row.1 = key then f row.2 else row.2)
  nodup := by
    rw [map_map]
    exact ledger.nodup

/-- The number of rows. -/
def size (ledger : Ledger α) : ℕ := ledger.rows.length

/-- The total weight. -/
def total (ledger : Ledger α) (weight : α → ℕ) : ℕ := (ledger.rows.map fun row => weight row.2).sum

/-- The key of a lightest row among those that satisfy `p`. -/
def argmin (ledger : Ledger α) (p : α → Bool) (rank : α → ℕ) : Option ℕ :=
  ((ledger.rows.filter fun row => p row.2).argmin fun row => rank row.2).map Prod.fst

variable {ledger : Ledger α} {key : ℕ} {value : α}

/-! ## Rows -/

theorem lookup_eq_some_iff {κ : Type} [DecidableEq κ] {rows : List (κ × α)} {key : κ}
    (hnodup : (rows.map Prod.fst).Nodup) :
    rows.lookup key = some value ↔ (key, value) ∈ rows := by
  induction rows with
  | nil => simp
  | cons row rows ih =>
    obtain ⟨k, v⟩ := row
    rw [map_cons, nodup_cons] at hnodup
    rw [lookup_cons, mem_cons]
    by_cases hk : key = k
    · subst hk
      have hnot : (key, value) ∉ rows := fun h => hnodup.1 (mem_map.mpr ⟨_, h, rfl⟩)
      simp [hnot, eq_comm]
    · simp [hk, ih hnodup.2, beq_eq_false_iff_ne.mpr hk]

theorem get?_eq_some_iff : ledger.get? key = some value ↔ (key, value) ∈ ledger.rows :=
  lookup_eq_some_iff ledger.nodup

theorem get?_eq_none_iff : ledger.get? key = none ↔ ∀ row ∈ ledger.rows, row.1 ≠ key := by
  constructor
  · rintro h ⟨k, v⟩ hmem rfl
    rw [get?_eq_some_iff.mpr hmem] at h
    cases h
  · intro h
    cases hget : ledger.get? key with
    | none => rfl
    | some value => exact absurd rfl (h _ (get?_eq_some_iff.mp hget))

@[simp] theorem get?_empty (key : ℕ) : (empty : Ledger α).get? key = none := rfl

@[simp] theorem get?_erase_self (ledger : Ledger α) (key : ℕ) :
    (ledger.erase key).get? key = none :=
  get?_eq_none_iff.mpr fun _ hrow => of_decide_eq_true (mem_filter.mp hrow).2

theorem get?_erase_of_ne (ledger : Ledger α) {key other : ℕ} (h : other ≠ key) :
    (ledger.erase key).get? other = ledger.get? other := by
  refine Option.ext fun value => ?_
  rw [get?_eq_some_iff, get?_eq_some_iff]
  show _ ∈ ledger.rows.filter _ ↔ _
  rw [mem_filter]
  simp [h]

@[simp] theorem get?_insert_self (ledger : Ledger α) (key : ℕ) (value : α) :
    (ledger.insert key value).get? key = some value :=
  get?_eq_some_iff.mpr mem_cons_self

theorem get?_insert_of_ne (ledger : Ledger α) {key other : ℕ} (h : other ≠ key) (value : α) :
    (ledger.insert key value).get? other = ledger.get? other := by
  rw [← get?_erase_of_ne ledger h]
  refine Option.ext fun value' => ?_
  rw [get?_eq_some_iff, get?_eq_some_iff]
  show _ ∈ _ :: _ ↔ _
  rw [mem_cons]
  simp [h]

theorem get?_modify (ledger : Ledger α) (key : ℕ) (f : α → α) (other : ℕ) :
    (ledger.modify key f).get? other =
      if other = key then (ledger.get? other).map f else ledger.get? other := by
  refine Option.ext fun value => ?_
  rw [get?_eq_some_iff]
  show _ ∈ ledger.rows.map _ ↔ _
  rw [mem_map]
  split
  · next heq =>
    rw [Option.map_eq_some_iff]
    constructor
    · rintro ⟨⟨k, v⟩, hmem, h⟩
      obtain ⟨rfl, rfl⟩ := Prod.mk.inj h
      exact ⟨v, get?_eq_some_iff.mpr hmem, (if_pos heq).symm⟩
    · rintro ⟨v, hv, rfl⟩
      exact ⟨(other, v), get?_eq_some_iff.mp hv, Prod.ext rfl (if_pos heq)⟩
  · next hne =>
    rw [get?_eq_some_iff]
    constructor
    · rintro ⟨⟨k, v⟩, hmem, h⟩
      obtain ⟨rfl, rfl⟩ := Prod.mk.inj h
      rwa [if_neg hne]
    · exact fun hmem => ⟨(other, value), hmem, Prod.ext rfl (if_neg hne)⟩

theorem get?_modify_of_some (h : ledger.get? key = some value) (f : α → α) (other : ℕ) :
    (ledger.modify key f).get? other =
      if other = key then some (f value) else ledger.get? other := by
  rw [get?_modify]
  split
  · next heq => rw [heq, h, Option.map_some]
  · rfl

/-! ## Totals -/

variable (weight : α → ℕ)

theorem total_erase (h : ledger.get? key = some value) :
    (ledger.erase key).total weight + weight value = ledger.total weight := by
  obtain ⟨rows, hnodup⟩ := ledger
  have hmem := get?_eq_some_iff.mp h
  show ((rows.filter fun row => row.1 ≠ key).map _).sum + _ = (rows.map _).sum
  clear h
  induction rows with
  | nil => cases hmem
  | cons row rows ih =>
    rw [map_cons, nodup_cons] at hnodup
    rcases mem_cons.mp hmem with rfl | hrest
    · have hkept : rows.filter (fun row => decide (row.1 ≠ key)) = rows :=
        filter_eq_self.mpr fun row hrow => decide_eq_true fun heq =>
          hnodup.1 (mem_map.mpr ⟨row, hrow, heq⟩)
      rw [filter_cons_of_neg (by simp), hkept, map_cons, sum_cons, Nat.add_comm]
    · have hne : row.1 ≠ key := fun heq =>
        hnodup.1 (mem_map.mpr ⟨_, hrest, heq.symm⟩)
      rw [filter_cons_of_pos (by simpa using hne), map_cons, sum_cons,
        map_cons, sum_cons, Nat.add_assoc, ih hnodup.2 hrest]

theorem erase_of_absent (h : ledger.get? key = none) : (ledger.erase key).rows = ledger.rows :=
  filter_eq_self.mpr fun row hrow => decide_eq_true (get?_eq_none_iff.mp h row hrow)

theorem total_insert (h : ledger.get? key = none) (value : α) :
    (ledger.insert key value).total weight = weight value + ledger.total weight := by
  show (((key, value) :: (ledger.erase key).rows).map _).sum = _
  rw [erase_of_absent h, map_cons, sum_cons]
  rfl

theorem total_modify (h : ledger.get? key = some value) (f : α → α) :
    (ledger.modify key f).total weight + weight value = ledger.total weight + weight (f value) := by
  have hrest : ((ledger.modify key f).erase key).rows = (ledger.erase key).rows := by
    show (ledger.rows.map _).filter _ = ledger.rows.filter _
    rw [filter_map]
    refine (map_congr_left fun row hrow => ?_).trans (map_id _)
    have hne : row.1 ≠ key := of_decide_eq_true (mem_filter.mp hrow).2
    exact Prod.ext rfl (if_neg hne)
  have hmodified : (ledger.modify key f).get? key = some (f value) := by
    rw [get?_modify, if_pos rfl, h]
    rfl
  have hbefore := total_erase weight h
  have hafter := total_erase weight hmodified
  have hsame : ((ledger.modify key f).erase key).total weight =
      (ledger.erase key).total weight := by
    rw [total, total, hrest]
  omega

theorem weight_le_total (h : ledger.get? key = some value) :
    weight value ≤ ledger.total weight := by
  have := total_erase weight h
  omega

theorem total_le_size (h : ∀ value, weight value ≤ 1) : ledger.total weight ≤ ledger.size := by
  have hle : ∀ x ∈ ledger.rows.map (fun row => weight row.2), x ≤ 1 := by
    intro x hx
    obtain ⟨row, -, rfl⟩ := mem_map.mp hx
    exact h row.2
  have := sum_le_card_nsmul _ _ hle
  simpa [total, size] using this

theorem exists_of_total_pos (h : 0 < ledger.total weight) :
    ∃ key value, ledger.get? key = some value ∧ 0 < weight value := by
  by_contra hnone
  have hzero : ∀ weight' ∈ ledger.rows.map fun row => weight row.2, weight' = 0 := by
    intro weight' hmem
    obtain ⟨⟨k, v⟩, hrow, rfl⟩ := mem_map.mp hmem
    by_contra hne
    exact hnone ⟨k, v, get?_eq_some_iff.mpr hrow, Nat.pos_of_ne_zero hne⟩
  rw [total, sum_eq_zero hzero] at h
  exact absurd h (Nat.lt_irrefl 0)

theorem total_eq_weight (h : ledger.get? key = some value)
    (hrest : ∀ other value', other ≠ key → ledger.get? other = some value' → weight value' = 0) :
    ledger.total weight = weight value := by
  have hzero : (ledger.erase key).total weight = 0 := by
    by_contra hne
    obtain ⟨other, value', hother, hpos⟩ := exists_of_total_pos weight (Nat.pos_of_ne_zero hne)
    have hother' : other ≠ key := by
      rintro rfl
      rw [get?_erase_self] at hother
      cases hother
    rw [get?_erase_of_ne _ hother'] at hother
    exact absurd (hrest other value' hother' hother) (Nat.ne_of_gt hpos)
  rw [← total_erase weight h, hzero, Nat.zero_add]

/-! ## The lightest row -/

variable {p : α → Bool} {rank : α → ℕ}

/-- A minimum is an entry of its kind. -/
theorem argmin_spec (h : ledger.argmin p rank = some key) :
    ∃ value, ledger.get? key = some value ∧ p value = true := by
  obtain ⟨⟨k, v⟩, hmin, rfl⟩ := Option.map_eq_some_iff.mp h
  have hmem := argmin_mem hmin
  obtain ⟨hrow, hp⟩ := mem_filter.mp hmem
  exact ⟨v, get?_eq_some_iff.mpr hrow, hp⟩

theorem argmin_isSome (h : ledger.get? key = some value) (hp : p value = true) (rank : α → ℕ) :
    ∃ key', ledger.argmin p rank = some key' := by
  cases hargmin : (ledger.rows.filter fun row => p row.2).argmin fun row => rank row.2 with
  | none =>
    rw [argmin_eq_none] at hargmin
    exact absurd (mem_filter.mpr ⟨get?_eq_some_iff.mp h, hp⟩)
      (hargmin ▸ not_mem_nil)
  | some row => exact ⟨row.1, by rw [argmin, hargmin]; rfl⟩

theorem argmin_le (h : ledger.argmin p rank = some key) (hget : ledger.get? key = some value)
    {other : ℕ} {value' : α} (hother : ledger.get? other = some value') (hp : p value' = true) :
    rank value ≤ rank value' := by
  obtain ⟨⟨k, v⟩, hmin, rfl⟩ := Option.map_eq_some_iff.mp h
  have hrow := (mem_filter.mp (argmin_mem hmin)).1
  obtain rfl : v = value := Option.some.inj ((get?_eq_some_iff.mpr hrow).symm.trans hget)
  exact le_of_mem_argmin (f := fun row : ℕ × α => rank row.2) (a := (other, value'))
    (mem_filter.mpr ⟨get?_eq_some_iff.mp hother, hp⟩) hmin

/-! ## Rows in order -/

/-- The rows that satisfy `p`, lightest first. -/
def ranked (ledger : Ledger α) (p : α → Bool) (rank : α → ℕ) : List (ℕ × α) :=
  (ledger.rows.filter fun row => p row.2).insertionSort fun row row' => rank row.2 ≤ rank row'.2

theorem mem_ranked {row : ℕ × α} :
    row ∈ ledger.ranked p rank ↔ ledger.get? row.1 = some row.2 ∧ p row.2 = true := by
  rw [ranked, mem_insertionSort, mem_filter, get?_eq_some_iff]

theorem ranked_nodup (ledger : Ledger α) (p : α → Bool) (rank : α → ℕ) :
    (ledger.ranked p rank).Nodup :=
  (perm_insertionSort _ _).nodup_iff.mpr (ledger.nodup.of_map.filter _)

theorem ranked_pairwise (ledger : Ledger α) (p : α → Bool) (rank : α → ℕ) :
    (ledger.ranked p rank).Pairwise fun row row' => rank row.2 ≤ rank row'.2 := by
  have : Std.Total fun row row' : ℕ × α => rank row.2 ≤ rank row'.2 := ⟨fun _ _ => Nat.le_total _ _⟩
  have : IsTrans (ℕ × α) fun row row' => rank row.2 ≤ rank row'.2 := ⟨fun _ _ _ => Nat.le_trans⟩
  exact pairwise_insertionSort _ _

/-- A lightest row that is changed to one not asked for leaves the others in their order. -/
theorem ranked_modify (h : ledger.argmin p rank = some key) (hget : ledger.get? key = some value)
    (hdistinct : ∀ k v k' v', ledger.get? k = some v → ledger.get? k' = some v' →
      rank v = rank v' → k = k')
    {f : α → α} (hleaves : p (f value) = false) :
    ledger.ranked p rank = (key, value) :: (ledger.modify key f).ranked p rank := by
  obtain ⟨_, hget', hp⟩ := argmin_spec h
  obtain rfl : value = _ := Option.some.inj (hget.symm.trans hget')
  have hrest : ∀ row, row ∈ (ledger.modify key f).ranked p rank ↔
      row ∈ ledger.ranked p rank ∧ row.1 ≠ key := by
    rintro ⟨k, v⟩
    rw [mem_ranked, mem_ranked, get?_modify_of_some hget]
    split
    · next heq =>
      constructor
      · rintro ⟨hv, hpv⟩
        cases hv
        rw [hleaves] at hpv
        cases hpv
      · exact fun ⟨_, hne⟩ => absurd heq hne
    · next hne => exact ⟨fun hv => ⟨hv, hne⟩, And.left⟩
  have hself : (key, value) ∈ ledger.ranked p rank := mem_ranked.mpr ⟨hget, hp⟩
  have hmem : ∀ row, row ∈ (key, value) :: (ledger.modify key f).ranked p rank ↔
      row ∈ ledger.ranked p rank := by
    intro row
    rw [mem_cons, hrest]
    refine ⟨?_, fun hrow => ?_⟩
    · rintro (rfl | hrow)
      · exact hself
      · exact hrow.1
    · by_cases hkey : row.1 = key
      · have hvalue := (mem_ranked.mp hrow).1
        rw [hkey, hget] at hvalue
        exact .inl (Prod.ext hkey (Option.some.inj hvalue).symm)
      · exact .inr ⟨hrow, hkey⟩
  have hnodup : ((key, value) :: (ledger.modify key f).ranked p rank).Nodup :=
    nodup_cons.mpr ⟨fun hrow => ((hrest _).mp hrow).2 rfl, ranked_nodup _ _ _⟩
  have hsorted : ((key, value) :: (ledger.modify key f).ranked p rank).Pairwise
      fun row row' => rank row.2 ≤ rank row'.2 := by
    refine pairwise_cons.mpr ⟨fun row hrow => ?_, ranked_pairwise _ _ _⟩
    obtain ⟨hrow, hp'⟩ := mem_ranked.mp ((hrest row).mp hrow).1
    exact argmin_le h hget hrow hp'
  refine List.Perm.eq_of_pairwise ?_ (ranked_pairwise _ _ _) hsorted
    ((perm_ext_iff_of_nodup (ranked_nodup _ _ _) hnodup).mpr fun row => (hmem row).symm)
  -- two rows of one rank are under one key
  intro row row' hrow hrow' hle hle'
  have hrow := (mem_ranked.mp hrow).1
  have hrow' := (mem_ranked.mp ((hmem row').mp hrow')).1
  have hkey := hdistinct _ _ _ _ hrow hrow' (Nat.le_antisymm hle hle')
  rw [hkey, hrow'] at hrow
  exact Prod.ext hkey (Option.some.inj hrow).symm

end Ledger
