import OxideLake.Device.Kernels

/-!
# The groups of an aggregation

The grouping loop finds or appends a group a row.  Its groups are in order of first
appearance and hold every key of the input once; `sort_by` then puts them in
ascending key order with the `NULL` group last, whatever the order of the input.
-/

namespace OxideLake

open List

namespace Kernels

variable (fpu : FloatUnit) (inputs : List Input)

theorem accumulateRow_keys (key : Option Int64) (row : Nat) (groups : List Group) :
    (accumulateRow fpu inputs key row groups).map Prod.fst =
      if key ∈ groups.map Prod.fst then groups.map Prod.fst
      else groups.map Prod.fst ++ [key] := by
  induction groups with
  | nil => rfl
  | cons group groups ih =>
    obtain ⟨k, accs⟩ := group
    rw [accumulateRow]
    by_cases hk : k = key
    · simp [hk]
    · have hkey : ¬ key = k := fun h => hk h.symm
      simp only [if_neg hk, map_cons, ih, mem_cons, hkey, false_or]
      split <;> rfl

/-- The grouping loop over the first `n` rows. -/
def groupLoop (keys : Int64Array) (n : Nat) : List Group :=
  (range n).foldl
    (fun groups row => accumulateRow fpu inputs (keys[row]?).join row groups) []

variable (keys : Int64Array) (n : Nat)

theorem groupLoop_succ :
    groupLoop fpu inputs keys (n + 1) =
      accumulateRow fpu inputs (keys[n]?).join n (groupLoop fpu inputs keys n) := by
  rw [groupLoop, range_succ, foldl_append]
  rfl

/-- **The groups of a prefix**: each key of the prefix once. -/
theorem groupLoop_keys :
    ((groupLoop fpu inputs keys n).map Prod.fst).Nodup ∧
      ∀ key, key ∈ (groupLoop fpu inputs keys n).map Prod.fst ↔
        ∃ row < n, (keys[row]?).join = key := by
  induction n with
  | zero => simp [groupLoop]
  | succ n ih =>
    obtain ⟨hnodup, hmem⟩ := ih
    rw [groupLoop_succ, accumulateRow_keys]
    split
    · next hold =>
      refine ⟨hnodup, fun key => (hmem key).trans ⟨?_, ?_⟩⟩
      · rintro ⟨row, hrow, hkey⟩
        exact ⟨row, by omega, hkey⟩
      · rintro ⟨row, hrow, rfl⟩
        rcases Nat.lt_succ_iff_lt_or_eq.mp hrow with hrow | rfl
        · exact ⟨row, hrow, rfl⟩
        · exact (hmem _).mp hold
    · next hnew =>
      refine ⟨nodup_append.mpr ⟨hnodup, nodup_singleton _, ?_⟩, fun key => ?_⟩
      · intro a ha b hb hab
        rw [mem_singleton.mp hb] at hab
        exact hnew (hab ▸ ha)
      · rw [mem_append, hmem, mem_singleton]
        constructor
        · rintro (⟨row, hrow, hkey⟩ | rfl)
          · exact ⟨row, by omega, hkey⟩
          · exact ⟨n, by omega, rfl⟩
        · rintro ⟨row, hrow, hkey⟩
          rcases Nat.lt_succ_iff_lt_or_eq.mp hrow with hrow | rfl
          · exact .inl ⟨row, hrow, hkey⟩
          · exact .inr hkey.symm

theorem groupRows_keys :
    ((groupRows fpu inputs keys).map Prod.fst).Nodup ∧
      ∀ key, key ∈ (groupRows fpu inputs keys).map Prod.fst ↔ key ∈ keys := by
  obtain ⟨hnodup, hmem⟩ := groupLoop_keys fpu inputs keys keys.length
  refine ⟨hnodup, fun key => (hmem key).trans ⟨?_, ?_⟩⟩
  · rintro ⟨row, hrow, rfl⟩
    rw [getElem?_eq_getElem hrow]
    exact getElem_mem hrow
  · intro hkey
    obtain ⟨row, hrow, rfl⟩ := getElem_of_mem hkey
    exact ⟨row, hrow, by rw [getElem?_eq_getElem hrow]; rfl⟩

/-! ## Accumulators -/

/-- The accumulator of one input over the rows of `rows` that have a key. -/
def accOver (keys : Int64Array) (key : Option Int64) (input : Input) (rows : List Nat) :
    Acc :=
  (rows.filter fun row => (keys[row]?).join = key).foldl
    (fun acc row => input.accumulate fpu row acc) input.fresh

theorem accOver_range_succ (key : Option Int64) (input : Input) (n : Nat) :
    accOver fpu keys key input (range (n + 1)) =
      if (keys[n]?).join = key then
        input.accumulate fpu n (accOver fpu keys key input (range n))
      else accOver fpu keys key input (range n) := by
  rw [accOver, range_succ, filter_append, foldl_append]
  by_cases h : (keys[n]?).join = key
  · rw [if_pos h, filter_cons_of_pos (by simpa using h)]
    rfl
  · rw [if_neg h, filter_cons_of_neg (by simpa using h)]
    rfl

theorem accOver_of_absent {keys : Int64Array} {key : Option Int64} (input : Input)
    {n : Nat} (h : ¬ ∃ row < n, (keys[row]?).join = key) :
    accOver fpu keys key input (range n) = input.fresh := by
  have hnone : (range n).filter (fun row => (keys[row]?).join = key) = [] := by
    refine filter_eq_nil_iff.mpr fun row hrow hkey => h ⟨row, mem_range.mp hrow, ?_⟩
    exact of_decide_eq_true hkey
  rw [accOver, hnone]
  rfl

theorem accumulateAll_map (row : Nat) (f : Input → Acc) :
    accumulateAll fpu inputs row (inputs.map f) =
      inputs.map fun input => input.accumulate fpu row (f input) := by
  rw [accumulateAll, zipWith_map_left, zipWith_self]

theorem mem_accumulateRow {key : Option Int64} {row : Nat} {groups : List Group}
    (hnodup : (groups.map Prod.fst).Nodup) {group : Group}
    (h : group ∈ accumulateRow fpu inputs key row groups) :
    group ∈ groups ∧ group.1 ≠ key ∨
      (∃ accs, (key, accs) ∈ groups ∧ group = (key, accumulateAll fpu inputs row accs)) ∨
        key ∉ groups.map Prod.fst ∧
          group = (key, accumulateAll fpu inputs row (inputs.map Input.fresh)) := by
  induction groups with
  | nil => exact .inr (.inr ⟨not_mem_nil, mem_singleton.mp h⟩)
  | cons head groups ih =>
    obtain ⟨k, accs⟩ := head
    rw [map_cons, nodup_cons] at hnodup
    rw [accumulateRow] at h
    by_cases hk : k = key
    · rw [if_pos hk, mem_cons] at h
      rcases h with rfl | h
      · exact .inr (.inl ⟨accs, by simp [hk]⟩)
      · refine .inl ⟨mem_cons_of_mem _ h, fun heq => hnodup.1 ?_⟩
        exact mem_map.mpr ⟨group, h, heq.trans hk.symm⟩
    · rw [if_neg hk, mem_cons] at h
      rcases h with rfl | h
      · exact .inl ⟨mem_cons_self, hk⟩
      · rcases ih hnodup.2 h with ⟨hmem, hne⟩ | ⟨accs', hmem, heq⟩ | ⟨hnew, heq⟩
        · exact .inl ⟨mem_cons_of_mem _ hmem, hne⟩
        · exact .inr (.inl ⟨accs', mem_cons_of_mem _ hmem, heq⟩)
        · refine .inr (.inr ⟨?_, heq⟩)
          rw [map_cons, mem_cons, not_or]
          exact ⟨fun h => hk h.symm, hnew⟩

/-- **The accumulators of a prefix**: those of a key have taken its rows, in order. -/
theorem groupLoop_accs :
    ∀ group ∈ groupLoop fpu inputs keys n,
      group.2 = inputs.map fun input => accOver fpu keys group.1 input (range n) := by
  induction n with
  | zero => exact fun _ h => (not_mem_nil h).elim
  | succ n ih =>
    intro group hgroup
    obtain ⟨hnodup, hmem⟩ := groupLoop_keys fpu inputs keys n
    rw [groupLoop_succ] at hgroup
    rcases mem_accumulateRow fpu inputs hnodup hgroup with ⟨hold, hne⟩ | ⟨accs, hold, rfl⟩ |
      ⟨hnew, rfl⟩
    · rw [ih group hold]
      refine map_congr_left fun input _ => ?_
      rw [accOver_range_succ, if_neg fun h => hne h.symm]
    · show accumulateAll fpu inputs n accs = _
      rw [show accs = _ from ih _ hold, accumulateAll_map]
      refine map_congr_left fun input _ => ?_
      rw [accOver_range_succ, if_pos rfl]
    · show accumulateAll fpu inputs n _ = _
      rw [accumulateAll_map]
      refine map_congr_left fun input _ => ?_
      rw [accOver_range_succ, if_pos rfl, accOver_of_absent]
      exact fun h => hnew ((hmem _).mpr h)

/-! ## Output order -/

theorem keyLe_total (a b : Option Int64) : keyLe a b = true ∨ keyLe b a = true := by
  cases a with
  | none => cases b <;> simp [keyLe]
  | some x =>
    cases b with
    | none => exact .inl rfl
    | some y =>
      simp only [keyLe, decide_eq_true_eq]
      exact Int64.le_total x y

theorem keyLe_trans {a b c : Option Int64} (hab : keyLe a b = true) (hbc : keyLe b c = true) :
    keyLe a c = true := by
  cases a with
  | none => cases b <;> cases c <;> simp_all [keyLe]
  | some x =>
    cases c with
    | none => rfl
    | some z =>
      cases b with
      | none => cases hbc
      | some y =>
        simp only [keyLe, decide_eq_true_eq] at hab hbc ⊢
        exact Int64.le_trans hab hbc

theorem keyLe_antisymm {a b : Option Int64} (hab : keyLe a b = true) (hba : keyLe b a = true) :
    a = b := by
  cases a with
  | none => cases b with
    | none => rfl
    | some y => cases hab
  | some x => cases b with
    | none => cases hba
    | some y =>
      simp only [keyLe, decide_eq_true_eq] at hab hba
      rw [Int64.le_antisymm hab hba]

theorem sortGroups_pairwise (groups : List Group) :
    (sortGroups groups).Pairwise fun a b => keyLe a.1 b.1 = true := by
  have htotal : Std.Total fun a b : Group => keyLe a.1 b.1 = true :=
    ⟨fun a b => keyLe_total a.1 b.1⟩
  have htrans : IsTrans Group fun a b => keyLe a.1 b.1 = true :=
    ⟨fun _ _ _ => keyLe_trans⟩
  exact pairwise_insertionSort _ groups

/-- **The keys of an aggregation's output**: the keys of its input, once each, in
ascending order with `NULL` last. -/
theorem sortGroups_groupRows_keys :
    let out := (sortGroups (groupRows fpu inputs keys)).map Prod.fst
    out.Nodup ∧ (∀ key, key ∈ out ↔ key ∈ keys) ∧ out.Pairwise fun a b => keyLe a b = true := by
  obtain ⟨hnodup, hmem⟩ := groupRows_keys fpu inputs keys
  have hperm : ((sortGroups (groupRows fpu inputs keys)).map Prod.fst).Perm
      ((groupRows fpu inputs keys).map Prod.fst) := (perm_insertionSort _ _).map _
  exact ⟨hperm.nodup_iff.mpr hnodup, fun key => (hperm.mem_iff).trans (hmem key),
    pairwise_map.mpr (sortGroups_pairwise _)⟩

/-- **The groups of an aggregation's output**: each key with the accumulators of its
rows. -/
theorem sortGroups_groupRows_eq :
    sortGroups (groupRows fpu inputs keys) =
      ((sortGroups (groupRows fpu inputs keys)).map Prod.fst).map fun key =>
        (key, inputs.map fun input => accOver fpu keys key input (range keys.length)) := by
  rw [map_map]
  conv_lhs => rw [← map_id (sortGroups (groupRows fpu inputs keys))]
  refine map_congr_left fun group hgroup => Prod.ext rfl ?_
  exact groupLoop_accs fpu inputs keys keys.length group
    ((perm_insertionSort _ _).mem_iff.mp hgroup)

end Kernels

end OxideLake
