import OxideLake.Device.Kernels
import OxideLake.Foundations.EquiJoin
import OxideLake.Foundations.Ledger
import Mathlib

/-!
# The join table holds exactly the rows of every key

`JoinTable::build` counts the rows of every key, turns the counts into ranges of
one flat array and scatters the row indices through a cursor a key.  All of it is
`u32` arithmetic, with checks only on the running total and on the row index.

The result is `build_matching`: whenever the build returns a table, the matches of
every key are the rows holding it, in row order.  Wrapping counters do not get in
the way: a key needs `2 ^ 32` rows to wrap its counter, and then either some row
index no longer fits or the flat array is empty and the first write panics.
-/

namespace OxideLake

open List EquiJoin Partial Function Kernels Ledger

namespace JoinTable

variable {keys : Int64Array} {order : MapOrder} {ranges : List (Int64 × Nat × Nat)}
  {table : JoinTable} {total j : Nat} {cursor : Int64 → Option Nat} {rows : List Nat}
  {counts : List (Int64 × Nat)} {key : Int64}

/-! ## Pass 1: the counts -/

theorem bump_keys (key : Int64) (counts : List (Int64 × Nat)) :
    (bump key counts).map Prod.fst =
      if key ∈ counts.map Prod.fst then counts.map Prod.fst
      else counts.map Prod.fst ++ [key] := by
  induction counts with
  | nil => rfl
  | cons entry rest ih =>
    obtain ⟨k, count⟩ := entry
    rw [bump]
    by_cases hk : k = key
    · simp [hk]
    · rw [if_neg hk, map_cons, ih]
      by_cases hmem : key ∈ rest.map Prod.fst
      · simp [hmem]
      · simp [hmem, Ne.symm hk]

theorem bump_lookup (key k : Int64) (counts : List (Int64 × Nat)) :
    (bump key counts).lookup k =
      if k = key then some (((counts.lookup key).getD 0 + 1) % 2 ^ 32)
      else counts.lookup k := by
  induction counts with
  | nil =>
    by_cases hk : k = key
    · simp [bump, hk]
    · simp [bump, lookup_cons, hk, beq_eq_false_iff_ne.mpr hk]
  | cons entry rest ih =>
    obtain ⟨k', count⟩ := entry
    rw [bump]
    by_cases hk' : k' = key
    · subst hk'
      by_cases hk : k = k'
      · simp [hk]
      · simp [lookup_cons, hk, beq_eq_false_iff_ne.mpr hk]
    · rw [if_neg hk', lookup_cons, ih, lookup_cons, lookup_cons,
        beq_eq_false_iff_ne.mpr (Ne.symm hk')]
      by_cases hk : k = k'
      · simp [hk, hk']
      · simp [beq_eq_false_iff_ne.mpr hk]

theorem foldl_bump {values : List Int64} (counts : List (Int64 × Nat))
    (hnodup : (counts.map Prod.fst).Nodup) :
    ((values.foldl (fun counts key => bump key counts) counts).map Prod.fst).Nodup ∧
    ∀ k, (values.foldl (fun counts key => bump key counts) counts).lookup k =
      if k ∈ values then some (((counts.lookup k).getD 0 + values.count k) % 2 ^ 32)
      else counts.lookup k := by
  induction values generalizing counts with
  | nil => exact ⟨hnodup, fun k => by simp⟩
  | cons value values ih =>
    have hnodup' : ((bump value counts).map Prod.fst).Nodup := by
      rw [bump_keys]
      split
      · exact hnodup
      · next hmem => exact nodup_append.mpr ⟨hnodup, nodup_singleton _,
          fun a ha b hb => by rintro rfl; exact hmem (mem_singleton.mp hb ▸ ha)⟩
    obtain ⟨hkeys, hlookup⟩ := ih _ hnodup'
    refine ⟨hkeys, fun k => ?_⟩
    rw [foldl_cons, hlookup k, bump_lookup]
    by_cases hk : k = value
    · subst hk
      rw [if_pos mem_cons_self, if_pos rfl, Option.getD_some, count_cons_self]
      by_cases hmem : k ∈ values
      · rw [if_pos hmem]
        congr 1
        omega
      · rw [if_neg hmem, count_eq_zero_of_not_mem hmem]
    · rw [if_neg hk, count_cons_of_ne (Ne.symm hk)]
      simp [hk]

theorem countKeys_nodup (keys : Int64Array) :
    ((countKeys keys).map Prod.fst).Nodup :=
  (foldl_bump [] nodup_nil).1

theorem mem_countKeys {count : Nat} :
    (key, count) ∈ countKeys keys ↔
      key ∈ keys.filterMap id ∧ count = (keys.filterMap id).count key % 2 ^ 32 := by
  rw [← lookup_eq_some_iff (countKeys_nodup keys), countKeys,
    (foldl_bump [] nodup_nil).2 key]
  by_cases hmem : key ∈ keys.filterMap id
  · rw [if_pos hmem, lookup_nil, Option.getD_none, Nat.zero_add, Option.some.injEq]
    exact ⟨fun h => ⟨hmem, h.symm⟩, fun h => h.2.symm⟩
  · rw [if_neg hmem, lookup_nil]
    exact ⟨nofun, fun h => absurd h.1 hmem⟩

/-! ## Pass 2: the ranges -/

/-- The ranges of `assignRanges`: one for every count, laid out one after the
other from `next`, with a total that fits `u32`. -/
theorem assignRanges_spec {next : Nat} (h : assignRanges counts next = .ok (ranges, total)) :
    ranges.map (fun range => (range.1, range.2.2)) = counts ∧
    total = next + (counts.map Prod.snd).sum ∧
    (∀ range ∈ ranges, next ≤ range.2.1) ∧
    ranges.Pairwise (fun a b => a.2.1 + a.2.2 ≤ b.2.1) ∧
    (next < 2 ^ 32 → total < 2 ^ 32) := by
  induction counts generalizing next ranges with
  | nil =>
    cases h
    exact ⟨rfl, rfl, nofun, .nil, id⟩
  | cons entry rest ih =>
    obtain ⟨key, count⟩ := entry
    rw [assignRanges] at h
    split at h
    · next hfits =>
      obtain ⟨⟨tail, total'⟩, htail, h⟩ := bind_eq_ok_iff.mp h
      cases h
      obtain ⟨hmap, htotal, hstart, hpair, hlt⟩ := ih htail
      refine ⟨by rw [map_cons, hmap], by simp [htotal, Nat.add_assoc], ?_,
        .cons hstart hpair, fun _ => hlt hfits⟩
      intro range hrange
      rcases mem_cons.mp hrange with rfl | hrange
      · exact le_rfl
      · exact (Nat.le_add_right _ _).trans (hstart range hrange)
    · cases h

theorem assignRanges_covers {next : Nat} (h : assignRanges counts next = .ok (ranges, total))
    {slot : Nat} (hnext : next ≤ slot) (hslot : slot < total) :
    ∃ range ∈ ranges, range.2.1 ≤ slot ∧ slot < range.2.1 + range.2.2 := by
  induction counts generalizing next ranges with
  | nil =>
    cases h
    omega
  | cons entry rest ih =>
    obtain ⟨key, count⟩ := entry
    rw [assignRanges] at h
    split at h
    · obtain ⟨⟨tail, total'⟩, htail, h⟩ := bind_eq_ok_iff.mp h
      cases h
      by_cases hfirst : slot < next + count
      · exact ⟨_, mem_cons_self, hnext, hfirst⟩
      · obtain ⟨range, hrange, hin⟩ := ih htail (not_lt.mp hfirst)
        exact ⟨range, mem_cons_of_mem _ hrange, hin⟩
    · cases h

/-! ## Pass 3: the scatter -/

theorem indexU32_ok {i row : Nat} (h : indexU32 i = .ok row) : row = i ∧ i < 2 ^ 32 := by
  unfold indexU32 at h
  split at h
  · next hlt => cases h; exact ⟨rfl, hlt⟩
  · cases h

/-- A scatter that succeeds has room for every row. -/
theorem scatterRows_fits {out : List Nat} (h : scatterRows j keys cursor rows = .ok out)
    (hcursor : ∀ key ∈ keys.filterMap id, (cursor key).isSome) {row : Nat}
    (hrow : row ∈ rowsFrom key j keys) : row < 2 ^ 32 ∧ 0 < rows.length := by
  induction keys generalizing j cursor rows with
  | nil => cases hrow
  | cons k keys ih =>
    cases k with
    | none => exact ih h hcursor hrow
    | some k =>
      obtain ⟨slot, hslot⟩ := Option.isSome_iff_exists.mp (hcursor k mem_cons_self)
      rw [scatterRows, hslot] at h
      obtain ⟨row', hindex, h⟩ := bind_eq_ok_iff.mp h
      obtain ⟨rfl, hlt⟩ := indexU32_ok hindex
      split at h
      · next hroom =>
        refine ⟨?_, Nat.zero_lt_of_lt hroom⟩
        rw [rowsFrom] at hrow
        split at hrow
        · rcases mem_cons.mp hrow with rfl | hrow
          · exact hlt
          · refine (ih h (fun key hkey => ?_) hrow).1
            rw [update_apply]
            split
            · rfl
            · exact hcursor key (mem_cons_of_mem _ hkey)
        · refine (ih h (fun key hkey => ?_) hrow).1
          rw [update_apply]
          split
          · rfl
          · exact hcursor key (mem_cons_of_mem _ hkey)
      · cases h

/-- What the scatter still owes: for every key a cursor, with room behind it for
the key's remaining rows, and no two keys' rooms overlapping. -/
structure Room (j : Nat) (keys : Int64Array) (cursor : Int64 → Option Nat)
    (size : Nat) : Prop where
  inside : ∀ k s, cursor k = some s → s + (rowsFrom k j keys).length ≤ size
  apart : ∀ k s k' s', cursor k = some s → cursor k' = some s' → k ≠ k' →
    s + (rowsFrom k j keys).length ≤ s' ∨ s' + (rowsFrom k' j keys).length ≤ s

/-- **One row** takes one place of its key's room. -/
theorem Room.step {size slot : Nat} {k : Int64} (room : Room j (some k :: keys) cursor size)
    (hslot : cursor k = some slot) :
    Room (j + 1) keys (update cursor k (some (slot + 1))) size := by
  have hhead : (rowsFrom k j (some k :: keys)).length =
      (rowsFrom k (j + 1) keys).length + 1 := by simp [rowsFrom]
  have hrest : ∀ k', k' ≠ k → rowsFrom k' j (some k :: keys) = rowsFrom k' (j + 1) keys := by
    intro k' hne
    simp [rowsFrom, Ne.symm hne]
  constructor
  · intro k' s hs
    rw [update_apply] at hs
    split at hs
    · next heq =>
      cases hs
      subst heq
      have := room.inside _ _ hslot
      omega
    · next hne => exact hrest k' hne ▸ room.inside k' s hs
  · intro a s b s' hs hs' hab
    rw [update_apply] at hs hs'
    split at hs
    · next heq =>
      cases hs
      subst heq
      rw [if_neg (Ne.symm hab)] at hs'
      have := room.apart _ _ _ _ hslot hs' hab
      rw [hhead, hrest b (Ne.symm hab)] at this
      omega
    · next hne =>
      split at hs'
      · next heq =>
        cases hs'
        subst heq
        have := room.apart _ _ _ _ hs hslot hab
        rw [hhead, hrest a hab] at this
        omega
      · next hne' =>
        rw [← hrest a hne, ← hrest b hne']
        exact room.apart _ _ _ _ hs hs' hab

theorem Room.skip {size : Nat} {k : Option Int64} (room : Room j (k :: keys) cursor size)
    (hk : ∀ key, k = some key → cursor key = none) : Room (j + 1) keys cursor size := by
  have hrest : ∀ k' s, cursor k' = some s →
      rowsFrom k' j (k :: keys) = rowsFrom k' (j + 1) keys := by
    intro k' s hs
    rw [rowsFrom, if_neg]
    intro heq
    rw [hk k' heq] at hs
    cases hs
  constructor
  · intro k' s hs
    exact hrest k' s hs ▸ room.inside k' s hs
  · intro a s b s' hs hs' hab
    rw [← hrest a s hs, ← hrest b s' hs']
    exact room.apart a s b s' hs hs' hab

/-- **The scatter writes every key's rows behind its cursor** and nothing else. -/
theorem scatterRows_spec {out : List Nat} (h : scatterRows j keys cursor rows = .ok out)
    (room : Room j keys cursor rows.length) (hsize : rows.length < 2 ^ 32) :
    (∀ k s, cursor k = some s → ∀ i < (rowsFrom k j keys).length,
      out[s + i]? = (rowsFrom k j keys)[i]?) ∧
    ∀ p, (∀ k s, cursor k = some s → p < s ∨ s + (rowsFrom k j keys).length ≤ p) →
      out[p]? = rows[p]? := by
  induction keys generalizing j cursor rows with
  | nil =>
    cases h
    exact ⟨fun k s _ i hi => absurd hi (Nat.not_lt_zero i), fun _ _ => rfl⟩
  | cons k keys ih =>
    by_cases hskip : ∀ key, k = some key → cursor key = none
    · have hnext : scatterRows (j + 1) keys cursor rows = .ok out := by
        cases k with
        | none => exact h
        | some key => rwa [scatterRows, hskip key rfl] at h
      have hrest : ∀ k' s, cursor k' = some s →
          rowsFrom k' j (k :: keys) = rowsFrom k' (j + 1) keys := by
        intro k' s hs
        rw [rowsFrom, if_neg]
        intro heq
        rw [hskip k' heq] at hs
        cases hs
      obtain ⟨hwrote, hkept⟩ := ih hnext (room.skip hskip) hsize
      refine ⟨fun k' s hs i hi => ?_, fun p hp => hkept p fun k' s hs => ?_⟩
      · rw [hrest k' s hs] at hi ⊢
        exact hwrote k' s hs i hi
      · rw [← hrest k' s hs]
        exact hp k' s hs
    · push Not at hskip
      obtain ⟨key, rfl, hne⟩ := hskip
      obtain ⟨slot, hslot⟩ := Option.ne_none_iff_exists'.mp hne
      have hhead : rowsFrom key j (some key :: keys) = j :: rowsFrom key (j + 1) keys := by
        simp [rowsFrom]
      have hother : ∀ k', k' ≠ key →
          rowsFrom k' j (some key :: keys) = rowsFrom k' (j + 1) keys := by
        intro k' hk'
        simp [rowsFrom, Ne.symm hk']
      have hinside := room.inside key slot hslot
      rw [hhead, length_cons] at hinside
      rw [scatterRows, hslot] at h
      obtain ⟨row, hindex, h⟩ := bind_eq_ok_iff.mp h
      obtain ⟨rfl, -⟩ := indexU32_ok hindex
      rw [if_pos (by omega), Nat.mod_eq_of_lt (by omega)] at h
      have hlen : (rows.set slot row).length = rows.length := length_set
      obtain ⟨hwrote, hkept⟩ := ih h (hlen.symm ▸ room.step hslot) (hlen.symm ▸ hsize)
      -- the slot just written is outside every remaining room
      have hfree : ∀ k' s, update cursor key (some (slot + 1)) k' = some s →
          slot < s ∨ s + (rowsFrom k' (row + 1) keys).length ≤ slot := by
        intro k' s hs
        rw [update_apply] at hs
        split at hs
        · cases hs
          exact .inl (Nat.lt_succ_self slot)
        · next hk' =>
          rcases room.apart _ _ _ _ hslot hs (Ne.symm hk') with hle | hle
          · rw [hhead, length_cons] at hle
            exact .inl (by omega)
          · rw [hother k' hk'] at hle
            exact .inr hle
      have hslotOut : out[slot]? = some row := by
        rw [hkept slot hfree, getElem?_set_self (by omega)]
      refine ⟨fun k' s hs i hi => ?_, fun p hp => ?_⟩
      · by_cases hk' : k' = key
        · subst hk'
          rw [hslot] at hs
          cases hs
          rw [hhead] at hi ⊢
          cases i with
          | zero => exact hslotOut
          | succ i =>
            rw [getElem?_cons_succ, ← Nat.add_assoc, Nat.add_right_comm]
            exact hwrote _ _ (update_self ..) i (Nat.lt_of_succ_lt_succ hi)
        · rw [hother k' hk'] at hi ⊢
          exact hwrote k' s (by rw [update_of_ne hk']; exact hs) i hi
      · have hslotNe : slot ≠ p := by
          rintro rfl
          rcases hp key slot hslot with hlt | hle
          · exact absurd hlt (lt_irrefl _)
          · rw [hhead, length_cons] at hle
            omega
        rw [hkept p fun k' s hs => ?_, getElem?_set_ne hslotNe]
        rw [update_apply] at hs
        split at hs
        · next hk' =>
          cases hs
          subst hk'
          have := hp _ _ hslot
          rw [hhead, length_cons] at this
          omega
        · next hk' =>
          have := hp _ _ hs
          rwa [hother k' hk'] at this

/-! ## The built table -/

theorem ofKeys_ok (h : ofKeys order keys = .ok table) :
    ∃ total, assignRanges (order.order (countKeys keys)) 0 = .ok (table.ranges, total) ∧
      scatterRows 0 keys (fun key => (table.ranges.lookup key).map Prod.fst)
        (replicate total 0) = .ok table.rows := by
  unfold ofKeys at h
  split at h
  · cases h
  · next ranges total hranges =>
    split at h
    · cases h
    · next rows hrows =>
      cases h
      exact ⟨total, hranges, hrows⟩

theorem ofKeys_of_assignRanges_error {e : EngineError}
    (h : assignRanges (order.order (countKeys keys)) 0 = .error e) :
    ofKeys order keys = .error e := by
  unfold ofKeys
  split
  · next herror =>
    rw [h] at herror
    cases herror
    rfl
  · next hok =>
    rw [h] at hok
    cases hok

section Scatter

variable {order : MapOrder} {keys : Int64Array} {ranges : List (Int64 × Nat × Nat)}
  {total : Nat} (hassign : assignRanges (order.order (countKeys keys)) 0 = .ok (ranges, total))

include hassign

theorem ofKeys_ok_of_scatter
    (hrows : scatterRows 0 keys (fun key => (ranges.lookup key).map Prod.fst)
      (replicate total 0) = .ok rows) : ∃ table, ofKeys order keys = .ok table := by
  unfold ofKeys
  split
  · next herror =>
    rw [hassign] at herror
    cases herror
  · next hok =>
    rw [hassign] at hok
    cases hok
    split
    · next herror =>
      rw [hrows] at herror
      cases herror
    · exact ⟨_, rfl⟩

theorem ofKeys_error_of_scatter {e : EngineError}
    (herror : scatterRows 0 keys (fun key => (ranges.lookup key).map Prod.fst)
      (replicate total 0) = .error e) : ofKeys order keys = .error e := by
  unfold ofKeys
  split
  · next herror =>
    rw [hassign] at herror
    cases herror
  · next hok =>
    rw [hassign] at hok
    cases hok
    split
    · next herror' =>
      rw [herror] at herror'
      cases herror'
      rfl
    · next hrows =>
      rw [herror] at hrows
      cases hrows

end Scatter

/-- The range list of a built table: distinct keys, and for every key of the
column its count as a `u32`. -/
structure Ranges (keys : Int64Array) (ranges : List (Int64 × Nat × Nat))
    (total : Nat) : Prop where
  nodup : (ranges.map Prod.fst).Nodup
  lookup : ∀ key ∈ keys.filterMap id, ∃ start,
    ranges.lookup key = some (start, (keys.filterMap id).count key % 2 ^ 32)
  none : ∀ key ∉ keys.filterMap id, ranges.lookup key = none
  inside : ∀ range ∈ ranges, range.2.1 + range.2.2 ≤ total
  apart : ranges.Pairwise fun a b => a.2.1 + a.2.2 ≤ b.2.1
  total_lt : total < 2 ^ 32
  total_eq : total = (ranges.map fun range => range.2.2).sum

theorem Ranges.disjoint (h : Ranges keys ranges total) {a b : Int64 × Nat × Nat} (ha : a ∈ ranges)
    (hb : b ∈ ranges) (hne : a ≠ b) : a.2.1 + a.2.2 ≤ b.2.1 ∨ b.2.1 + b.2.2 ≤ a.2.1 := by
  let Apart : Int64 × Nat × Nat → Int64 × Nat × Nat → Prop := fun a b =>
    a.2.1 + a.2.2 ≤ b.2.1 ∨ b.2.1 + b.2.2 ≤ a.2.1
  have : Std.Symm Apart := ⟨fun _ _ => Or.symm⟩
  have hpair : ranges.Pairwise Apart := h.apart.imp Or.inl
  exact hpair.forall ha hb hne

theorem ranges_of_assignRanges
    (h : assignRanges (order.order (countKeys keys)) 0 = .ok (ranges, total)) :
    Ranges keys ranges total := by
  obtain ⟨hmap, htotal, -, hpair, hlt⟩ := assignRanges_spec h
  have hperm := order.perm (countKeys keys)
  have hfst : ranges.map Prod.fst = (order.order (countKeys keys)).map Prod.fst := by
    rw [← hmap, map_map]
    rfl
  have hnodup : (ranges.map Prod.fst).Nodup := by
    rw [hfst, (hperm.map Prod.fst).nodup_iff]
    exact countKeys_nodup keys
  have hmem : ∀ key count, (∃ start, (key, start, count) ∈ ranges) ↔
      (key, count) ∈ countKeys keys := by
    intro key count
    rw [← hperm.mem_iff, ← hmap, mem_map]
    constructor
    · rintro ⟨start, hin⟩
      exact ⟨_, hin, rfl⟩
    · rintro ⟨⟨k, start, c⟩, hin, heq⟩
      cases heq
      exact ⟨start, hin⟩
  refine ⟨hnodup, fun key hkey => ?_, fun key hkey => ?_, (assignRanges_inRange h).2, hpair,
    hlt (by decide), ?_⟩
  · obtain ⟨start, hin⟩ := (hmem key _).mpr (mem_countKeys.mpr ⟨hkey, rfl⟩)
    exact ⟨start, (lookup_eq_some_iff hnodup).mpr hin⟩
  · cases hlookup : ranges.lookup key with
    | none => rfl
    | some range =>
      have hin := (lookup_eq_some_iff hnodup).mp hlookup
      exact absurd (mem_countKeys.mp ((hmem key range.2).mp ⟨range.1, hin⟩)).1 hkey
  · rw [htotal, Nat.zero_add, ← hmap, map_map]
    rfl

/-- **No counter wraps** in a build that returns a table. -/
theorem count_lt (hranges : Ranges keys ranges total)
    (hrows : scatterRows 0 keys (fun key => (ranges.lookup key).map Prod.fst)
      (List.replicate total 0) = .ok rows) (hkey : key ∈ keys.filterMap id) :
    (keys.filterMap id).count key < 2 ^ 32 := by
  have hcursor : ∀ k ∈ keys.filterMap id,
      ((ranges.lookup k).map Prod.fst).isSome := by
    intro k hk
    obtain ⟨start, hstart⟩ := hranges.lookup k hk
    rw [hstart]
    rfl
  have hfits : ∀ {k row}, row ∈ rowsWithKey keys k → row < 2 ^ 32 ∧ 0 < total := by
    intro k row hrow
    simpa using scatterRows_fits hrows hcursor hrow
  by_contra hge
  -- the rows of `key` are then all the row numbers that fit
  have hnodup : (rowsWithKey keys key).Nodup := (pairwise_rowsFrom key 0 keys).imp ne_of_lt
  have hall : (rowsWithKey keys key).toFinset = Finset.range (2 ^ 32) := by
    apply Finset.eq_of_subset_of_card_le
    · intro row hrow
      exact Finset.mem_range.mpr (hfits (mem_toFinset.mp hrow)).1
    · rw [Finset.card_range, toFinset_card_of_nodup hnodup, rowsWithKey, length_rowsFrom]
      exact Nat.not_lt.mp hge
  have hcount : (keys.filterMap id).count key = 2 ^ 32 := by
    have hcard := congrArg Finset.card hall
    rwa [Finset.card_range, toFinset_card_of_nodup hnodup, rowsWithKey,
      length_rowsFrom] at hcard
  have hmemKey : ∀ {k}, k ∈ keys.filterMap id → ∃ row, row ∈ rowsWithKey keys k := by
    intro k hk
    obtain ⟨k', hk', hid⟩ := mem_filterMap.mp hk
    obtain ⟨row, hrow⟩ := mem_iff_getElem?.mp hk'
    exact ⟨row, mem_rowsWithKey.mpr (hrow.trans (congrArg some hid))⟩
  have honly : ∀ k ∈ keys.filterMap id, k = key := by
    intro k hk
    obtain ⟨row, hrow⟩ := hmemKey hk
    have hin : row ∈ rowsWithKey keys key := by
      rw [← mem_toFinset, hall]
      exact Finset.mem_range.mpr (hfits hrow).1
    have heq := (mem_rowsWithKey.mp hrow).symm.trans (mem_rowsWithKey.mp hin)
    simpa using heq
  -- so every range is empty and there is no room for the first row
  have hzero : total = 0 := by
    rw [hranges.total_eq, List.sum_eq_zero_iff_forall_eq_nat]
    intro len hlen
    obtain ⟨⟨k, start, count⟩, hin, rfl⟩ := List.mem_map.mp hlen
    have hlookup := (lookup_eq_some_iff hranges.nodup).mpr hin
    by_cases hk : k ∈ keys.filterMap id
    · obtain ⟨start', hstart'⟩ := hranges.lookup k hk
      rw [hlookup, honly k hk, hcount, Nat.mod_self] at hstart'
      cases hstart'
      rfl
    · rw [hranges.none k hk] at hlookup
      cases hlookup
  obtain ⟨row, hrow⟩ := hmemKey hkey
  exact absurd (hfits hrow).2 (by omega)

theorem room_of_ranges (hranges : Ranges keys ranges total)
    (hcount : ∀ key ∈ keys.filterMap id, (keys.filterMap id).count key < 2 ^ 32) :
    Room 0 keys (fun key => (ranges.lookup key).map Prod.fst) total := by
  have hrange : ∀ k s, (ranges.lookup k).map Prod.fst = some s →
      (k, s, (rowsFrom k 0 keys).length) ∈ ranges := by
    intro k s hs
    obtain ⟨range, hlookup, rfl⟩ := Option.map_eq_some_iff.mp hs
    by_cases hk : k ∈ keys.filterMap id
    · obtain ⟨start, hstart⟩ := hranges.lookup k hk
      rw [length_rowsFrom, ← Nat.mod_eq_of_lt (hcount k hk),
        ← lookup_eq_some_iff hranges.nodup, hstart]
      rw [hstart] at hlookup
      cases hlookup
      rfl
    · rw [hranges.none k hk] at hlookup
      cases hlookup
  constructor
  · intro k s hs
    exact hranges.inside _ (hrange k s hs)
  · intro k s k' s' hs hs' hne
    exact hranges.disjoint (hrange k s hs) (hrange k' s' hs') fun heq => hne (congrArg Prod.fst heq)

/-- **Matches are the rows of the key.**  Every table `ofKeys` returns answers every
key with the rows holding it, in row order. -/
theorem ofKeys_matching (h : ofKeys order keys = .ok table) (key : Int64) :
    table.matching key = rowsWithKey keys key := by
  obtain ⟨total, hassign, hrows⟩ := ofKeys_ok h
  have hranges := ranges_of_assignRanges hassign
  have hcount : ∀ k ∈ keys.filterMap id, (keys.filterMap id).count k < 2 ^ 32 :=
    fun k hk => count_lt hranges hrows hk
  have hspec := (scatterRows_spec hrows (by simpa using room_of_ranges hranges hcount)
    (by simpa using hranges.total_lt)).1
  rw [matching]
  by_cases hkey : key ∈ keys.filterMap id
  · obtain ⟨start, hlookup⟩ := hranges.lookup key hkey
    rw [Nat.mod_eq_of_lt (hcount key hkey), ← length_rowsFrom key 0] at hlookup
    rw [hlookup]
    apply ext_getElem?
    intro i
    rw [getElem?_take]
    split
    · next hi =>
      rw [getElem?_drop, hspec key start (by rw [hlookup]; rfl) i hi]
      rfl
    · next hi => exact (getElem?_eq_none (Nat.not_lt.mp hi)).symm
  · have hnil : rowsWithKey keys key = [] := by
      rw [← length_eq_zero_iff, rowsWithKey, length_rowsFrom]
      exact count_eq_zero_of_not_mem hkey
    rw [hranges.none key hkey, hnil]

theorem build_matching {batch : RecordBatch} {index : Nat}
    (h : build order batch index = .ok table) :
    ∃ keys, int64Column batch index "build join key" = .ok keys ∧
      ∀ key, table.matching key = rowsWithKey keys key := by
  obtain ⟨keys, hkeys, h⟩ := bind_eq_ok_iff.mp h
  exact ⟨keys, hkeys, ofKeys_matching h⟩

theorem probePairs_eq {rightKeys : Int64Array}
    (hmatch : ∀ key, table.matching key = rowsWithKey rightKeys key) {i : Nat}
    {pairs : List (Nat × Nat)} (h : probePairs table i keys = .ok pairs) :
    pairs = nestedLoopFrom rightKeys i keys := by
  induction keys generalizing i pairs with
  | nil => cases h; rfl
  | cons key keys ih =>
    cases key with
    | none => exact ih h
    | some key =>
      rw [probePairs] at h
      rw [nestedLoopFrom]
      split at h
      · next hempty =>
        rw [hmatch, List.isEmpty_iff] at hempty
        rw [hempty, ih h]
        rfl
      · obtain ⟨row, hindex, hrow⟩ := bind_eq_ok_iff.mp h
        obtain ⟨rfl, -⟩ := indexU32_ok hindex
        obtain ⟨rest, hrest, hpairs⟩ := bind_eq_ok_iff.mp hrow
        cases hpairs
        rw [hmatch, ih hrest]

/-! ## Builds that succeed -/

theorem sum_bump_le (key : Int64) (counts : List (Int64 × Nat)) :
    ((bump key counts).map Prod.snd).sum ≤ (counts.map Prod.snd).sum + 1 := by
  induction counts with
  | nil => simp [bump]
  | cons entry counts ih =>
    obtain ⟨k, count⟩ := entry
    rw [bump]
    have hmod := Nat.mod_le (count + 1) (2 ^ 32)
    split
    · simp only [map_cons, sum_cons]
      omega
    · simp only [map_cons, sum_cons]
      omega

theorem sum_countKeys_le (keys : Int64Array) :
    ((countKeys keys).map Prod.snd).sum ≤ keys.length := by
  have hfold : ∀ (values : List Int64) (counts : List (Int64 × Nat)),
      ((values.foldl (fun counts key => bump key counts) counts).map Prod.snd).sum ≤
        (counts.map Prod.snd).sum + values.length := by
    intro values
    induction values with
    | nil => exact fun _ => le_rfl
    | cons value values ih =>
      intro counts
      have hstep := sum_bump_le value counts
      have hrest := ih (bump value counts)
      rw [foldl_cons, length_cons]
      omega
  have hlength := length_filterMap_le id keys
  have hcounts := hfold (keys.filterMap id) []
  rw [map_nil, sum_nil] at hcounts
  exact hcounts.trans (by omega)

theorem assignRanges_succeeds {next : Nat} (h : next + (counts.map Prod.snd).sum < 2 ^ 32) :
    ∃ ranges, assignRanges counts next = .ok (ranges, next + (counts.map Prod.snd).sum) := by
  induction counts generalizing next with
  | nil => exact ⟨[], rfl⟩
  | cons entry counts ih =>
    obtain ⟨key, count⟩ := entry
    rw [map_cons, sum_cons] at h ⊢
    obtain ⟨ranges, hranges⟩ := ih (show next + count + (counts.map Prod.snd).sum < 2 ^ 32 by omega)
    refine ⟨(key, next, count) :: ranges, ?_⟩
    rw [assignRanges, if_pos (by omega), hranges, Nat.add_assoc]
    rfl

/-- With room for every row the scatter succeeds. -/
theorem scatterRows_succeeds (room : Room j keys cursor rows.length) (hsize : rows.length < 2 ^ 32)
    (hrows : ∀ n key, keys[n]? = some (some key) → j + n < 2 ^ 32) :
    ∃ out, scatterRows j keys cursor rows = .ok out := by
  induction keys generalizing j cursor rows with
  | nil => exact ⟨rows, rfl⟩
  | cons k keys ih =>
    have hrest : ∀ n key, keys[n]? = some (some key) → j + 1 + n < 2 ^ 32 := by
      intro n key hkey
      have := hrows (n + 1) key hkey
      omega
    cases k with
    | none => exact ih (room.skip nofun) hsize hrest
    | some key =>
      rw [scatterRows]
      cases hslot : cursor key with
      | none =>
        refine ih (room.skip fun k hk => ?_) hsize hrest
        cases hk
        exact hslot
      | some slot =>
        have hinside := room.inside key slot hslot
        rw [rowsFrom, if_pos rfl, length_cons] at hinside
        have hindex : indexU32 j = .ok j := if_pos (hrows 0 key rfl)
        have hlen : (rows.set slot j).length = rows.length := length_set
        rw [hindex]
        show ∃ out, (if slot < rows.length then _ else _) = _
        rw [if_pos (by omega), Nat.mod_eq_of_lt (by omega)]
        exact ih (hlen.symm ▸ room.step hslot) (hlen.symm ▸ hsize) hrest

/-- The two last passes succeed when the counts are exact, the total fits and so does the
index of every row with a key. -/
theorem ofKeys_eq_ok (order : MapOrder) (hsum : ((countKeys keys).map Prod.snd).sum < 2 ^ 32)
    (hcount : ∀ key ∈ keys.filterMap id, (keys.filterMap id).count key < 2 ^ 32)
    (hrows : ∀ n key, keys[n]? = some (some key) → n < 2 ^ 32) :
    ∃ table, ofKeys order keys = .ok table := by
  have hperm := ((order.perm (countKeys keys)).map Prod.snd).sum_nat
  obtain ⟨ranges, hassign⟩ := assignRanges_succeeds
    (show 0 + ((order.order (countKeys keys)).map Prod.snd).sum < 2 ^ 32 by omega)
  have hranges := ranges_of_assignRanges hassign
  obtain ⟨total, htotal⟩ : ∃ total, total = 0 + ((order.order (countKeys keys)).map Prod.snd).sum :=
    ⟨_, rfl⟩
  rw [← htotal] at hassign hranges
  have hlength : (replicate total 0).length = total := length_replicate
  obtain ⟨rows, hrows⟩ := scatterRows_succeeds (hlength.symm ▸ room_of_ranges hranges hcount)
    (hlength.symm ▸ hranges.total_lt)
    (fun n key hkey => by rw [Nat.zero_add]; exact hrows n key hkey)
  exact ofKeys_ok_of_scatter hassign hrows

/-- **Every build side of fewer than `2 ^ 32` rows has a table.** -/
theorem ofKeys_succeeds (order : MapOrder) (h : keys.length < 2 ^ 32) :
    ∃ table, ofKeys order keys = .ok table := by
  refine ofKeys_eq_ok order ((sum_countKeys_le keys).trans_lt h) (fun key _ => ?_)
    fun n key hkey => (List.getElem?_eq_some_iff.mp hkey).1.trans h
  have hle := (List.count_le_length (a := key)).trans (List.length_filterMap_le id keys)
  omega

theorem ofKeys_ok_limits (h : ofKeys order keys = .ok table) :
    ((countKeys keys).map Prod.snd).sum < 2 ^ 32 ∧
      (∀ key ∈ keys.filterMap id, (keys.filterMap id).count key < 2 ^ 32) ∧
      ∀ n key, keys[n]? = some (some key) → n < 2 ^ 32 := by
  obtain ⟨total, hassign, hrows⟩ := ofKeys_ok h
  have hranges := ranges_of_assignRanges hassign
  obtain ⟨-, htotal, -, -, hlt⟩ := assignRanges_spec hassign
  have hperm := ((order.perm (countKeys keys)).map Prod.snd).sum_nat
  have hlt := hlt (by decide)
  refine ⟨by omega, fun key hkey => count_lt hranges hrows hkey, fun n key hkey => ?_⟩
  refine (scatterRows_fits hrows (fun k hk => ?_) (mem_rowsWithKey.mpr hkey)).1
  obtain ⟨start, hstart⟩ := hranges.lookup k hk
  rw [hstart]
  rfl

theorem ofKeys_ok_of_ok (h : ofKeys order keys = .ok table) (order' : MapOrder) :
    ∃ table', ofKeys order' keys = .ok table' := by
  obtain ⟨hsum, hcount, hrows⟩ := ofKeys_ok_limits h
  exact ofKeys_eq_ok order' hsum hcount hrows

theorem probePairs_succeeds (table : JoinTable) {i : Nat} (h : i + keys.length ≤ 2 ^ 32) :
    ∃ pairs, probePairs table i keys = .ok pairs := by
  induction keys generalizing i with
  | nil => exact ⟨[], rfl⟩
  | cons key keys ih =>
    rw [length_cons] at h
    cases key with
    | none => exact ih (by omega)
    | some key =>
      rw [probePairs]
      split
      · exact ih (by omega)
      · obtain ⟨rest, hrest⟩ := ih (i := i + 1) (by omega)
        have hindex : indexU32 i = .ok i := if_pos (by omega)
        refine ⟨(table.matching key).map (fun j => (i, j)) ++ rest, ?_⟩
        rw [hindex]
        show (probePairs table (i + 1) keys >>= _) = _
        rw [hrest]
        rfl

end JoinTable

end OxideLake
