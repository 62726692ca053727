import Mathlib
import OxideLake.Device.JoinTable

/-!
# Build and probe sides beyond `u32` rows

`JoinTable::build` and the probe loop count rows in `u32`.  Two checks report the sides
that are too long: the running total of the counts, and `index_u32` on every row index.
A counter of one key is not checked.  When it wraps, the total may pass for a small one and
the flat array is allocated too short: the scatter then indexes past its end and panics.

`ofKeys_panics_iff` says for which key columns that happens, `ofKeys_ok_iff` which key columns
can be hashed.
-/

namespace OxideLake

open List EquiJoin Partial Kernels

variable {keys : Int64Array} {key : Int64}

/-- The error of `index_u32`. -/
def Kernels.rowsExceed : EngineError := .execution "batch exceeds u32::MAX rows"

/-- A probe fails only on a matched row past `u32`. -/
theorem Kernels.probePairs_cases (table : JoinTable) (keys : Int64Array) (i : Nat) :
    (∃ pairs, probePairs table i keys = .ok pairs) ∨
      (∃ n key, keys[n]? = some (some key) ∧ table.matching key ≠ [] ∧ 2 ^ 32 ≤ i + n) ∧
        probePairs table i keys = .error rowsExceed := by
  induction keys generalizing i with
  | nil => exact .inl ⟨[], rfl⟩
  | cons k keys ih =>
    -- a row behind the first one that does not fit
    have hbehind : (∃ n key, keys[n]? = some (some key) ∧ table.matching key ≠ [] ∧
        2 ^ 32 ≤ i + 1 + n) → ∃ n key, (k :: keys)[n]? = some (some key) ∧
        table.matching key ≠ [] ∧ 2 ^ 32 ≤ i + n := by
      rintro ⟨n, key, hkey, hmatch, hn⟩
      exact ⟨n + 1, key, hkey, hmatch, by omega⟩
    cases k with
    | none => exact (ih (i + 1)).imp_right fun herror => ⟨hbehind herror.1, herror.2⟩
    | some key =>
      rw [probePairs]
      split
      · exact (ih (i + 1)).imp_right fun herror => ⟨hbehind herror.1, herror.2⟩
      next hmatch =>
        by_cases hi : i < 2 ^ 32
        · rw [indexU32, if_pos hi, ok_bind]
          rcases ih (i + 1) with ⟨pairs, hpairs⟩ | ⟨hexceeds, herror⟩
          · exact .inl ⟨_, by rw [hpairs]; rfl⟩
          · exact .inr ⟨hbehind hexceeds, by rw [herror]; rfl⟩
        · rw [indexU32, if_neg hi]
          exact .inr ⟨⟨0, key, rfl, by simpa using hmatch, by omega⟩, rfl⟩

theorem Kernels.probePairs_exceeds {table : JoinTable} {i n : Nat}
    (hkey : keys[n]? = some (some key)) (hmatch : table.matching key ≠ []) (hn : 2 ^ 32 ≤ i + n) :
    probePairs table i keys = .error rowsExceed := by
  induction keys generalizing i n with
  | nil => cases hkey
  | cons k keys ih =>
    cases n with
    | zero =>
      cases hkey
      rw [probePairs, if_neg (by simpa using hmatch), indexU32, if_neg (by omega)]
      rfl
    | succ n =>
      have hrest := ih hkey (show 2 ^ 32 ≤ i + 1 + n by omega)
      cases k with
      | none => exact hrest
      | some k =>
        rw [probePairs]
        split
        · exact hrest
        · by_cases hi : i < 2 ^ 32
          · rw [indexU32, if_pos hi, ok_bind, hrest]
            rfl
          · rw [indexU32, if_neg hi]
            rfl

namespace JoinTable

/-- The error of the running total. -/
def buildExceeds : EngineError := .execution "build side exceeds u32::MAX rows"

/-- The panic of an index past the end. -/
def outOfBounds : EngineError := .panicked "index out of bounds"

/-! ## The running total -/

theorem assignRanges_exceeds {counts : List (Int64 × Nat)} {next : Nat} (hnext : next < 2 ^ 32)
    (h : 2 ^ 32 ≤ next + (counts.map Prod.snd).sum) :
    assignRanges counts next = .error buildExceeds := by
  induction counts generalizing next with
  | nil =>
    rw [map_nil, sum_nil] at h
    omega
  | cons entry counts ih =>
    obtain ⟨key, count⟩ := entry
    rw [map_cons, sum_cons] at h
    rw [assignRanges]
    split
    · next hfits =>
      rw [ih hfits (show 2 ^ 32 ≤ next + count + (counts.map Prod.snd).sum by omega)]
      rfl
    · rfl

theorem assignRanges_last {counts : List (Int64 × Nat)} {count next total : Nat}
    {ranges : List (Int64 × Nat × Nat)} (hkey : key ∉ counts.map Prod.fst)
    (h : assignRanges (counts ++ [(key, count)]) next = .ok (ranges, total)) :
    ∃ start, ranges.lookup key = some (start, count) ∧ start + count = total := by
  induction counts generalizing next ranges with
  | nil =>
    rw [nil_append, assignRanges] at h
    split at h
    · cases h
      exact ⟨next, by simp, rfl⟩
    · cases h
  | cons entry counts ih =>
    obtain ⟨k, c⟩ := entry
    rw [map_cons, mem_cons, not_or] at hkey
    rw [cons_append, assignRanges] at h
    split at h
    · obtain ⟨⟨tail, total'⟩, htail, h⟩ := bind_eq_ok_iff.mp h
      cases h
      obtain ⟨start, hlookup, hend⟩ := ih hkey.2 htail
      refine ⟨start, ?_, hend⟩
      rw [lookup_cons, beq_eq_false_iff_ne.mpr hkey.1]
      exact hlookup
    · cases h

theorem sum_countKeys (keys : Int64Array) :
    ((countKeys keys).map Prod.snd).sum =
      ((keys.filterMap id).dedup.map fun key => (keys.filterMap id).count key % 2 ^ 32).sum := by
  have hperm : (countKeys keys).Perm ((keys.filterMap id).dedup.map fun key =>
      (key, (keys.filterMap id).count key % 2 ^ 32)) := by
    refine (perm_ext_iff_of_nodup (countKeys_nodup keys).of_map
      ((nodup_dedup _).map fun a b h => congrArg Prod.fst h)).mpr ?_
    rintro ⟨key, count⟩
    rw [mem_countKeys, mem_map]
    constructor
    · rintro ⟨hmem, rfl⟩
      exact ⟨key, mem_dedup.mpr hmem, rfl⟩
    · rintro ⟨key, hmem, hpair⟩
      cases hpair
      exact ⟨mem_dedup.mp hmem, rfl⟩
  rw [(hperm.map Prod.snd).sum_nat, map_map]
  rfl

/-! ## The scatter -/

/-- **What can be hashed**: fewer than `2 ^ 32` rows with a key, all among the first `2 ^ 32`
rows. -/
theorem ofKeys_ok_iff (order : MapOrder) (keys : Int64Array) :
    (∃ table, ofKeys order keys = .ok table) ↔
      (keys.filterMap id).length < 2 ^ 32 ∧ ∀ n key, keys[n]? = some (some key) → n < 2 ^ 32 := by
  have hlength : ((keys.filterMap id).dedup.map fun key => (keys.filterMap id).count key).sum =
      (keys.filterMap id).length := sum_map_count_dedup_eq_length _
  -- counters that do not wrap add up to the number of keys
  have hcounters : (∀ key ∈ keys.filterMap id, (keys.filterMap id).count key < 2 ^ 32) →
      ((countKeys keys).map Prod.snd).sum = (keys.filterMap id).length := by
    intro hcount
    rw [sum_countKeys, ← hlength]
    refine congrArg sum (map_congr_left fun key hkey => ?_)
    exact Nat.mod_eq_of_lt (hcount key (mem_dedup.mp hkey))
  constructor
  · rintro ⟨table, h⟩
    obtain ⟨hsum, hcount, hrows⟩ := ofKeys_ok_limits h
    rw [hcounters hcount] at hsum
    exact ⟨hsum, hrows⟩
  · rintro ⟨hfew, hrows⟩
    have hcount : ∀ key ∈ keys.filterMap id, (keys.filterMap id).count key < 2 ^ 32 :=
      fun key _ => count_le_length.trans_lt hfew
    exact ofKeys_eq_ok order (by rwa [hcounters hcount]) hcount hrows

theorem count_some_cons (key : Int64) (keys : Int64Array) :
    ((some key :: keys).filterMap id).count key = (keys.filterMap id).count key + 1 := by
  simp

theorem count_cons_of_ne {k : Option Int64} (h : k ≠ some key) (keys : Int64Array) :
    ((k :: keys).filterMap id).count key = (keys.filterMap id).count key := by
  cases k with
  | none => rfl
  | some k => exact List.count_cons_of_ne fun heq => h (congrArg some heq)

/-- A key with more rows than room panics. -/
theorem scatterRows_panics {j n slot : Nat} {cursor : Int64 → Option Nat} {rows : List Nat}
    (hkey : keys[n]? = some (some key)) (hn : j + n < 2 ^ 32) (hsize : rows.length < 2 ^ 32)
    (hslot : cursor key = some slot)
    (hfull : rows.length ≤ slot + ((keys.take n).filterMap id).count key) :
    scatterRows j keys cursor rows = .error outOfBounds := by
  induction keys generalizing j n slot cursor rows with
  | nil => cases hkey
  | cons k keys ih =>
    cases n with
    | zero =>
      cases hkey
      have hfull : rows.length ≤ slot := hfull
      rw [scatterRows, hslot]
      show (indexU32 j >>= _) = _
      rw [indexU32, if_pos (by omega), ok_bind, if_neg (by omega)]
      rfl
    | succ n =>
      rw [take_succ_cons] at hfull
      have hj : j < 2 ^ 32 := by omega
      have hn : j + 1 + n < 2 ^ 32 := by omega
      cases k with
      | none => exact ih hkey hn hsize hslot hfull
      | some k =>
        rw [scatterRows]
        cases hother : cursor k with
        | none =>
          have hne : k ≠ key := by
            rintro rfl
            rw [hslot] at hother
            cases hother
          rw [count_cons_of_ne (fun heq => hne (Option.some.inj heq))] at hfull
          exact ih hkey hn hsize hslot hfull
        | some slot' =>
          show (indexU32 j >>= _) = _
          rw [indexU32, if_pos hj, ok_bind]
          split
          · next hroom =>
            have hlen : (rows.set slot' j).length = rows.length := length_set
            by_cases hne : k = key
            · subst hne
              rw [hslot] at hother
              cases hother
              refine ih hkey hn (hlen ▸ hsize) (Function.update_self ..) ?_
              rw [count_some_cons] at hfull
              rw [hlen, Nat.mod_eq_of_lt (by omega)]
              omega
            · refine ih hkey hn (hlen ▸ hsize)
                (by rw [Function.update_of_ne (Ne.symm hne)]; exact hslot) ?_
              rw [count_cons_of_ne (fun heq => hne (Option.some.inj heq))] at hfull
              exact hlen ▸ hfull
          · rfl

/-- With room for the rows that fit there is no panic. -/
theorem scatterRows_cases {j : Nat} {cursor : Int64 → Option Nat} {rows : List Nat}
    (hsize : rows.length < 2 ^ 32) (hroom : ∀ key slot, cursor key = some slot →
      slot + ((keys.take (2 ^ 32 - j)).filterMap id).count key ≤ rows.length) :
    (∃ out, scatterRows j keys cursor rows = .ok out) ∨
      scatterRows j keys cursor rows = .error Kernels.rowsExceed := by
  induction keys generalizing j cursor rows with
  | nil => exact .inl ⟨rows, rfl⟩
  | cons k keys ih =>
    -- the rows behind the first one need no more room
    have hrest : ∀ key slot, cursor key = some slot →
        slot + ((keys.take (2 ^ 32 - (j + 1))).filterMap id).count key ≤ rows.length := by
      intro key slot hslot
      refine le_trans (Nat.add_le_add_left ?_ slot) (hroom key slot hslot)
      refine (List.Sublist.filterMap id ?_).count_le key
      by_cases hj : j < 2 ^ 32
      · rw [show 2 ^ 32 - j = 2 ^ 32 - (j + 1) + 1 by omega, take_succ_cons]
        exact sublist_cons_self _ _
      · rw [show 2 ^ 32 - (j + 1) = 0 by omega, take_zero]
        exact nil_sublist _
    cases k with
    | none => exact ih hsize hrest
    | some k =>
      rw [scatterRows]
      cases hslot : cursor k with
      | none => exact ih hsize hrest
      | some slot =>
        show (∃ out, (indexU32 j >>= _) = _) ∨ (indexU32 j >>= _) = _
        by_cases hj : j < 2 ^ 32
        · have hinside := hroom k slot hslot
          rw [show 2 ^ 32 - j = 2 ^ 32 - (j + 1) + 1 by omega, take_succ_cons,
            count_some_cons] at hinside
          have hlen : (rows.set slot j).length = rows.length := length_set
          rw [indexU32, if_pos hj, ok_bind, if_pos (by omega),
            Nat.mod_eq_of_lt (by omega)]
          refine ih (hlen ▸ hsize) fun key slot' hslot' => ?_
          rw [Function.update_apply] at hslot'
          rw [hlen]
          split at hslot'
          · next heq =>
            cases hslot'
            subst heq
            omega
          · exact hrest key slot' hslot'
        · rw [indexU32, if_neg hj]
          exact .inr rfl

/-! ## Counters that wrap -/

/-- The counter of a key wraps unnoticed: the counts still add up to a `u32`, and some key
has more rows among those whose index fits than its counter says. -/
def CountersWrap (keys : Int64Array) : Prop :=
  ((keys.filterMap id).dedup.map fun key => (keys.filterMap id).count key % 2 ^ 32).sum < 2 ^ 32 ∧
    ∃ key, (keys.filterMap id).count key % 2 ^ 32 < ((keys.take (2 ^ 32)).filterMap id).count key

theorem not_countersWrap (h : ∀ key, (keys.filterMap id).count key < 2 ^ 32) :
    ¬ CountersWrap keys := by
  rintro ⟨-, key, hfew⟩
  have hle : ((keys.take (2 ^ 32)).filterMap id).count key ≤ (keys.filterMap id).count key :=
    ((take_sublist (2 ^ 32) keys).filterMap id).count_le key
  rw [Nat.mod_eq_of_lt (h key)] at hfew
  omega

theorem countersWrap_replicate {n : Nat} (hn : n = 2 ^ 32) (key : Int64) :
    CountersWrap (replicate n (some key)) := by
  have hvalues : (replicate n (some key)).filterMap id = replicate n key :=
    filterMap_replicate_of_some rfl
  rw [CountersWrap, ← hn, take_of_length_le length_replicate.le, hvalues]
  refine ⟨?_, key, ?_⟩
  · rw [replicate_dedup (by omega)]
    simp only [map_singleton, count_replicate_self, Nat.mod_self, sum_singleton]
    omega
  · rw [count_replicate_self, Nat.mod_self]
    omega

theorem exists_occurrence {before : Nat} (h : before < (keys.filterMap id).count key) :
    ∃ n, keys[n]? = some (some key) ∧ ((keys.take n).filterMap id).count key = before := by
  induction keys generalizing before with
  | nil => cases h
  | cons k keys ih =>
    by_cases hk : k = some key
    · subst hk
      cases before with
      | zero => exact ⟨0, rfl, rfl⟩
      | succ before =>
        rw [count_some_cons] at h
        obtain ⟨n, hn, hcount⟩ := ih (Nat.lt_of_succ_lt_succ h)
        exact ⟨n + 1, hn, by rw [take_succ_cons, count_some_cons, hcount]⟩
    · rw [count_cons_of_ne hk] at h
      obtain ⟨n, hn, hcount⟩ := ih h
      exact ⟨n + 1, hn, by rw [take_succ_cons, count_cons_of_ne hk, hcount]⟩

/-- A hash map that hands out one key last. -/
def lastOrder (key : Int64) : MapOrder where
  order entries := entries.filter (fun entry => entry.1 ≠ key) ++
    entries.filter fun entry => !decide (entry.1 ≠ key)
  perm entries := filter_append_perm _ entries

theorem lastOrder_countKeys (hkey : key ∈ keys.filterMap id) :
    (lastOrder key).order (countKeys keys) =
      (countKeys keys).filter (fun entry => entry.1 ≠ key) ++
        [(key, (keys.filterMap id).count key % 2 ^ 32)] := by
  show _ ++ _ = _
  rw [append_cancel_left_eq]
  refine perm_singleton.mp ?_
  refine (perm_ext_iff_of_nodup ((countKeys_nodup keys).of_map.filter _)
    (nodup_singleton _)).mpr ?_
  rintro ⟨k, count⟩
  rw [mem_filter, mem_countKeys, mem_singleton, Prod.mk.injEq]
  constructor
  · rintro ⟨⟨-, rfl⟩, hk⟩
    have hk : k = key := by simpa using hk
    exact ⟨hk, by rw [hk]⟩
  · rintro ⟨rfl, rfl⟩
    exact ⟨⟨hkey, rfl⟩, by simp⟩

/-- **Beyond `u32` rows** a build side without a wrapped counter is reported. -/
theorem ofKeys_cases (order : MapOrder) (h : ¬ CountersWrap keys) :
    (∃ table, ofKeys order keys = .ok table) ∨ ofKeys order keys = .error buildExceeds ∨
      ofKeys order keys = .error Kernels.rowsExceed := by
  have hperm := ((order.perm (countKeys keys)).map Prod.snd).sum_nat
  rw [sum_countKeys] at hperm
  by_cases hsum : ((keys.filterMap id).dedup.map fun key =>
      (keys.filterMap id).count key % 2 ^ 32).sum < 2 ^ 32
  · obtain ⟨ranges, hassign⟩ := assignRanges_succeeds
      (show 0 + ((order.order (countKeys keys)).map Prod.snd).sum < 2 ^ 32 by omega)
    have hranges := ranges_of_assignRanges hassign
    generalize 0 + ((order.order (countKeys keys)).map Prod.snd).sum = total at hassign hranges
    -- a key's range holds its counter, and that covers its rows whose index fits
    have hroom : ∀ key slot, (ranges.lookup key).map Prod.fst = some slot →
        slot + ((keys.take (2 ^ 32 - 0)).filterMap id).count key ≤
          (replicate total 0).length := by
      intro key slot hslot
      obtain ⟨⟨start, len⟩, hlookup, rfl⟩ := Option.map_eq_some_iff.mp hslot
      have hinside := hranges.inside _ ((Ledger.lookup_eq_some_iff hranges.nodup).mp hlookup)
      have hcovered : ((keys.take (2 ^ 32 - 0)).filterMap id).count key ≤
          (keys.filterMap id).count key % 2 ^ 32 :=
        Nat.not_lt.mp fun hlt => h ⟨hsum, key, hlt⟩
      by_cases hkey : key ∈ keys.filterMap id
      · obtain ⟨start', hstart'⟩ := hranges.lookup key hkey
        rw [hlookup] at hstart'
        cases hstart'
        rw [length_replicate]
        exact le_trans (Nat.add_le_add_left hcovered start) hinside
      · rw [hranges.none key hkey] at hlookup
        cases hlookup
    rcases scatterRows_cases (by rw [length_replicate]; exact hranges.total_lt) hroom with
      ⟨rows, hrows⟩ | herror
    · exact .inl (ofKeys_ok_of_scatter hassign hrows)
    · exact .inr (.inr (ofKeys_error_of_scatter hassign herror))
  · exact .inr (.inl (ofKeys_of_assignRanges_error
      (assignRanges_exceeds (by decide) (by omega))))

/-- **A build panics** on exactly the key columns whose counters wrap unnoticed. -/
theorem ofKeys_panics_iff :
    (∃ order, ofKeys order keys = .error outOfBounds) ↔ CountersWrap keys := by
  constructor
  · rintro ⟨order, hpanic⟩
    by_contra hwrap
    rcases ofKeys_cases order hwrap with ⟨table, hok⟩ | herror | herror
    · rw [hpanic] at hok
      cases hok
    · rw [hpanic] at herror
      cases herror
    · rw [hpanic] at herror
      cases herror
  · rintro ⟨hsum, key, hfew⟩
    have hperm := (((lastOrder key).perm (countKeys keys)).map Prod.snd).sum_nat
    rw [sum_countKeys] at hperm
    obtain ⟨ranges, hassign⟩ := assignRanges_succeeds
      (show 0 + (((lastOrder key).order (countKeys keys)).map Prod.snd).sum < 2 ^ 32 by omega)
    have hranges := ranges_of_assignRanges hassign
    generalize 0 + (((lastOrder key).order (countKeys keys)).map Prod.snd).sum = total
      at hassign hranges
    -- the range of `key` ends at the end of the array
    have hrange : ∃ start, ranges.lookup key =
        some (start, (keys.filterMap id).count key % 2 ^ 32) ∧
          start + (keys.filterMap id).count key % 2 ^ 32 = total := by
      have hkey : key ∈ keys.filterMap id := by
        refine ((take_sublist (2 ^ 32) keys).filterMap id).mem ?_
        exact count_pos_iff.mp (Nat.zero_lt_of_lt hfew)
      rw [lastOrder_countKeys hkey] at hassign
      refine assignRanges_last (fun hmem => ?_) hassign
      obtain ⟨entry, hentry, hfst⟩ := mem_map.mp hmem
      exact of_decide_eq_true (mem_filter.mp hentry).2 hfst
    obtain ⟨start, hlookup, hend⟩ := hrange
    obtain ⟨n, hn, hcount⟩ := exists_occurrence hfew
    have hlt : n < 2 ^ 32 := by
      have := (List.getElem?_eq_some_iff.mp hn).1
      rw [List.length_take] at this
      omega
    rw [List.getElem?_take, if_pos hlt] at hn
    rw [List.take_take, Nat.min_eq_left hlt.le] at hcount
    refine ⟨lastOrder key, ofKeys_error_of_scatter hassign (scatterRows_panics hn
      (show 0 + n < 2 ^ 32 by omega) (by rw [length_replicate]; exact hranges.total_lt)
      (by rw [hlookup]; rfl) ?_)⟩
    rw [length_replicate, hcount, hend]

/-! ## Builds that are rejected -/

/-- A build that answers every key with the rows holding it, or reports that its side has too many
rows. -/
def AnswersOrRejects (keys : Int64Array) (result : Result JoinTable) : Prop :=
  (∃ table, result = .ok table ∧ ∀ key, table.matching key = rowsWithKey keys key) ∨
    result = .error buildExceeds ∨ result = .error Kernels.rowsExceed

/-- **An oversized build side is rejected** under every order of the hash map, except for the key
columns whose counters wrap unnoticed: on those some order makes the scatter index out of bounds. -/
theorem build_rejects_iff {batch : RecordBatch} {index : Nat} {keys : Int64Array}
    (hkeys : int64Column batch index "build join key" = .ok keys) :
    (∀ order, AnswersOrRejects keys (build order batch index)) ↔ ¬ CountersWrap keys := by
  have hbuild : ∀ order, build order batch index = ofKeys order keys := fun order => by
    rw [build, hkeys, ok_bind]
  simp only [hbuild]
  constructor
  · intro hanswers hwrap
    obtain ⟨order, hpanic⟩ := ofKeys_panics_iff.mpr hwrap
    rcases hanswers order with ⟨table, hok, -⟩ | herror | herror
    · rw [hpanic] at hok
      cases hok
    · rw [hpanic] at herror
      cases herror
    · rw [hpanic] at herror
      cases herror
  · intro hwrap order
    rcases ofKeys_cases order hwrap with ⟨table, hok⟩ | herror
    · exact .inl ⟨table, hok, ofKeys_matching hok⟩
    · exact .inr herror

/-- Two rows of one key between two others. -/
def fewKeys : RecordBatch :=
  .ofEntries [(⟨"k", .int64, true, []⟩, Column.ofInt64 [some 3, none, some 9, some 3])]
    4 (by decide)

theorem build_rejects_iff_fewKeys :
    (∀ order, AnswersOrRejects [some 3, none, some 9, some 3] (build order fewKeys 0)) ∧
      rowsWithKey [some 3, none, some 9, some 3] 3 = [0, 3] := by
  refine ⟨(build_rejects_iff rfl).mpr (not_countersWrap fun key => ?_), by decide⟩
  exact count_le_length.trans_lt (by decide)

/-- `2 ^ 32` rows of one key. -/
def oneKey : RecordBatch where
  metadata := []
  entries := [(⟨"k", .int64, true, []⟩, Column.ofInt64 (replicate (2 ^ 32) (some 7)))]
  numRows := 2 ^ 32
  fits := forall_mem_singleton.mpr ⟨rfl, by rw [Column.ofInt64_len, length_replicate], nofun⟩
  numRows_lt := by decide

/-- The counter of the key wraps to zero, so the row array is empty and the first row is scattered
out of its bounds. -/
theorem oversized_build_panics : ∃ order, build order oneKey 0 = .error outOfBounds := by
  obtain ⟨order, hpanic⟩ := ofKeys_panics_iff.mpr (countersWrap_replicate rfl 7)
  refine ⟨order, ?_⟩
  have hkeys : int64Column oneKey 0 "build join key" =
      .ok (Column.ofInt64 (replicate (2 ^ 32) (some 7))).int64s := rfl
  rw [build, hkeys, ok_bind, Column.int64s_ofInt64, hpanic]

end JoinTable

end OxideLake
