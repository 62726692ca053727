import Mathlib
import OxideLake.Foundations.Partial

/-!
# Equi-joins of two key columns

Joining two columns of optional keys: the rows of one column that hold a key, the
nested-loop join, and what any join of the two columns in probe order must list.
A missing key matches nothing.
-/

namespace EquiJoin

open List Partial

variable {K : Type} [DecidableEq K]

variable {pairs pairs' : List (ℕ × ℕ)} {leftKeys rightKeys : List (Option K)}

/-! ## The rows of a key -/

/-- The rows of `keys` that hold `key`, in order, the first one numbered `j`. -/
def rowsFrom (key : K) : Nat → List (Option K) → List Nat
  | _, [] => []
  | j, k :: keys =>
    if k = some key then j :: rowsFrom key (j + 1) keys else rowsFrom key (j + 1) keys

/-- The rows that hold `key`. -/
def rowsWithKey (keys : List (Option K)) (key : K) : List Nat := rowsFrom key 0 keys

theorem mem_rowsFrom {key : K} {keys : List (Option K)} {j row : Nat} :
    row ∈ rowsFrom key j keys ↔ j ≤ row ∧ keys[row - j]? = some (some key) := by
  induction keys generalizing j with
  | nil => simp [rowsFrom]
  | cons k keys ih =>
    have hrest : row ∈ rowsFrom key (j + 1) keys ↔
        j < row ∧ (k :: keys)[row - j]? = some (some key) := by
      rw [ih, Nat.succ_le_iff]
      refine and_congr_right fun hlt => ?_
      rw [show row - j = row - (j + 1) + 1 by omega, getElem?_cons_succ]
    rw [rowsFrom]
    split
    · next hk =>
      rw [mem_cons, hrest]
      constructor
      · rintro (rfl | ⟨hlt, hget⟩)
        · exact ⟨le_rfl, by simp [hk]⟩
        · exact ⟨hlt.le, hget⟩
      · rintro ⟨hle, hget⟩
        rcases hle.eq_or_lt with rfl | hlt
        · exact .inl rfl
        · exact .inr ⟨hlt, hget⟩
    · next hk =>
      rw [hrest]
      constructor
      · rintro ⟨hlt, hget⟩
        exact ⟨hlt.le, hget⟩
      · rintro ⟨hle, hget⟩
        refine ⟨hle.lt_of_ne ?_, hget⟩
        rintro rfl
        simp only [Nat.sub_self, getElem?_cons_zero, Option.some.injEq] at hget
        exact hk hget

theorem mem_rowsWithKey {keys : List (Option K)} {key : K} {row : Nat} :
    row ∈ rowsWithKey keys key ↔ keys[row]? = some (some key) := by
  rw [rowsWithKey, mem_rowsFrom]
  simp

theorem pairwise_rowsFrom (key : K) (j : Nat) (keys : List (Option K)) :
    (rowsFrom key j keys).Pairwise (· < ·) := by
  induction keys generalizing j with
  | nil => exact .nil
  | cons k keys ih =>
    rw [rowsFrom]
    split
    · exact .cons (fun row hrow => (mem_rowsFrom.mp hrow).1) (ih (j + 1))
    · exact ih (j + 1)

theorem nodup_rowsWithKey (keys : List (Option K)) (key : K) : (rowsWithKey keys key).Nodup :=
  (pairwise_rowsFrom key 0 keys).imp ne_of_lt

theorem length_rowsFrom (key : K) (j : Nat) (keys : List (Option K)) :
    (rowsFrom key j keys).length = (keys.filterMap id).count key := by
  induction keys generalizing j with
  | nil => rfl
  | cons k keys ih =>
    cases k with
    | none => simpa [rowsFrom] using ih (j + 1)
    | some k =>
      by_cases hk : k = key
      · simp [rowsFrom, hk, ih (j + 1)]
      · simp [rowsFrom, hk, ih (j + 1)]

/-! ## The pairs of a join -/

/-- `pairs` lists the matching positions of two key columns, each once, in the
order of the left one. -/
structure Pairs (leftKeys rightKeys : List (Option K)) (pairs : List (ℕ × ℕ)) : Prop where
  nodup : pairs.Nodup
  ordered : pairs.Pairwise fun a b => a.1 ≤ b.1
  mem_iff : ∀ i j, (i, j) ∈ pairs ↔
    ∃ key, leftKeys[i]? = some (some key) ∧ rightKeys[j]? = some (some key)

/-- Two lists of pairs visit the same left positions in the same order and give
each the same right positions, in any order. -/
def SameMatches (pairs pairs' : List (ℕ × ℕ)) : Prop :=
  pairs.map Prod.fst = pairs'.map Prod.fst ∧
    ∀ i, (pairs.filter fun pair => pair.1 = i).Perm (pairs'.filter fun pair => pair.1 = i)

theorem SameMatches.perm (h : SameMatches pairs pairs') :
    pairs.Perm pairs' := by
  refine perm_iff_count.mpr fun pair => ?_
  have hcount := (h.2 pair.1).count_eq pair
  rwa [count_filter (by simp), count_filter (by simp)] at hcount

omit [DecidableEq K] in
theorem Pairs.perm (h : Pairs leftKeys rightKeys pairs) (h' : Pairs leftKeys rightKeys pairs') :
    pairs.Perm pairs' :=
  (perm_ext_iff_of_nodup h.nodup h'.nodup).mpr fun pair =>
    (h.mem_iff pair.1 pair.2).trans (h'.mem_iff pair.1 pair.2).symm

omit [DecidableEq K] in
theorem Pairs.sameMatches (h : Pairs leftKeys rightKeys pairs)
    (h' : Pairs leftKeys rightKeys pairs') :
    SameMatches pairs pairs' := by
  refine ⟨((h.perm h').map Prod.fst).eq_of_pairwise (fun a b _ _ => Nat.le_antisymm) ?_ ?_,
    fun i => (h.perm h').filter _⟩
  · exact pairwise_map.mpr h.ordered
  · exact pairwise_map.mpr h'.ordered

/-- The nested-loop join, the left column numbered from `i`. -/
def nestedLoopFrom (rightKeys : List (Option K)) : ℕ → List (Option K) → List (ℕ × ℕ)
  | _, [] => []
  | i, none :: keys => nestedLoopFrom rightKeys (i + 1) keys
  | i, some key :: keys =>
    (rowsWithKey rightKeys key).map (fun j => (i, j)) ++ nestedLoopFrom rightKeys (i + 1) keys

/-- The nested-loop join. -/
def nestedLoop (leftKeys rightKeys : List (Option K)) : List (ℕ × ℕ) :=
  nestedLoopFrom rightKeys 0 leftKeys

theorem mem_nestedLoopFrom {i a b : ℕ} :
    (a, b) ∈ nestedLoopFrom rightKeys i leftKeys ↔
      i ≤ a ∧ ∃ key, leftKeys[a - i]? = some (some key) ∧ rightKeys[b]? = some (some key) := by
  induction leftKeys generalizing i with
  | nil => simp [nestedLoopFrom]
  | cons k keys ih =>
    have hrest : (a, b) ∈ nestedLoopFrom rightKeys (i + 1) keys ↔
        i < a ∧ ∃ key, (k :: keys)[a - i]? = some (some key) ∧
          rightKeys[b]? = some (some key) := by
      rw [ih, Nat.succ_le_iff]
      refine and_congr_right fun hlt => ?_
      rw [show a - i = a - (i + 1) + 1 by omega, getElem?_cons_succ]
    have hhead : (∃ key, (k :: keys)[i - i]? = some (some key) ∧
          rightKeys[b]? = some (some key)) ↔
        ∃ key, k = some key ∧ b ∈ rowsWithKey rightKeys key := by
      simp [mem_rowsWithKey]
    have hsplit : (i ≤ a ∧ ∃ key, (k :: keys)[a - i]? = some (some key) ∧
          rightKeys[b]? = some (some key)) ↔
        (a = i ∧ ∃ key, k = some key ∧ b ∈ rowsWithKey rightKeys key) ∨
          (a, b) ∈ nestedLoopFrom rightKeys (i + 1) keys := by
      rw [hrest, ← hhead]
      constructor
      · rintro ⟨hle, hex⟩
        rcases hle.eq_or_lt with rfl | hlt
        · exact .inl ⟨rfl, hex⟩
        · exact .inr ⟨hlt, hex⟩
      · rintro (⟨rfl, hex⟩ | ⟨hlt, hex⟩)
        · exact ⟨le_rfl, hex⟩
        · exact ⟨hlt.le, hex⟩
    rw [hsplit]
    cases k with
    | none => simp [nestedLoopFrom]
    | some key => simp [nestedLoopFrom, and_comm, eq_comm]

/-- The nested-loop join goes through the left positions, and for each through the right ones. -/
theorem pairwise_nestedLoopFrom (leftKeys rightKeys : List (Option K)) (i : ℕ) :
    (nestedLoopFrom rightKeys i leftKeys).Pairwise fun a b =>
      a.1 < b.1 ∨ a.1 = b.1 ∧ a.2 < b.2 := by
  induction leftKeys generalizing i with
  | nil => exact .nil
  | cons k keys ih =>
    cases k with
    | none => exact ih (i + 1)
    | some key =>
      refine pairwise_append.mpr ⟨?_, ih (i + 1), ?_⟩
      · refine pairwise_map.mpr ((pairwise_rowsFrom key 0 rightKeys).imp ?_)
        exact fun hlt => .inr ⟨rfl, hlt⟩
      · rintro ⟨a, b⟩ hab ⟨a', b'⟩ hab'
        obtain ⟨j, -, hj⟩ := mem_map.mp hab
        cases hj
        exact .inl (mem_nestedLoopFrom.mp hab').1

theorem pairs_nestedLoop (leftKeys rightKeys : List (Option K)) :
    Pairs leftKeys rightKeys (nestedLoop leftKeys rightKeys) := by
  have hlex := pairwise_nestedLoopFrom leftKeys rightKeys 0
  refine ⟨hlex.imp ?_, hlex.imp ?_, fun i j => ?_⟩
  · rintro a b hab rfl
    rcases hab with hlt | ⟨-, hlt⟩
    · exact lt_irrefl _ hlt
    · exact lt_irrefl _ hlt
  · rintro a b (hlt | ⟨heq, -⟩)
    · exact hlt.le
    · exact heq.le
  · rw [nestedLoop, mem_nestedLoopFrom]
    simp

/-! ## Joined rows -/

section Rows

variable {α β γ : Type} (leftKey : α → Option K) (rightKey : β → Option K)

theorem map_rowsFrom (key : K) {rights : List β} {j : ℕ} {read : ℕ → γ} {value : β → γ}
    (hread : ∀ n right, rights[n]? = some right → read (j + n) = value right) :
    (rowsFrom key j (rights.map rightKey)).map read =
      (rights.filter fun right => rightKey right = some key).map value := by
  induction rights generalizing j with
  | nil => rfl
  | cons right rights ih =>
    have ih' := ih fun n r hr => by
      rw [show j + 1 + n = j + (n + 1) by omega]
      exact hread (n + 1) r hr
    rw [map_cons, rowsFrom, filter_cons]
    by_cases hkey : rightKey right = some key
    · rw [if_pos hkey, if_pos (by simpa using hkey), map_cons, map_cons, ih',
        ← hread 0 right rfl]
      rfl
    · rw [if_neg hkey, if_neg (by simpa using hkey), ih']

variable (join : α → β → γ)

/-- The nested-loop join of two lists of rows: every left row with the right rows of its
key. -/
def joinRows (lefts : List α) (rights : List β) : List γ :=
  lefts.flatMap fun left =>
    (rights.filter fun right => (leftKey left).isSome ∧ leftKey left = rightKey right).map
      (join left)

theorem joinRows_eq_map (lefts : List α) (rights : List β) :
    joinRows leftKey rightKey join lefts rights =
      (joinRows leftKey rightKey Prod.mk lefts rights).map fun pair => join pair.1 pair.2 := by
  rw [joinRows, joinRows, map_flatMap]
  simp only [map_map]
  rfl

theorem joinRows_congr {leftKey' : α → Option K} {rightKey' : β → Option K} {join join' : α → β → γ}
    {lefts : List α} {rights : List β} (hleft : ∀ left ∈ lefts, leftKey left = leftKey' left)
    (hright : ∀ right ∈ rights, rightKey right = rightKey' right)
    (hjoin : ∀ left ∈ lefts, ∀ right ∈ rights, join left right = join' left right) :
    joinRows leftKey rightKey join lefts rights =
      joinRows leftKey' rightKey' join' lefts rights := by
  rw [joinRows, joinRows, flatMap_def, flatMap_def]
  refine congrArg flatten (map_congr_left fun left hl => ?_)
  rw [filter_congr fun right hr => by rw [hleft left hl, hright right hr]]
  exact map_congr_left fun right hr => hjoin left hl right (mem_of_mem_filter hr)

theorem joinRows_append (lefts lefts' : List α) (rights : List β) :
    joinRows leftKey rightKey join (lefts ++ lefts') rights =
      joinRows leftKey rightKey join lefts rights ++
        joinRows leftKey rightKey join lefts' rights :=
  flatMap_append

theorem joinRows_flatMap {δ : Type} (join : α → β → γ) (parts : List δ) (lefts : δ → List α)
    (rights : List β) : joinRows leftKey rightKey join (parts.flatMap lefts) rights =
      parts.flatMap fun part => joinRows leftKey rightKey join (lefts part) rights :=
  flatMap_assoc

theorem joinRows_perm {lefts lefts' : List α} {rights rights' : List β}
    (hlefts : lefts.Perm lefts') (hrights : rights.Perm rights') :
    (joinRows leftKey rightKey join lefts rights).Perm
      (joinRows leftKey rightKey join lefts' rights') :=
  (List.Perm.flatMap_left _ fun _ _ => (hrights.filter _).map _).trans (hlefts.flatMap_right _)

theorem map_nestedLoopFrom {lefts : List α} {rights : List β} {i : ℕ} {read : ℕ × ℕ → γ}
    {join : α → β → γ}
    (hread : ∀ m n left right, lefts[m]? = some left → rights[n]? = some right →
      read (i + m, n) = join left right) :
    (nestedLoopFrom (rights.map rightKey) i (lefts.map leftKey)).map read =
      joinRows leftKey rightKey join lefts rights := by
  induction lefts generalizing i with
  | nil => rfl
  | cons left lefts ih =>
    have ih' := ih fun m n l r hl hr => by
      rw [show i + 1 + m = i + (m + 1) by omega]
      exact hread (m + 1) n l r hl hr
    rw [joinRows, flatMap_cons, map_cons]
    cases hkey : leftKey left with
    | none =>
      rw [nestedLoopFrom, ih', filter_eq_nil_iff.mpr (fun _ _ => by simp)]
      rfl
    | some key =>
      have hrow : (rowsFrom key 0 (rights.map rightKey)).map (fun n => read (i, n)) =
          (rights.filter fun right => rightKey right = some key).map (join left) :=
        map_rowsFrom rightKey key fun n right hright => by
          rw [Nat.zero_add]
          exact hread 0 n left right rfl hright
      rw [nestedLoopFrom, map_append, map_map, ih']
      refine congrArg (· ++ _) (hrow.trans (congrArg (map _) ?_))
      refine filter_congr fun right _ => ?_
      simp [eq_comm]

end Rows

/-! ## A join, left position by left position -/

theorem filter_lt_append_filter_eq {n : ℕ} (hordered : pairs.Pairwise fun a b => a.1 ≤ b.1)
    (hle : ∀ pair ∈ pairs, pair.1 ≤ n) :
    (pairs.filter fun pair => pair.1 < n) ++ (pairs.filter fun pair => pair.1 = n) = pairs := by
  induction pairs with
  | nil => rfl
  | cons pair pairs ih =>
    obtain ⟨hhead, hrest⟩ := pairwise_cons.mp hordered
    have ih' := ih hrest fun p hp => hle p (mem_cons_of_mem _ hp)
    rcases (hle pair mem_cons_self).lt_or_eq with hlt | heq
    · simp [hlt, hlt.ne, ih']
    · -- everything behind the first pair at `n` is at `n` as well
      have hall : ∀ p ∈ pairs, p.1 = n := fun p hp =>
        Nat.le_antisymm (hle p (mem_cons_of_mem _ hp)) (heq ▸ hhead p hp)
      have hnone : (pairs.filter fun p => p.1 < n) = [] :=
        filter_eq_nil_iff.mpr fun p hp => by simp [hall p hp]
      have hsame : (pairs.filter fun p => p.1 = n) = pairs :=
        filter_eq_self.mpr fun p hp => by simp [hall p hp]
      simp [heq, hnone, hsame]

theorem flatMap_filter_eq {n : ℕ} (hordered : pairs.Pairwise fun a b => a.1 ≤ b.1)
    (hlt : ∀ pair ∈ pairs, pair.1 < n) :
    ((range n).flatMap fun i => pairs.filter fun pair => pair.1 = i) = pairs := by
  induction n generalizing pairs with
  | zero =>
    cases pairs with
    | nil => rfl
    | cons pair pairs => exact absurd (hlt pair mem_cons_self) (Nat.not_lt_zero _)
  | succ n ih =>
    have hsplit := filter_lt_append_filter_eq hordered fun p hp => Nat.le_of_lt_succ (hlt p hp)
    have hbelow : ((range n).flatMap fun i => pairs.filter fun pair => pair.1 = i) =
        (range n).flatMap fun i =>
          (pairs.filter fun pair => pair.1 < n).filter fun pair => pair.1 = i := by
      rw [flatMap_def, flatMap_def]
      refine congrArg _ (map_congr_left fun i hi => ?_)
      rw [filter_filter]
      refine filter_congr fun pair _ => ?_
      have hin := mem_range.mp hi
      by_cases hpair : pair.1 = i
      · simp [hpair, hin]
      · simp [hpair]
    rw [range_succ, flatMap_append, hbelow,
      ih (hordered.filter _) fun p hp => by simpa using (mem_filter.mp hp).2]
    simpa using hsplit

omit [DecidableEq K] in
theorem Pairs.flatMap_eq (h : Pairs leftKeys rightKeys pairs) :
    ((List.range leftKeys.length).flatMap fun i => pairs.filter fun pair => pair.1 = i) =
      pairs := by
  refine flatMap_filter_eq h.ordered fun pair hpair => ?_
  obtain ⟨key, hkey, -⟩ := (h.mem_iff pair.1 pair.2).mp hpair
  exact (List.getElem?_eq_some_iff.mp hkey).1

theorem Pairs.perm_matches (h : Pairs leftKeys rightKeys pairs) (i : ℕ) :
    ((pairs.filter fun pair => pair.1 = i).map Prod.snd).Perm
      ((List.range rightKeys.length).filter fun j =>
        (leftKeys[i]?).join.isSome ∧ (leftKeys[i]?).join = (rightKeys[j]?).join) := by
  refine (perm_ext_iff_of_nodup ?_ (nodup_range.filter _)).mpr fun j => ?_
  · refine List.Nodup.map_on ?_ (h.nodup.filter _)
    rintro ⟨a, b⟩ ha ⟨a', b'⟩ ha' (rfl : b = b')
    have hi := (List.mem_filter.mp ha).2
    have hi' := (List.mem_filter.mp ha').2
    simp only [decide_eq_true_eq] at hi hi'
    rw [hi, hi']
  · have hmem : j ∈ (pairs.filter fun pair => pair.1 = i).map Prod.snd ↔ (i, j) ∈ pairs := by
      simp
    rw [hmem, h.mem_iff]
    simp only [List.mem_filter, mem_range, decide_eq_true_eq]
    constructor
    · rintro ⟨key, hleft, hright⟩
      rw [hleft, hright]
      exact ⟨(List.getElem?_eq_some_iff.mp hright).1, rfl, rfl⟩
    · rintro ⟨hlt, hsome, heq⟩
      obtain ⟨key, hkey⟩ := Option.isSome_iff_exists.mp hsome
      rw [hkey] at heq
      exact ⟨key, Option.join_eq_some_iff.mp hkey, Option.join_eq_some_iff.mp heq.symm⟩

/-! ## The order of a grouped output -/

section Grouped

variable {α β : Type} {matched : α → Bool} {Of : α → β → Prop} {xs : List α}
  {groups : List (List β)}

/-- `groups` lists, element by element of `xs`, outputs of that element; only the
matched elements have any. -/
def Grouped (matched : α → Bool) (Of : α → β → Prop) (xs : List α) (groups : List (List β)) :
    Prop :=
  List.Forall₂ (fun a group => (group ≠ [] ↔ matched a = true) ∧ ∀ x ∈ group, Of a x) xs groups

theorem Grouped.mem_flatten (h : Grouped matched Of xs groups) {y : β}
    (hy : y ∈ groups.flatten) : ∃ a ∈ xs.filter matched, Of a y := by
  obtain ⟨group, hgroup, hy⟩ := List.mem_flatten.mp hy
  obtain ⟨a, ha, hmatched, hof⟩ := forall₂_exists_left h hgroup
  exact ⟨a, List.mem_filter.mpr ⟨ha, hmatched.mp (List.ne_nil_of_mem hy)⟩, hof y hy⟩

theorem Grouped.exists_of_mem (h : Grouped matched Of xs groups) {a : α}
    (ha : a ∈ xs.filter matched) : ∃ y ∈ groups.flatten, Of a y := by
  obtain ⟨ha, hmatched⟩ := List.mem_filter.mp ha
  obtain ⟨group, hgroup, hne, hof⟩ := forall₂_exists_right h ha
  obtain ⟨y, hy⟩ := List.exists_mem_of_ne_nil _ (hne.mpr hmatched)
  exact ⟨y, List.mem_flatten.mpr ⟨group, hgroup, hy⟩, hof y hy⟩

/-- **A grouped output is ordered exactly when its matched elements are**, for an
order of the outputs that their elements decide. -/
theorem Grouped.pairwise_flatten_iff {S : α → α → Prop} {R : β → β → Prop} (hrefl : ∀ a, S a a)
    (hiff : ∀ a b x y, Of a x → Of b y → (R x y ↔ S a b)) (h : Grouped matched Of xs groups) :
    groups.flatten.Pairwise R ↔ (xs.filter matched).Pairwise S := by
  induction h with
  | nil => simp
  | @cons a group xs groups hhead hrest ih =>
    have hgroup : group.Pairwise R := pairwise_of_forall_mem_list fun x hx y hy =>
      (hiff a a x y (hhead.2 x hx) (hhead.2 y hy)).mpr (hrefl a)
    rw [flatten_cons, pairwise_append, ih]
    cases hmatched : matched a with
    | false =>
      have hnil : group = [] := by
        by_contra hne
        rw [hhead.1.mp hne] at hmatched
        cases hmatched
      simp [hnil, hmatched]
    | true =>
      obtain ⟨x, hx⟩ := exists_mem_of_ne_nil _ (hhead.1.mpr hmatched)
      rw [filter_cons_of_pos hmatched, pairwise_cons]
      constructor
      · rintro ⟨-, htail, hcross⟩
        refine ⟨fun b hb => ?_, htail⟩
        obtain ⟨y, hy, hof⟩ := Grouped.exists_of_mem hrest hb
        exact (hiff a b x y (hhead.2 x hx) hof).mp (hcross x hx y hy)
      · rintro ⟨hall, htail⟩
        refine ⟨hgroup, htail, fun x hx y hy => ?_⟩
        obtain ⟨b, hb, hof⟩ := Grouped.mem_flatten hrest hy
        exact (hiff a b x y (hhead.2 x hx) hof).mpr (hall b hb)

/-- Lists that are sorted part by part, when they are sorted in another order of every part. -/
theorem pairwise_flatten_of_perm {R : β → β → Prop} {groups' : List (List β)}
    (h : Forall₂ Perm groups groups') (hsorted : groups'.flatten.Pairwise R) :
    groups.flatten.Pairwise R ↔ ∀ group ∈ groups, group.Pairwise R := by
  rw [pairwise_flatten]
  refine and_iff_left ?_
  have hcross := (pairwise_flatten.mp hsorted).2
  induction h with
  | nil => exact .nil
  | @cons group group' groups groups' hperm hrest ih =>
    rw [flatten_cons, pairwise_append] at hsorted
    obtain ⟨hhead, htail⟩ := pairwise_cons.mp hcross
    refine .cons (fun other hother x hx y hy => ?_) (ih hsorted.2.1 htail)
    obtain ⟨other', hother', hperm'⟩ := forall₂_exists_right hrest hother
    exact hhead other' hother' x (hperm.mem_iff.mp hx) y (hperm'.mem_iff.mp hy)

end Grouped

end EquiJoin
