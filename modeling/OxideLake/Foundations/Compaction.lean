import OxideLake.Foundations.Scatter
import Mathlib

/-!
# Stream compaction

Compaction keeps the positions that satisfy a predicate, in order.  The place of a kept
position in the output is its rank, the number of kept positions before it; ranks of
kept positions count up from zero, so storing every kept position at its rank fills a
prefix of the output.

The rank is computed in blocks: the number kept before the block plus the number kept
before the position within it.  `hillisSteele` is the scan by doubling offsets that
gives the latter for all positions of a block at once, and `groupedRank` gives it from
sums over groups of lanes.
-/

namespace Compaction

open List Scatter

variable (p : ℕ → Prop) [DecidablePred p]

/-- The kept positions below `n`. -/
def kept (n : ℕ) : List ℕ := (range n).filter p

theorem kept_succ (n : ℕ) : kept p (n + 1) = kept p n ++ if p n then [n] else [] := by
  rw [kept, range_succ, filter_append]
  by_cases h : p n
  · simp [kept, h]
  · simp [kept, h]

@[simp] theorem length_kept (n : ℕ) : (kept p n).length = Nat.count p n := by
  rw [kept, ← countP_eq_length_filter, Nat.count]

theorem map_count_kept (n : ℕ) : (kept p n).map (Nat.count p) = range (Nat.count p n) := by
  induction n with
  | zero => rfl
  | succ n ih =>
    rw [kept_succ, map_append, ih, Nat.count_succ]
    by_cases h : p n
    · rw [if_pos h, if_pos h, range_succ]
      rfl
    · rw [if_neg h, if_neg h, map_nil, append_nil, Nat.add_zero]

variable {p} in
theorem count_congr {q : ℕ → Prop} [DecidablePred q] {n : ℕ} (h : ∀ k, k < n → (p k ↔ q k)) :
    Nat.count p n = Nat.count q n := by
  rw [Nat.count, Nat.count]
  exact countP_congr fun k hk => by simpa using h k (mem_range.mp hk)

variable {p} in
theorem kept_of_le {n m : ℕ} (hp : ∀ i, p i → i < n) (hle : n ≤ m) : kept p m = kept p n := by
  obtain ⟨extra, rfl⟩ := Nat.le.dest hle
  rw [kept, kept, range_add, filter_append, filter_map]
  have hnone : (range extra).filter ((fun i => decide (p i)) ∘ fun i => n + i) = [] :=
    filter_eq_nil_iff.mpr fun i _ hi =>
      absurd (hp (n + i) (of_decide_eq_true hi)) (by omega)
  rw [hnone, map_nil, append_nil]

variable {p} in
theorem count_of_le {n m : ℕ} (hp : ∀ i, p i → i < n) (hle : n ≤ m) :
    Nat.count p m = Nat.count p n := by
  rw [← length_kept, ← length_kept, kept_of_le hp hle]

theorem flatMap_ite_kept {α : Type} (f : ℕ → α) (n : ℕ) :
    ((range n).flatMap fun i => if p i then [f i] else []) = (kept p n).map f := by
  induction n with
  | zero => rfl
  | succ n ih =>
    rw [range_succ, flatMap_append, ih, kept_succ, map_append,
      flatMap_singleton]
    by_cases h : p n
    · rw [if_pos h, if_pos h]
      rfl
    · rw [if_neg h, if_neg h]
      rfl

/-! ## Blocks -/

/-- The number kept in block `b`. -/
def blockCount (size b : ℕ) : ℕ := Nat.count (fun t => p (b * size + t)) size

theorem count_block_succ (size b : ℕ) :
    Nat.count p ((b + 1) * size) = Nat.count p (b * size) + blockCount p size b := by
  rw [Nat.succ_mul, Nat.count_add]
  rfl

theorem offsets_map_range (f : ℕ → ℕ) (start n b : ℕ) (hb : b < n) :
    (offsets start ((range n).map f)).getD b 0 = start + ((range b).map f).sum := by
  induction n generalizing f start b with
  | zero => exact absurd hb (Nat.not_lt_zero b)
  | succ n ih =>
    rw [range_succ_eq_map, map_cons, map_map, offsets]
    cases b with
    | zero => rfl
    | succ b =>
      rw [getD_cons_succ, ih _ _ _ (Nat.lt_of_succ_lt_succ hb), range_succ_eq_map,
        map_cons, map_map, sum_cons, Nat.add_assoc]

theorem sum_blockCount (size b : ℕ) :
    ((range b).map (blockCount p size)).sum = Nat.count p (b * size) := by
  induction b with
  | zero => simp
  | succ b ih =>
    rw [range_succ, map_append, sum_append, ih, count_block_succ]
    simp

/-- **The scanned block counts** say what is kept before each block. -/
theorem offsets_blockCount {size n b : ℕ} (hb : b < n) :
    (offsets 0 ((range n).map (blockCount p size))).getD b 0 = Nat.count p (b * size) := by
  rw [offsets_map_range _ _ _ _ hb, Nat.zero_add, sum_blockCount]

theorem count_in_block (size b t : ℕ) :
    Nat.count p (b * size + t) = Nat.count p (b * size) + Nat.count (fun t => p (b * size + t)) t :=
  Nat.count_add p _ _

/-! ## Scans within a block -/

/-- One round: every lane adds the value `offset` lanes below. -/
def scanRound (offset : ℕ) (scan : ℕ → ℕ) (t : ℕ) : ℕ :=
  scan t + if offset ≤ t then scan (t - offset) else 0

/-- The scan by doubling offsets: rounds with offsets 1, 2, 4, … -/
def hillisSteele : ℕ → (ℕ → ℕ) → ℕ → ℕ
  | 0, scan => scan
  | rounds + 1, scan => scanRound (2 ^ rounds) (hillisSteele rounds scan)

/-- After some rounds a lane holds the sum of the lanes at most `2 ^ rounds - 1` below. -/
theorem hillisSteele_window (rounds t : ℕ) :
    hillisSteele rounds (fun t => if p t then 1 else 0) t + Nat.count p (t + 1 - 2 ^ rounds) =
      Nat.count p (t + 1) := by
  induction rounds generalizing t with
  | zero =>
    rw [hillisSteele, Nat.pow_zero, Nat.add_sub_cancel, Nat.count_succ, Nat.add_comm]
  | succ rounds ih =>
    rw [hillisSteele, scanRound]
    have hdouble : 2 ^ (rounds + 1) = 2 ^ rounds + 2 ^ rounds := by omega
    by_cases h : 2 ^ rounds ≤ t
    · have hlow := ih (t - 2 ^ rounds)
      have hhigh := ih t
      rw [if_pos h, hdouble]
      rw [show t - 2 ^ rounds + 1 = t + 1 - 2 ^ rounds by omega] at hlow
      rw [show t + 1 - (2 ^ rounds + 2 ^ rounds) = t + 1 - 2 ^ rounds - 2 ^ rounds by omega]
      omega
    · have hall := ih t
      rw [if_neg h, Nat.add_zero]
      rw [show t + 1 - 2 ^ rounds = 0 by omega] at hall
      rw [show t + 1 - 2 ^ (rounds + 1) = 0 by omega]
      exact hall

/-- **The doubling scan** is the inclusive prefix count on `2 ^ rounds` lanes. -/
theorem hillisSteele_eq {rounds t : ℕ} (h : t < 2 ^ rounds) :
    hillisSteele rounds (fun t => if p t then 1 else 0) t = Nat.count p (t + 1) := by
  have hwindow := hillisSteele_window p rounds t
  rwa [show t + 1 - 2 ^ rounds = 0 by omega, Nat.count_zero, Nat.add_zero] at hwindow

/-- The rank from groups of lanes: the totals of the groups before, and the lanes before
in the own group. -/
def groupedRank (lanes t : ℕ) : ℕ :=
  ((range (t / lanes)).map (blockCount p lanes)).sum +
    Nat.count (fun lane => p (t / lanes * lanes + lane)) (t % lanes)

theorem groupedRank_eq (lanes t : ℕ) : groupedRank p lanes t = Nat.count p t := by
  rw [groupedRank, sum_blockCount, ← count_in_block, Nat.div_add_mod']

end Compaction
