import Mathlib

/-!
# Extremum by compare-and-swap

A shared cell holds the best of the values offered to it so far.  A thread offers a value by a
retry loop: it loads the cell, leaves if its value is not better than what it saw, and
otherwise swaps its value in, provided the cell still holds what it saw; if not it goes on with
what the swap found.

The first load may be stale: it returns any value the cell has held.  The loop is right all the
same, because the cell only gets better: a value that does not beat an older content does not
beat the present one (`Held.Sorted.not_better_current`).  For the same reason every failed swap
has met a better value than the one before, so the loop ends (`step_spec`).
-/

namespace CasExtremum

open List

universe u

variable {α : Type u}

/-- The values a cell has held: those written, newest first, and the initial one. -/
structure Held (α : Type u) where
  written : List α
  initial : α

namespace Held

/-- All values, newest first. -/
def values (held : Held α) : List α := held.written ++ [held.initial]

/-- What the cell holds now. -/
def current (held : Held α) : α := held.written.headD held.initial

/-- What a load sees that lags behind by so many writes. -/
def seen (held : Held α) (lag : ℕ) : α := (held.values[lag]?).getD held.initial

/-- The cell after a write. -/
def push (held : Held α) (v : α) : Held α := { held with written := v :: held.written }

theorem initial_mem (held : Held α) : held.initial ∈ held.values :=
  mem_append_right _ mem_cons_self

theorem current_mem (held : Held α) : held.current ∈ held.values := by
  obtain ⟨written, initial⟩ := held
  cases written with
  | nil | cons v written => exact mem_cons_self

theorem seen_mem (held : Held α) (lag : ℕ) : held.seen lag ∈ held.values := by
  rw [seen]
  cases hlag : held.values[lag]? with
  | none => exact held.initial_mem
  | some v => exact mem_of_getElem? hlag

theorem current_mem_written {held : Held α} {old : α} (hold : old ∈ held.values)
    (hne : held.current ≠ old) : held.current ∈ held.written := by
  obtain ⟨written, initial⟩ := held
  cases written with
  | nil => exact absurd (mem_singleton.mp hold).symm hne
  | cons v written => exact mem_cons_self

end Held

/-- A strict order, as a test. -/
structure Strict (better : α → α → Bool) : Prop where
  irrefl : ∀ a, better a a = false
  trans : ∀ {a b c}, better a b = true → better b c = true → better a c = true

/-- Every value a cell has held is better than the ones before it. -/
def Held.Sorted (better : α → α → Bool) (held : Held α) : Prop :=
  held.values.Pairwise fun a b => better a b = true

section Sorted

variable {better : α → α → Bool} {held : Held α} {v old : α}

theorem Held.sorted_fresh (better : α → α → Bool) (initial : α) :
    Held.Sorted better ⟨[], initial⟩ :=
  pairwise_singleton ..

theorem Held.Sorted.current_better (h : held.Sorted better) (hold : old ∈ held.values) :
    old = held.current ∨ better held.current old = true := by
  obtain ⟨written, initial⟩ := held
  cases written with
  | nil => exact .inl (mem_singleton.mp hold)
  | cons newest written =>
    rcases mem_cons.mp hold with rfl | hold
    · exact .inl rfl
    · exact .inr ((pairwise_cons.mp h).1 old hold)

/-- **A stale load is as good as a fresh one** to give up on. -/
theorem Held.Sorted.not_better_current (hstrict : Strict better) (h : held.Sorted better)
    (hold : old ∈ held.values) (hnot : better v old = false) : better v held.current = false := by
  rcases h.current_better hold with rfl | hbetter
  · exact hnot
  · by_contra hv
    rw [hstrict.trans (Bool.of_not_eq_false hv) hbetter] at hnot
    cases hnot

theorem Held.Sorted.push (hstrict : Strict better) (h : held.Sorted better)
    (hbetter : better v held.current = true) : (held.push v).Sorted better := by
  refine pairwise_cons.mpr ⟨fun old hold => ?_, h⟩
  rcases h.current_better hold with rfl | hold
  · exact hbetter
  · exact hstrict.trans hbetter hold

end Sorted

/-! ## The loop -/

/-- Where an offer stands: before its load, before a swap of what it saw, or over. -/
inductive Offer (α : Type u) where
  | load
  | cas (assumed : α)
  | done

variable (better : α → α → Bool)

/-- What follows from a value seen: the offer is over unless its own value is better. -/
def judge (v old : α) : Offer α := if better v old then .cas old else .done

/-- One step of an offer of `v`; a load lags behind by `lag` writes, a swap does not. -/
def step [DecidableEq α] (lag : ℕ) (v : α) : Offer α → Held α → Offer α × Held α
  | .load, held => (judge better v (held.seen lag), held)
  | .cas assumed, held =>
    if held.current = assumed then (.done, held.push v)
    else (judge better v held.current, held)
  | .done, held => (.done, held)

/-- What holds of an offer of `v` between two steps. -/
def Offer.Ok (held : Held α) (v : α) : Offer α → Prop
  | .load => True
  | .cas assumed => better v assumed = true ∧ assumed ∈ held.values
  | .done => better v held.current = false

/-- How many of the values are better than a given one. -/
def rank (vs : List α) (a : α) : ℕ := vs.countP fun w => better w a

/-- Steps left at most, when only the values `vs` are offered. -/
def Offer.cost (vs : List α) : Offer α → ℕ
  | .load => vs.length + 2
  | .cas assumed => rank better vs assumed + 1
  | .done => 0

variable {better} {held : Held α} {v w : α} {offer : Offer α} {vs : List α}

theorem Offer.Ok.push (hstrict : Strict better) (hbetter : better w held.current = true)
    (h : offer.Ok better held v) : offer.Ok better (held.push w) v := by
  cases offer with
  | load => trivial
  | cas assumed => exact ⟨h.1, mem_cons_of_mem _ h.2⟩
  | done =>
    by_contra hv
    have hover : better v held.current = false := h
    rw [hstrict.trans (Bool.of_not_eq_false hv) hbetter] at hover
    cases hover

theorem judge_ok (hstrict : Strict better) (hsorted : held.Sorted better) {old : α}
    (hold : old ∈ held.values) : (judge better v old).Ok better held v := by
  rw [judge]
  by_cases hbetter : better v old = true
  · rw [if_pos hbetter]
    exact ⟨hbetter, hold⟩
  · rw [if_neg hbetter]
    exact hsorted.not_better_current hstrict hold (Bool.of_not_eq_true hbetter)

theorem judge_cost_le (better : α → α → Bool) (vs : List α) (v old : α) :
    (judge better v old).cost better vs ≤ rank better vs old + 1 := by
  rw [judge]
  split
  · exact Nat.le_refl _
  · exact Nat.zero_le _

theorem rank_lt (hstrict : Strict better) {a b : α} (hbetter : better a b = true) (ha : a ∈ vs) :
    rank better vs a < rank better vs b := by
  have hmono : ∀ ws : List α, rank better ws a ≤ rank better ws b := fun ws =>
    countP_mono_left fun w _ hw => hstrict.trans hw hbetter
  obtain ⟨before, after, rfl⟩ := append_of_mem ha
  have hbefore := hmono before
  have hafter := hmono after
  simp only [rank, countP_append, countP_cons, hstrict.irrefl, hbetter] at hbefore hafter ⊢
  simp only [Bool.false_eq_true, if_false, if_true]
  omega

/-- **One step of an offer**: it stays right, writes nothing but a better value, and comes
closer to its end. -/
theorem step_spec [DecidableEq α] (hstrict : Strict better) (hsorted : held.Sorted better)
    (hok : offer.Ok better held v) (hwritten : ∀ w ∈ held.written, w ∈ vs) (lag : ℕ) :
    (step better lag v offer held).1.Ok better (step better lag v offer held).2 v ∧
    ((step better lag v offer held).2 = held ∨
      (step better lag v offer held).2 = held.push v ∧ better v held.current = true) ∧
    (offer ≠ .done →
      (step better lag v offer held).1.cost better vs < offer.cost better vs) := by
  cases offer with
  | load =>
    refine ⟨judge_ok hstrict hsorted (held.seen_mem lag), .inl rfl, fun _ => ?_⟩
    have hle := judge_cost_le better vs v (held.seen lag)
    have hrank : rank better vs (held.seen lag) ≤ vs.length := countP_le_length
    show (judge better v (held.seen lag)).cost better vs < vs.length + 2
    omega
  | cas assumed =>
    obtain ⟨hbetter, hassumed⟩ := hok
    rw [step]
    by_cases hcurrent : held.current = assumed
    · rw [if_pos hcurrent]
      exact ⟨hstrict.irrefl v, .inr ⟨rfl, hcurrent ▸ hbetter⟩, fun _ => Nat.succ_pos _⟩
    · rw [if_neg hcurrent]
      refine ⟨judge_ok hstrict hsorted held.current_mem, .inl rfl, fun _ => ?_⟩
      -- the swap has met a value that is better than the one it expected
      have hnewer := (hsorted.current_better hassumed).resolve_left fun h => hcurrent h.symm
      have hmem := hwritten _ (Held.current_mem_written hassumed hcurrent)
      have hle := judge_cost_le better vs v held.current
      have hlt := rank_lt hstrict hnewer hmem
      show (judge better v held.current).cost better vs < rank better vs assumed + 1
      omega
  | done => exact ⟨hok, .inl rfl, fun h => absurd rfl h⟩

end CasExtremum
