import Mathlib

/-!
# Interleavings of threads over a shared memory

A configuration holds a shared memory and the local state of every thread.  One
atomic step of a thread reads and writes the memory and moves that thread alone.  A
run applies the steps of a schedule in order, so quantifying over schedules
quantifies over all interleavings under sequential consistency.

Three rules are proved.  An invariant of every step holds along every run
(`run_invariant`).  When each step either changes nothing or lowers what the memory and
its thread still cost, and some thread can always move until the end, every fair
schedule reaches the end (`terminates_of_fair_shared`).  When the effects of the threads on the
memory commute, what a finished run leaves is the fold of all effects, whatever the
schedule (`Accounts.eq_foldl`).
-/

namespace Interleaving

universe u v w

variable {ι : Type u} {M : Type v} {L : Type w}

variable {live : Finset ι}

/-- A shared memory and the local state of every thread. -/
structure Config (ι : Type u) (M : Type v) (L : Type w) where
  memory : M
  thread : ι → L

/-- One atomic step of a thread: its next local state and the memory it leaves. -/
abbrev ThreadStep (ι : Type u) (M : Type v) (L : Type w) := ι → L → M → L × M

variable [DecidableEq ι]

/-- The step of thread `i`. -/
def stepAt (step : ThreadStep ι M L) (c : Config ι M L) (i : ι) : Config ι M L :=
  let next := step i (c.thread i) c.memory
  ⟨next.2, Function.update c.thread i next.1⟩

/-- The steps of a schedule, in order. -/
def run (step : ThreadStep ι M L) (c : Config ι M L) (schedule : List ι) : Config ι M L :=
  schedule.foldl (stepAt step) c

section Steps

variable {step : ThreadStep ι M L} {c : Config ι M L} {i j : ι}

@[simp] theorem stepAt_memory :
    (stepAt step c i).memory = (step i (c.thread i) c.memory).2 := rfl

@[simp] theorem stepAt_thread_self :
    (stepAt step c i).thread i = (step i (c.thread i) c.memory).1 :=
  Function.update_self ..

theorem stepAt_thread_of_ne (h : j ≠ i) : (stepAt step c i).thread j = c.thread j :=
  Function.update_of_ne h ..

theorem stepAt_eq_self (h : step i (c.thread i) c.memory = (c.thread i, c.memory)) :
    stepAt step c i = c := by
  unfold stepAt
  rw [h]
  simp

theorem run_append (schedule schedule' : List ι) :
    run step c (schedule ++ schedule') = run step (run step c schedule) schedule' :=
  List.foldl_append

/-- **Run lemma.**  What every step keeps, every run keeps. -/
theorem run_invariant {Inv : Config ι M L → Prop}
    (hstep : ∀ c i, Inv c → Inv (stepAt step c i)) (hc : Inv c) (schedule : List ι) :
    Inv (run step c schedule) := by
  induction schedule generalizing c with
  | nil => exact hc
  | cons i schedule ih => exact ih (hstep c i hc)

/-- What every thread relies on the memory for: a step has to re-establish it for its own
thread and must not disturb it for any other. -/
theorem stepAt_relies {Rely : M → ι → L → Prop}
    (hself : Rely (stepAt step c i).memory i ((stepAt step c i).thread i))
    (hothers : ∀ j l, Rely c.memory j l → Rely (stepAt step c i).memory j l)
    (hc : ∀ j, Rely c.memory j (c.thread j)) (j : ι) :
    Rely (stepAt step c i).memory j ((stepAt step c i).thread j) := by
  by_cases hj : j = i
  · rw [hj]
    exact hself
  · rw [stepAt_thread_of_ne hj]
    exact hothers j _ (hc j)

end Steps

/-! ## Fair schedules end -/

/-- The first `t` steps of an infinite schedule. -/
def upTo (schedule : ℕ → ι) (t : ℕ) : List ι := (List.range t).map schedule

/-- Every thread of `live` is scheduled again and again. -/
def Fair (live : Finset ι) (schedule : ℕ → ι) : Prop :=
  ∀ i ∈ live, ∀ t, ∃ t', t ≤ t' ∧ schedule t' = i

section Fairness

variable {step : ThreadStep ι M L} {schedule : ℕ → ι} {c : Config ι M L}

omit [DecidableEq ι] in
theorem upTo_succ (schedule : ℕ → ι) (t : ℕ) :
    upTo schedule (t + 1) = upTo schedule t ++ [schedule t] := by
  rw [upTo, List.range_succ, List.map_append]
  rfl

theorem run_upTo_succ (t : ℕ) :
    run step c (upTo schedule (t + 1)) = stepAt step (run step c (upTo schedule t))
      (schedule t) := by
  rw [upTo_succ, run_append]
  rfl

/-- The weight of a configuration: the sum over its live threads. -/
def weight (cost : L → ℕ) (live : Finset ι) (c : Config ι M L) : ℕ :=
  ∑ i ∈ live, cost (c.thread i)

/-- A step changes the weight by the cost of its thread. -/
theorem weight_stepAt {cost : L → ℕ} {i : ι} (hi : i ∈ live) :
    weight cost live (stepAt step c i) + cost (c.thread i) =
      weight cost live c + cost ((stepAt step c i).thread i) := by
  have hothers : ∑ j ∈ live.erase i, cost ((stepAt step c i).thread j) =
      ∑ j ∈ live.erase i, cost (c.thread j) :=
    Finset.sum_congr rfl fun j hj => by rw [stepAt_thread_of_ne (Finset.ne_of_mem_erase hj)]
  rw [weight, weight, ← Finset.add_sum_erase live _ hi, ← Finset.add_sum_erase live _ hi, hothers]
  omega

/-- Steps that change nothing. -/
theorem run_eq_of_stutter {t t' : ℕ} (hle : t ≤ t')
    (h : ∀ k, t ≤ k → k < t' →
      stepAt step (run step c (upTo schedule k)) (schedule k) = run step c (upTo schedule k)) :
    run step c (upTo schedule t') = run step c (upTo schedule t) := by
  induction t', hle using Nat.le_induction with
  | base => rfl
  | succ k hle ih =>
    rw [run_upTo_succ, h k hle (Nat.lt_succ_self k)]
    exact ih fun k' hk' hlt => h k' hk' (Nat.lt_succ_of_lt hlt)

/-- **Fair termination.**  Every step changes nothing or lowers what the memory and its
thread still cost, and before the end some live thread can move: then every fair
schedule reaches the end. -/
theorem terminates_of_fair_shared {Inv Final : Config ι M L → Prop} (held : M → ℕ) (cost : L → ℕ)
    (hinv : ∀ c i, Inv c → Inv (stepAt step c i))
    (hstep : ∀ c i, Inv c → stepAt step c i = c ∨ i ∈ live ∧
      held (stepAt step c i).memory + cost ((stepAt step c i).thread i) <
        held c.memory + cost (c.thread i))
    (hprogress : ∀ c, Inv c → ¬ Final c → ∃ i ∈ live, stepAt step c i ≠ c)
    (hfair : Fair live schedule) (hc : Inv c) :
    ∃ t, Final (run step c (upTo schedule t)) := by
  let total : Config ι M L → ℕ := fun c => held c.memory + weight cost live c
  have hlower : ∀ c i, Inv c → stepAt step c i ≠ c → total (stepAt step c i) < total c := by
    intro c i h hmoves
    obtain ⟨hi, hlt⟩ := (hstep c i h).resolve_left hmoves
    have hweight : weight cost live (stepAt step c i) + cost (c.thread i) =
        weight cost live c + cost ((stepAt step c i).thread i) := weight_stepAt hi
    show held _ + weight cost live _ < held _ + weight cost live _
    omega
  have hrun : ∀ t, Inv (run step c (upTo schedule t)) := fun t =>
    run_invariant hinv hc (upTo schedule t)
  -- from any time on, the end is reached or the total drops
  have hdrop : ∀ t, ¬ Final (run step c (upTo schedule t)) → ∃ t',
      total (run step c (upTo schedule t')) < total (run step c (upTo schedule t)) := by
    intro t hfinal
    obtain ⟨i, hi, hmoves⟩ := hprogress _ (hrun t) hfinal
    obtain ⟨t', hle, hscheduled⟩ := hfair i hi t
    by_cases hquiet : ∀ k, t ≤ k → k < t' →
        stepAt step (run step c (upTo schedule k)) (schedule k) = run step c (upTo schedule k)
    · -- nothing moved before the thread that can
      refine ⟨t' + 1, ?_⟩
      rw [run_upTo_succ, hscheduled, run_eq_of_stutter hle hquiet]
      exact hlower _ i (hrun t) hmoves
    · -- the first step that changed something
      have hex : ∃ k, t ≤ k ∧ k < t' ∧ stepAt step (run step c (upTo schedule k)) (schedule k) ≠
          run step c (upTo schedule k) := by
        push Not at hquiet
        exact hquiet
      classical
      obtain ⟨hkle, -, hkmoves⟩ := Nat.find_spec hex
      have hsame := run_eq_of_stutter hkle fun k hk hlt => by
        by_contra hne
        have := Nat.find_spec hex
        exact Nat.find_min hex hlt ⟨hk, by omega, hne⟩
      refine ⟨Nat.find hex + 1, ?_⟩
      rw [run_upTo_succ, ← hsame]
      exact hlower _ _ (hrun _) hkmoves
  -- the total cannot drop for ever
  suffices h : ∀ n t, total (run step c (upTo schedule t)) = n →
      ∃ t', Final (run step c (upTo schedule t')) from h _ 0 rfl
  intro n
  induction n using Nat.strong_induction_on with
  | _ n ih =>
    intro t hn
    by_cases hfinal : Final (run step c (upTo schedule t))
    · exact ⟨t, hfinal⟩
    · obtain ⟨t', hlt⟩ := hdrop t hfinal
      exact ih _ (hn ▸ hlt) t' rfl

/-- **Every task returns.**  Where only a thread that has returned can step without effect,
every fair schedule lets all live threads return. -/
theorem returns_of_fair_shared (held : M → ℕ) (cost : L → ℕ) (returned : L → Bool)
    {Inv : Config ι M L → Prop} (hinv : ∀ c i, Inv c → Inv (stepAt step c i))
    (hstep : ∀ c i, Inv c → stepAt step c i = c ∧ returned (c.thread i) = true ∨ i ∈ live ∧
      held (stepAt step c i).memory + cost ((stepAt step c i).thread i) <
        held c.memory + cost (c.thread i)) (hfair : Fair live schedule) (hc : Inv c) :
    ∃ t, ∀ i ∈ live, returned ((run step c (upTo schedule t)).thread i) = true := by
  let Final : Config ι M L → Prop := fun c => ∀ i ∈ live, returned (c.thread i) = true
  suffices hprogress : ∀ c, Inv c → ¬ Final c → ∃ i ∈ live, stepAt step c i ≠ c from
    terminates_of_fair_shared held cost hinv (fun c i h => (hstep c i h).imp_left And.left)
      hprogress hfair hc
  intro c h hrunning
  obtain ⟨i, hnot⟩ := not_forall.mp hrunning
  obtain ⟨hi, hnot⟩ := Classical.not_imp.mp hnot
  refine ⟨i, hi, fun hsame => ?_⟩
  rcases hstep c i h with ⟨-, hdone⟩ | ⟨-, hlt⟩
  · exact hnot hdone
  · rw [hsame] at hlt
    exact lt_irrefl _ hlt

/-- **Wait-free termination**: the same where every step is paid for by its thread. -/
theorem returns_of_fair (cost : L → ℕ) (returned : L → Bool) {Inv : Config ι M L → Prop}
    (hinv : ∀ c i, Inv c → Inv (stepAt step c i))
    (hstep : ∀ c i, Inv c → stepAt step c i = c ∧ returned (c.thread i) = true ∨
      i ∈ live ∧ cost ((stepAt step c i).thread i) < cost (c.thread i)) (hfair : Fair live schedule)
    (hc : Inv c) :
    ∃ t, ∀ i ∈ live, returned ((run step c (upTo schedule t)).thread i) = true :=
  returns_of_fair_shared (fun _ => 0) cost returned hinv
    (fun c i h => (hstep c i h).imp_right fun ⟨hi, hlt⟩ => ⟨hi, by omega⟩) hfair hc

end Fairness

/-! ## Commuting effects -/

section Effects

variable {A O : Type} (apply : A → O → A) [RightCommutative apply] (view : M → A)
  (pending : L → Multiset O) (live : Finset ι)

/-- The effects applied so far and those the live threads still have to apply make
up `total`. -/
def Accounts (init : A) (total : Multiset O) (c : Config ι M L) : Prop :=
  ∃ applied : Multiset O, view c.memory = applied.foldl apply init ∧
    applied + ∑ i ∈ live, pending (c.thread i) = total

variable {apply view pending live} {step : ThreadStep ι M L} {c : Config ι M L} {init : A}
  {total : Multiset O}

/-- **One step** keeps the accounts. -/
theorem Accounts.stepAt {i : ι} (h : Accounts apply view pending live init total c)
    (hstep : view (stepAt step c i).memory = view c.memory ∧
        pending ((Interleaving.stepAt step c i).thread i) = pending (c.thread i) ∨
      i ∈ live ∧ ∃ op, view (Interleaving.stepAt step c i).memory = apply (view c.memory) op ∧
        pending (c.thread i) = op ::ₘ pending ((Interleaving.stepAt step c i).thread i)) :
    Accounts apply view pending live init total (Interleaving.stepAt step c i) := by
  obtain ⟨applied, hview, hsum⟩ := h
  rcases hstep with ⟨hsame, hpending⟩ | ⟨hi, op, happly, hpending⟩
  · refine ⟨applied, hsame.trans hview, ?_⟩
    rw [← hsum]
    refine congrArg _ (Finset.sum_congr rfl fun j _ => ?_)
    by_cases hj : j = i
    · rw [hj, hpending]
    · rw [stepAt_thread_of_ne hj]
  · refine ⟨applied + {op}, ?_, ?_⟩
    · rw [happly, hview, Multiset.foldl_add]
      rfl
    · have hrest : ∑ j ∈ live.erase i, pending ((Interleaving.stepAt step c i).thread j) =
          ∑ j ∈ live.erase i, pending (c.thread j) :=
        Finset.sum_congr rfl fun j hj => by rw [stepAt_thread_of_ne (Finset.ne_of_mem_erase hj)]
      rw [← hsum, ← Finset.add_sum_erase live _ hi, ← Finset.add_sum_erase live _ hi, hpending,
        hrest, ← Multiset.singleton_add]
      simp only [add_assoc]

omit [DecidableEq ι] in
/-- **A finished run leaves the fold of all effects**, whatever the schedule. -/
theorem Accounts.eq_foldl (h : Accounts apply view pending live init total c)
    (hdone : ∀ i ∈ live, pending (c.thread i) = 0) : view c.memory = total.foldl apply init := by
  obtain ⟨applied, hview, hsum⟩ := h
  rw [Finset.sum_eq_zero hdone, add_zero] at hsum
  rw [hview, hsum]

end Effects

end Interleaving
