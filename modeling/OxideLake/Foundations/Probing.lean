import Mathlib

/-!
# Linear probing

The walk of an open-addressing table: from a home slot, one slot further at a time,
around a ring of `capacity` slots.  `Passed P` says that a walk has left only slots
behind that satisfy `P`.  Two walks from one home that both stop at a slot outside
`P` stop at the same one, and a walk once around the ring has seen every slot.
-/

namespace Probing

variable {capacity home : ℕ}

/-- The slot `p` probes from home. -/
def position (capacity home p : ℕ) : ℕ := (home + p) % capacity

theorem position_lt (hcap : 0 < capacity) (p : ℕ) : position capacity home p < capacity :=
  Nat.mod_lt _ hcap

theorem position_zero (h : home < capacity) : position capacity home 0 = home :=
  Nat.mod_eq_of_lt h

theorem position_succ (p : ℕ) :
    position capacity home (p + 1) = (position capacity home p + 1) % capacity := by
  rw [position, position, Nat.mod_add_mod, Nat.add_assoc]

theorem position_succ_mask {bits : ℕ} (p : ℕ) :
    (position (2 ^ bits) home p + 1) &&& (2 ^ bits - 1) = position (2 ^ bits) home (p + 1) := by
  rw [Nat.and_two_pow_sub_one_eq_mod, position_succ]

theorem position_injOn {p q : ℕ} (hp : p < capacity) (hq : q < capacity)
    (h : position capacity home p = position capacity home q) : p = q := by
  have hmod : p % capacity = q % capacity := Nat.ModEq.add_left_cancel' home h
  rwa [Nat.mod_eq_of_lt hp, Nat.mod_eq_of_lt hq] at hmod

theorem exists_position (hhome : home < capacity) {slot : ℕ} (h : slot < capacity) :
    ∃ p < capacity, position capacity home p = slot := by
  rcases Nat.lt_or_ge slot home with hlt | hge
  · refine ⟨slot + capacity - home, by omega, ?_⟩
    rw [position, show home + (slot + capacity - home) = slot + capacity by omega,
      Nat.add_mod_right, Nat.mod_eq_of_lt h]
  · refine ⟨slot - home, by omega, ?_⟩
    rw [position, Nat.add_sub_of_le hge, Nat.mod_eq_of_lt h]

/-! ## Walks -/

/-- The first `p` slots from home satisfy `P`. -/
def Passed (P : ℕ → Prop) (capacity home p : ℕ) : Prop :=
  ∀ q < p, P (position capacity home q)

section Walks

variable {P Q : ℕ → Prop} {p p' : ℕ}

theorem passed_zero : Passed P capacity home 0 := fun _ h => absurd h (Nat.not_lt_zero _)

theorem passed_succ : Passed P capacity home (p + 1) ↔
    Passed P capacity home p ∧ P (position capacity home p) := by
  constructor
  · exact fun h => ⟨fun q hq => h q (by omega), h p (by omega)⟩
  · rintro ⟨h, hp⟩ q hq
    rcases Nat.lt_succ_iff_lt_or_eq.mp hq with hq | rfl
    · exact h q hq
    · exact hp

theorem Passed.mono (h : Passed P capacity home p) (himp : ∀ slot, P slot → Q slot) :
    Passed Q capacity home p := fun q hq => himp _ (h q hq)

/-- **A walk stops at one place**: two walks from one home that passed only `P` and
stand at slots outside `P` have gone equally far. -/
theorem Passed.eq_of_not (h : Passed P capacity home p) (h' : Passed P capacity home p')
    (hstop : ¬ P (position capacity home p)) (hstop' : ¬ P (position capacity home p')) :
    p = p' := by
  rcases Nat.lt_trichotomy p p' with hlt | heq | hlt
  · exact absurd (h' p hlt) hstop
  · exact heq
  · exact absurd (h p' hlt) hstop'

theorem Passed.all (h : Passed P capacity home capacity) (hhome : home < capacity) {slot : ℕ}
    (hslot : slot < capacity) : P slot := by
  obtain ⟨p, hp, rfl⟩ := exists_position hhome hslot
  exact h p hp

end Walks

end Probing
