import Mathlib

/-!
# While loops

One evaluation of a loop's condition and body either leaves the loop with a result or goes
round again with a new state.  `Leaves` is what such a loop does, without a bound on its
rounds: a loop that never leaves has no result.

A model that has to compute gives the loop a bound.  `leaves_of_variant` is the rule for it:
an invariant and a variant that every round lowers show that the loop leaves, and that a
bound no smaller than the variant does not cut it short.
-/

namespace WhileLoop

universe u v

variable {σ : Type u} {ρ : Type v} {body : σ → ρ ⊕ σ}

/-- From a state, the loop goes round so many times and then leaves with a result. -/
inductive Leaves (body : σ → ρ ⊕ σ) : σ → ℕ → ρ → Prop
  | now {s : σ} {r : ρ} (h : body s = .inl r) : Leaves body s 0 r
  | again {s s' : σ} {n : ℕ} {r : ρ} (h : body s = .inr s') (rest : Leaves body s' n r) :
      Leaves body s (n + 1) r

/-- What one evaluation of the body has to establish. -/
def Step (Inv : σ → Prop) (Post : ρ → Prop) (variant : σ → ℕ) (s : σ) : ρ ⊕ σ → Prop
  | .inl r => Post r
  | .inr s' => Inv s' ∧ variant s' < variant s

/-- **The rule of the bounded loop.**  `bounded fuel` unfolds like the loop and may stop early
only where its bound is used up.  With an invariant, and a variant that is zero only where the
loop is left, every bound from the variant on gives the loop's own result. -/
theorem leaves_of_variant {Inv : σ → Prop} {Post : ρ → Prop} {variant : σ → ℕ}
    (hbody : ∀ s, Inv s → Step Inv Post variant s (body s)) (bounded : ℕ → σ → ρ)
    (hzero : ∀ s, variant s = 0 → body s = .inl (bounded 0 s))
    (hsucc : ∀ fuel s, bounded (fuel + 1) s = (body s).elim id (bounded fuel)) (fuel : ℕ) :
    ∀ s, Inv s → variant s ≤ fuel →
      (∃ n ≤ variant s, Leaves body s n (bounded fuel s)) ∧ Post (bounded fuel s) := by
  induction fuel with
  | zero =>
    intro s hs hfuel
    have hleft := hzero s (Nat.le_zero.mp hfuel)
    have hstep := hbody s hs
    rw [hleft] at hstep
    exact ⟨⟨0, Nat.zero_le _, .now hleft⟩, hstep⟩
  | succ fuel ih =>
    intro s hs hfuel
    have hstep := hbody s hs
    rw [hsucc]
    cases hround : body s with
    | inl r =>
      rw [hround] at hstep
      exact ⟨⟨0, Nat.zero_le _, .now hround⟩, hstep⟩
    | inr s' =>
      rw [hround] at hstep
      obtain ⟨hs', hless⟩ := hstep
      obtain ⟨⟨n, hn, hrest⟩, hpost⟩ := ih s' hs' (by omega)
      exact ⟨⟨n + 1, by omega, .again hround hrest⟩, hpost⟩

end WhileLoop
