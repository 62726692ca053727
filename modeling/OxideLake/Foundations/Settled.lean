import OxideLake.Foundations.Partial

/-!
# Computations settled by a condition

A computation over `Except` is *settled* by a condition when it succeeds exactly if the condition
holds: with a value of which something is known, and otherwise with an error of a given kind.
Settled computations compose: a sequence is settled by the conjunction of the conditions of its
steps, a traversal by the conditions of all its elements.
-/

namespace Partial

variable {ε α β ι : Type}

variable {f : ι → Except ε β}

/-- `x` succeeds exactly if `cond` holds, then with a value in `post`, and otherwise with an error
in `fails`. -/
def Settled (fails : ε → Prop) (cond : Prop) (x : Except ε α) (post : α → Prop) : Prop :=
  (cond → ∃ a, x = .ok a ∧ post a) ∧ (¬ cond → ∃ e, x = .error e ∧ fails e)

namespace Settled

variable {fails : ε → Prop} {cond cond' : Prop} {x : Except ε α} {post post' : α → Prop}

theorem ok {a : α} (hcond : cond) (h : post a) : Settled fails cond (.ok a) post :=
  ⟨fun _ => ⟨a, rfl, h⟩, fun hnot => absurd hcond hnot⟩

theorem error {e : ε} (hcond : ¬ cond) (h : fails e) :
    Settled fails cond (.error e : Except ε α) post :=
  ⟨fun hc => absurd hc hcond, fun _ => ⟨e, rfl, h⟩⟩

theorem congr (h : Settled fails cond x post) (hcond : cond ↔ cond')
    (hpost : ∀ a, post a → post' a) : Settled fails cond' x post' := by
  refine ⟨fun hc => ?_, fun hc => h.2 (mt hcond.mp hc)⟩
  obtain ⟨a, ha, hpa⟩ := h.1 (hcond.mpr hc)
  exact ⟨a, ha, hpost a hpa⟩

theorem imp (h : Settled fails cond x post) (hpost : ∀ a, post a → post' a) :
    Settled fails cond x post' :=
  h.congr Iff.rfl hpost

theorem bind {f : α → Except ε β} {after : β → Prop} (h : Settled fails cond x post)
    (hf : ∀ a, cond → post a → Settled fails cond' (f a) after) :
    Settled fails (cond ∧ cond') (x >>= f) after := by
  by_cases hc : cond
  · obtain ⟨a, rfl, ha⟩ := h.1 hc
    exact (hf a hc ha).congr (and_iff_right hc).symm fun _ => id
  · obtain ⟨e, rfl, he⟩ := h.2 hc
    exact error (fun hboth => hc hboth.1) he

theorem bind_eq {f : α → Except ε β} {after : β → Prop} {a : α}
    (h : Settled fails cond x (· = a)) (hf : Settled fails cond' (f a) after) :
    Settled fails (cond ∧ cond') (x >>= f) after :=
  h.bind fun _ _ hb => hb ▸ hf

/-- **Traversal** of elements described by those of another list. -/
theorem mapM_of_forall₂ {γ : Type} {R : γ → ι → Prop} {conds : γ → Prop} {posts : γ → β → Prop}
    {xs : List γ} {ys : List ι} (hxy : List.Forall₂ R xs ys)
    (h : ∀ x ∈ xs, ∀ y, R x y → Settled fails (conds x) (f y) (posts x)) :
    Settled fails (∀ x ∈ xs, conds x) (ys.mapM f) (List.Forall₂ posts xs) := by
  induction hxy with
  | nil => exact ok (by simp) .nil
  | @cons x y xs ys hxy _ ih =>
    rw [List.mapM_cons]
    have hrest := ih fun x hx => h x (List.mem_cons_of_mem _ hx)
    refine ((h x List.mem_cons_self y hxy).bind fun z _ hz => hrest.bind fun zs _ hzs =>
      ok trivial (.cons hz hzs)).congr ?_ fun _ => id
    rw [and_true, List.forall_mem_cons]

theorem mapM {conds : ι → Prop} {posts : ι → β → Prop} {xs : List ι}
    (h : ∀ x ∈ xs, Settled fails (conds x) (f x) (posts x)) :
    Settled fails (∀ x ∈ xs, conds x) (xs.mapM f) (List.Forall₂ posts xs) :=
  mapM_of_forall₂ (List.forall₂_same.mpr fun _ _ => rfl) fun x hx _ hxy => hxy ▸ h x hx

theorem mapM_eq {g : ι → β} {conds : ι → Prop} {xs : List ι}
    (h : ∀ x ∈ xs, Settled fails (conds x) (f x) (· = g x)) :
    Settled fails (∀ x ∈ xs, conds x) (xs.mapM f) (· = xs.map g) := by
  refine (mapM h).imp fun ys hys => ?_
  have hmap : List.Forall₂ Eq (xs.map g) ys :=
    List.forall₂_map_left_iff.mpr (hys.imp fun _ _ => Eq.symm)
  exact (List.forall₂_eq_eq_eq ▸ hmap).symm

theorem of_ok (h : Settled fails cond x post) {a : α} (hx : x = .ok a) : post a := by
  by_cases hc : cond
  · obtain ⟨b, hb, hpost⟩ := h.1 hc
    rw [hx] at hb
    cases hb
    exact hpost
  · obtain ⟨e, he, -⟩ := h.2 hc
    rw [hx] at he
    cases he

end Settled

end Partial
