import OxideLake.Foundations.Partial

/-!
# Two runs side by side

Rules for comparing two runs of a partial computation on related inputs.  `SameRun R x y` says
that the runs look the same from outside: both return, with results related by `R`, or both fail
with one error.  The rule for a bind follows the computation (`SameRun.bind`); the rules for
loops take the bodies to agree at the elements the loop meets.
-/

namespace TwoRuns

open List

universe v w

variable {ι : Type w} {α α' β β' : Type} {ε : Type v}

variable {xs : List ι}

/-! ## Computations that may fail -/

/-- Both runs return related results, or both fail with the same error. -/
inductive SameRun (R : α → α' → Prop) : Except ε α → Except ε α' → Prop where
  | ok {a : α} {b : α'} (h : R a b) : SameRun R (.ok a) (.ok b)
  | error (e : ε) : SameRun R (.error e) (.error e)

namespace SameRun

variable {R : α → α' → Prop} {S : β → β' → Prop}

theorem bind {x : Except ε α} {y : Except ε α'} {f : α → Except ε β} {g : α' → Except ε β'}
    (h : SameRun R x y) (hf : ∀ a b, R a b → SameRun S (f a) (g b)) :
    SameRun S (x >>= f) (y >>= g) := by
  cases h with
  | ok hab => exact hf _ _ hab
  | error e => exact .error e

theorem refl (x : Except ε α) : SameRun Eq x x := by
  cases x with
  | ok a => exact .ok rfl
  | error e => exact .error e

theorem eq {x y : Except ε α} (h : SameRun Eq x y) : x = y := by
  cases h with
  | ok hab => exact congrArg Except.ok hab
  | error e => rfl

end SameRun

theorem bind_unless_congr {x : Except ε Bool} {early rest rest' : Except ε β}
    (h : x = .ok false → rest = rest') :
    (x >>= fun found => if found then early else rest) =
      (x >>= fun found => if found then early else rest') := by
  cases x with
  | error e => rfl
  | ok found =>
    cases found with
    | true => rfl
    | false => exact h rfl

/-! ## Loops -/

theorem mapM_congr {f g : ι → Except ε β} (h : ∀ x ∈ xs, f x = g x) :
    xs.mapM f = xs.mapM g := by
  induction xs with
  | nil => rfl
  | cons x xs ih =>
    rw [mapM_cons, mapM_cons, h x mem_cons_self,
      ih fun y hy => h y (mem_cons_of_mem _ hy)]

theorem foldlM_congr {f g : β → ι → Option β} (h : ∀ x ∈ xs, ∀ b, f b x = g b x) (init : β) :
    xs.foldlM f init = xs.foldlM g init := by
  induction xs generalizing init with
  | nil => rfl
  | cons x xs ih =>
    rw [foldlM_cons, foldlM_cons, h x mem_cons_self]
    exact bind_congr fun b => ih (fun y hy => h y (mem_cons_of_mem _ hy)) b

/-! ## Optional values -/

section Rel

variable {R : β → β' → Prop}

theorem isSome_eq_of_rel {x : Option β} {y : Option β'} (h : Option.Rel R x y) :
    x.isSome = y.isSome := by
  cases h <;> rfl

theorem rel_mapM {f : ι → Option β} {g : ι → Option β'} (h : ∀ x ∈ xs, Option.Rel R (f x) (g x)) :
    Option.Rel (List.Forall₂ R) (xs.mapM f) (xs.mapM g) := by
  induction xs with
  | nil => exact .some .nil
  | cons x xs ih =>
    have hhead := h x mem_cons_self
    have htail := ih fun y hy => h y (mem_cons_of_mem _ hy)
    rw [mapM_cons, mapM_cons]
    generalize f x = fx, g x = gx at hhead
    generalize xs.mapM f = fs, xs.mapM g = gs at htail
    cases hhead with
    | none => exact .none
    | some hx =>
      cases htail with
      | none => exact .none
      | some hxs => exact .some (.cons hx hxs)

end Rel

theorem forall₂_set {R : ι → ι → Prop} (hrefl : ∀ x, R x x) {i : ℕ} {y : ι}
    (h : ∀ x, xs[i]? = some x → R x y) : List.Forall₂ R xs (xs.set i y) := by
  induction xs generalizing i with
  | nil => exact .nil
  | cons x xs ih =>
    cases i with
    | zero => exact .cons (h x rfl) (forall₂_same.mpr fun x _ => hrefl x)
    | succ i => exact .cons (hrefl x) (ih h)

end TwoRuns
