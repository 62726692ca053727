import Mathlib

/-!
# Partial computations

Inversion rules for `Except` and for `mapM` over a list: a computation that
succeeded is taken apart into the steps that succeeded, without unfolding the
monad.
-/

namespace Partial

open List

universe u v w

variable {ι : Type w} {α β : Type u} {ε : Type v}

variable {xs : List ι} {ys : List β} {f : ι → Option β} {γ : Type v} {R : ι → γ → Prop} {x : ι}

theorem bind_eq_ok_iff {x : Except ε α} {f : α → Except ε β} {b : β} :
    (x >>= f) = .ok b ↔ ∃ a, x = .ok a ∧ f a = .ok b := by
  cases x with
  | error e | ok a => simp [bind, Except.bind]

theorem exists_bind_ok_iff {x : Except ε α} {g : α → β} :
    (∃ b, (x >>= fun a => Except.ok (g a)) = .ok b) ↔ ∃ a, x = .ok a := by
  cases x with
  | error e | ok a => simp [bind, Except.bind]

@[simp] theorem ok_bind (a : α) (f : α → Except ε β) : (Except.ok a >>= f) = f a := rfl

@[simp] theorem error_bind (e : ε) (f : α → Except ε β) :
    (Except.error e >>= f) = .error e := rfl

theorem mapM_eq_some_iff :
    xs.mapM f = some ys ↔ List.Forall₂ (fun x y => f x = some y) xs ys := by
  induction xs generalizing ys with
  | nil => simp [eq_comm]
  | cons x xs ih =>
    rw [forall₂_cons_left_iff, mapM_cons]
    simp only [Option.bind_eq_bind, Option.bind_eq_some_iff, Option.pure_def,
      Option.some.injEq]
    constructor
    · rintro ⟨y, hy, zs, hzs, rfl⟩
      exact ⟨y, zs, hy, ih.mp hzs, rfl⟩
    · rintro ⟨y, zs, hy, hzs, rfl⟩
      exact ⟨y, hy, zs, ih.mpr hzs, rfl⟩

theorem mapM_cons_eq_some_iff :
    (x :: xs).mapM f = some ys ↔
      ∃ y zs, f x = some y ∧ xs.mapM f = some zs ∧ ys = y :: zs := by
  simp only [mapM_eq_some_iff, forall₂_cons_left_iff]

theorem mapM_eq_ok_iff {f : ι → Except ε β} :
    xs.mapM f = .ok ys ↔ List.Forall₂ (fun x y => f x = .ok y) xs ys := by
  induction xs generalizing ys with
  | nil => simp [pure, Except.pure, eq_comm]
  | cons x xs ih =>
    rw [forall₂_cons_left_iff, mapM_cons, bind_eq_ok_iff]
    constructor
    · rintro ⟨y, hy, h⟩
      obtain ⟨zs, hzs, hcons⟩ := bind_eq_ok_iff.mp h
      cases hcons
      exact ⟨y, zs, hy, ih.mp hzs, rfl⟩
    · rintro ⟨y, zs, hy, hzs, rfl⟩
      exact ⟨y, hy, bind_eq_ok_iff.mpr ⟨zs, ih.mpr hzs, rfl⟩⟩

theorem mapM_eq_ok_map {f : ι → Except ε β} {g : ι → β} (h : ∀ x ∈ xs, f x = .ok (g x)) :
    xs.mapM f = .ok (xs.map g) := by
  rw [mapM_eq_ok_iff, forall₂_map_right_iff]
  exact forall₂_same.mpr h

theorem mapM_eq_some_map {g : ι → β} (h : ∀ x ∈ xs, f x = some (g x)) :
    xs.mapM f = some (xs.map g) := by
  rw [mapM_eq_some_iff, forall₂_map_right_iff]
  exact forall₂_same.mpr h

theorem forall₂_exists_left {ys : List γ} (h : List.Forall₂ R xs ys) {y : γ} (hy : y ∈ ys) :
    ∃ x ∈ xs, R x y := by
  induction h with
  | nil => cases hy
  | @cons x y' xs ys hxy _ ih =>
    rcases mem_cons.mp hy with rfl | hy
    · exact ⟨x, mem_cons_self, hxy⟩
    · obtain ⟨x', hx', hR⟩ := ih hy
      exact ⟨x', mem_cons_of_mem _ hx', hR⟩

theorem forall₂_exists_right {ys : List γ} (h : List.Forall₂ R xs ys) (hx : x ∈ xs) :
    ∃ y ∈ ys, R x y :=
  forall₂_exists_left h.flip hx

theorem forall₂_getElem? {ys : List γ} (h : List.Forall₂ R xs ys) {i : ℕ} (hx : xs[i]? = some x) :
    ∃ y, ys[i]? = some y ∧ R x y := by
  obtain ⟨hi, rfl⟩ := List.getElem?_eq_some_iff.mp hx
  have hi' : i < ys.length := h.length_eq ▸ hi
  exact ⟨ys[i], List.getElem?_eq_getElem hi', h.get hi hi'⟩

theorem forall₂_imp_mem {S : ι → γ → Prop} {ys : List γ} (h : List.Forall₂ R xs ys)
    (himp : ∀ x ∈ xs, ∀ y, R x y → S x y) : List.Forall₂ S xs ys := by
  induction h with
  | nil => exact .nil
  | @cons x y xs ys hxy _ ih =>
    exact .cons (himp x mem_cons_self y hxy) (ih fun x hx => himp x (mem_cons_of_mem _ hx))

theorem forall_right_iff {p : ι → Prop} {q : γ → Prop} {ys : List γ} (h : List.Forall₂ R xs ys)
    (hiff : ∀ x y, R x y → (q y ↔ p x)) :
    (∀ y ∈ ys, q y) ↔ ∀ x ∈ xs, p x := by
  constructor
  · intro hq x hx
    obtain ⟨y, hy, hxy⟩ := forall₂_exists_right h hx
    exact (hiff x y hxy).mp (hq y hy)
  · intro hp y hy
    obtain ⟨x, hx, hxy⟩ := forall₂_exists_left h hy
    exact (hiff x y hxy).mpr (hp x hx)

/-- Related elements are related otherwise exactly if a property of the left ones holds. -/
theorem forall₂_iff_forall {S : ι → γ → Prop} {p : ι → Prop} {ys : List γ}
    (h : List.Forall₂ R xs ys) (hiff : ∀ x y, R x y → (S x y ↔ p x)) :
    List.Forall₂ S xs ys ↔ ∀ x ∈ xs, p x := by
  induction h with
  | nil => simp
  | @cons x y xs ys hxy _ ih => rw [forall₂_cons, hiff x y hxy, ih, forall_mem_cons]

theorem forall₂_zip {ys : List γ} (h : List.Forall₂ R xs ys) :
    List.Forall₂ (fun x pair => pair.1 = x ∧ R x pair.2) xs (xs.zip ys) := by
  induction h with
  | nil => exact .nil
  | cons hxy _ ih => exact .cons ⟨rfl, hxy⟩ ih

theorem mapM_some_mem (h : xs.mapM f = some ys) {y : β} (hy : y ∈ ys) : ∃ x ∈ xs, f x = some y :=
  forall₂_exists_left (mapM_eq_some_iff.mp h) hy

theorem mapM_ok_mem {f : ι → Except ε β} (h : xs.mapM f = .ok ys) {y : β} (hy : y ∈ ys) :
    ∃ x ∈ xs, f x = .ok y :=
  forall₂_exists_left (mapM_eq_ok_iff.mp h) hy

theorem mapM_some_of_mem (h : xs.mapM f = some ys) (hx : x ∈ xs) : ∃ y, f x = some y := by
  obtain ⟨y, -, hy⟩ := forall₂_exists_right (mapM_eq_some_iff.mp h) hx
  exact ⟨y, hy⟩

theorem mapM_ok_of_mem {f : ι → Except ε β} (h : xs.mapM f = .ok ys) (hx : x ∈ xs) :
    ∃ y, f x = .ok y := by
  obtain ⟨y, -, hy⟩ := forall₂_exists_right (mapM_eq_ok_iff.mp h) hx
  exact ⟨y, hy⟩

theorem mapM_ok_of_forall {f : ι → Except ε β} (h : ∀ x ∈ xs, ∃ y, f x = .ok y) :
    ∃ ys, xs.mapM f = .ok ys := by
  induction xs with
  | nil => exact ⟨[], rfl⟩
  | cons x xs ih =>
    obtain ⟨y, hy⟩ := h x mem_cons_self
    obtain ⟨ys, hys⟩ := ih fun x' hx' => h x' (mem_cons_of_mem _ hx')
    exact ⟨y :: ys, mapM_eq_ok_iff.mpr (.cons hy (mapM_eq_ok_iff.mp hys))⟩

theorem mapM_eq_ok_map_or_error {f : ι → Except ε β} {g : ι → β} {e : ε}
    (h : ∀ x ∈ xs, f x = .ok (g x) ∨ f x = .error e) :
    xs.mapM f = .ok (xs.map g) ∨ xs.mapM f = .error e ∧ ∃ x ∈ xs, f x = .error e := by
  induction xs with
  | nil => exact .inl rfl
  | cons x xs ih =>
    rw [mapM_cons, map_cons]
    rcases h x mem_cons_self with hx | hx
    · rcases ih fun x' hx' => h x' (mem_cons_of_mem _ hx') with hxs | ⟨hxs, x', hx', herror⟩
      · exact .inl (by rw [hx, hxs]; rfl)
      · exact .inr ⟨by rw [hx, hxs]; rfl, x', mem_cons_of_mem _ hx', herror⟩
    · exact .inr ⟨by rw [hx]; rfl, x, mem_cons_self, hx⟩

theorem mapM_ok_forall₂ {f : ι → Except ε β} {P : ι → β → Prop}
    (h : ∀ x ∈ xs, ∃ y, f x = .ok y ∧ P x y) :
    ∃ ys, xs.mapM f = .ok ys ∧ List.Forall₂ P xs ys := by
  induction xs with
  | nil => exact ⟨[], rfl, .nil⟩
  | cons x xs ih =>
    obtain ⟨y, hy, hP⟩ := h x mem_cons_self
    obtain ⟨ys, hys, hPs⟩ := ih fun x' hx' => h x' (mem_cons_of_mem _ hx')
    exact ⟨y :: ys, by rw [mapM_cons, hy, ok_bind, hys]; rfl, .cons hP hPs⟩

theorem mapM_forall₂_or_error {f : ι → Except ε β} {P : ι → β → Prop} {e : ε}
    (h : ∀ x ∈ xs, (∃ y, f x = .ok y ∧ P x y) ∨ f x = .error e) :
    (∃ ys, xs.mapM f = .ok ys ∧ List.Forall₂ P xs ys) ∨ xs.mapM f = .error e := by
  induction xs with
  | nil => exact .inl ⟨[], rfl, .nil⟩
  | cons x xs ih =>
    rw [mapM_cons]
    rcases h x mem_cons_self with ⟨y, hy, hP⟩ | hx
    · rw [hy, ok_bind]
      rcases ih fun x' hx' => h x' (mem_cons_of_mem _ hx') with ⟨ys, hys, hPs⟩ | hxs
      · exact .inl ⟨y :: ys, by rw [hys]; rfl, .cons hP hPs⟩
      · exact .inr (by rw [hxs]; rfl)
    · exact .inr (by rw [hx]; rfl)

theorem mapM_getElem?_eq_some {xs : List α} {indices : List ℕ} :
    (∃ ys, indices.mapM (fun i => xs[i]?) = some ys) ↔ ∀ i ∈ indices, i < xs.length := by
  constructor
  · rintro ⟨ys, h⟩ i hi
    obtain ⟨y, hy⟩ := mapM_some_of_mem h hi
    exact (List.getElem?_eq_some_iff.mp hy).1
  · intro h
    induction indices with
    | nil => exact ⟨[], rfl⟩
    | cons i indices ih =>
      obtain ⟨ys, hys⟩ := ih fun j hj => h j (mem_cons_of_mem _ hj)
      have hi := h i mem_cons_self
      exact ⟨xs[i] :: ys, by simp [hys, List.getElem?_eq_getElem hi]⟩

theorem mapM_some_getElem? (h : xs.mapM f = some ys) (k : ℕ) : ys[k]? = (xs[k]?).bind f := by
  rw [mapM_eq_some_iff] at h
  induction h generalizing k with
  | nil => simp
  | @cons x y xs ys hxy _ ih =>
    cases k with
    | zero => simp [hxy]
    | succ k => simpa using ih k

theorem mapM_some_map_eq {γ : Type u} {g : ι → γ} {g' : β → γ} (h : xs.mapM f = some ys)
    (hstep : ∀ x y, f x = some y → g' y = g x) : ys.map g' = xs.map g := by
  rw [mapM_eq_some_iff] at h
  induction h with
  | nil => rfl
  | @cons x y xs ys hxy _ ih => rw [map_cons, map_cons, ih, hstep x y hxy]

theorem foldlM_some_of_mem {f : β → ι → Option β} {init final : β}
    (h : xs.foldlM f init = some final) (hx : x ∈ xs) : ∃ b b', f b x = some b' := by
  induction xs generalizing init with
  | nil => cases hx
  | cons y xs ih =>
    rw [foldlM_cons] at h
    obtain ⟨next, hnext, hrest⟩ := Option.bind_eq_some_iff.mp h
    rcases mem_cons.mp hx with rfl | hx
    · exact ⟨init, next, hnext⟩
    · exact ih hrest hx

theorem mapM_some_length (h : xs.mapM f = some ys) : ys.length = xs.length :=
  (mapM_eq_some_iff.mp h).length_eq.symm

end Partial
