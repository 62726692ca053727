import Mathlib

/-!
# Partitioned tables

A table is cut into partitions, and a key is *colocated* when rows that agree on it are in one
partition.  A node that works partition by partition turns every row into some rows of the
same partition.  Whether it carries a colocated key of its input over to a key of its output
does not depend on tables at all: two output rows that agree on the one key have to come from
input rows that agree on the other (`Reflects`).
-/

namespace Colocation

universe u v w

variable {α : Type u} {β : Type v} {κ : Type w} {n : ℕ}

/-- Rows with the same key are in the same partition. -/
def Colocated (key : α → κ) (parts : Fin n → List α) : Prop :=
  ∀ p q, ∀ a ∈ parts p, ∀ b ∈ parts q, key a = key b → p = q

/-- Output rows that agree come from input rows that agree. -/
def Reflects (emits : α → β → Prop) (key : α → κ) (key' : β → κ) : Prop :=
  ∀ a b x y, emits a x → emits b y → key' x = key' y → key a = key b

/-- Two rows, each in a partition of its own. -/
def scatter (p q : Fin n) (a b : α) (i : Fin n) : List α :=
  if i = p then [a] else if i = q then [b] else []

section Scatter

variable {p q : Fin n} {a b : α}

theorem scatter_left : scatter p q a b p = [a] := if_pos rfl

theorem scatter_right (h : p ≠ q) : scatter p q a b q = [b] := by
  rw [scatter, if_neg h.symm, if_pos rfl]

theorem mem_scatter {i : Fin n} {c : α} (h : c ∈ scatter p q a b i) :
    (i = p ∧ c = a) ∨ (i = q ∧ c = b) := by
  unfold scatter at h
  split at h
  · next hp => exact .inl ⟨hp, List.mem_singleton.mp h⟩
  · split at h
    · next hq => exact .inr ⟨hq, List.mem_singleton.mp h⟩
    · cases h

theorem flatMap_scatter {f : α → List β} {x y : β} (ha : f a = [x]) (hb : f b = [y]) (i : Fin n) :
    (scatter p q a b i).flatMap f = scatter p q x y i := by
  unfold scatter
  split
  · rw [List.flatMap_singleton, ha]
  · split
    · rw [List.flatMap_singleton, hb]
    · rfl

theorem colocated_scatter {key : α → κ} (h : key a ≠ key b) : Colocated key (scatter p q a b) := by
  intro i j c hc d hd hkey
  rcases mem_scatter hc with ⟨rfl, rfl⟩ | ⟨rfl, rfl⟩
  · rcases mem_scatter hd with ⟨rfl, rfl⟩ | ⟨rfl, rfl⟩
    · rfl
    · exact absurd hkey h
  · rcases mem_scatter hd with ⟨rfl, rfl⟩ | ⟨rfl, rfl⟩
    · exact absurd hkey.symm h
    · rfl

end Scatter

/-- **When a node keeps a key colocated.**  Every output row comes from a row of its partition,
and any two rows, in two partitions, can be the input.  Then a colocated key of the input makes
a colocated key of the output for all tables, exactly if there is at most one partition or the
node reflects the keys. -/
theorem keeps_colocated_iff {produces : (Fin n → List α) → (Fin n → List β) → Prop}
    {emits : α → β → Prop} {key : α → κ} {key' : β → κ}
    (hsound : ∀ ins outs, produces ins outs → ∀ p, ∀ x ∈ outs p, ∃ a ∈ ins p, emits a x)
    (hcomplete : ∀ p q, p ≠ q → ∀ a b x y, emits a x → emits b y →
      ∃ outs, produces (scatter p q a b) outs ∧ x ∈ outs p ∧ y ∈ outs q) :
    (∀ ins outs, produces ins outs → Colocated key ins → Colocated key' outs) ↔
      n ≤ 1 ∨ Reflects emits key key' := by
  constructor
  · intro h
    by_cases hn : n ≤ 1
    · exact .inl hn
    refine .inr fun a b x y hax hby hkey => ?_
    by_contra hne
    have hpq : (⟨0, by omega⟩ : Fin n) ≠ ⟨1, by omega⟩ := by simp
    obtain ⟨outs, hproduces, hx, hy⟩ := hcomplete _ _ hpq a b x y hax hby
    exact hpq (h _ outs hproduces (colocated_scatter hne) _ _ x hx y hy hkey)
  · rintro (hn | hreflects) ins outs hproduces hcolocated p q x hx y hy hkey
    · exact Fin.ext (by omega)
    · obtain ⟨a, ha, hax⟩ := hsound ins outs hproduces p x hx
      obtain ⟨b, hb, hby⟩ := hsound ins outs hproduces q y hy
      exact hcolocated p q a ha b hb (hreflects a b x y hax hby hkey)

end Colocation
