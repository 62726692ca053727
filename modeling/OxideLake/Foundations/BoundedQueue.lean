import Mathlib

/-!
# Bounded queues

A queue that drops its oldest element before it takes a new one holds, at any time, the last
`cap` of the elements it was given (`foldl_push`).  Whether these are always in order depends on
neighbours only, so it is the same as the whole sequence being in order
(`pairwise_concat_of_newest`).
-/

namespace BoundedQueue

open List

variable {α : Type*} {cap : ℕ} {xs ys : List α} {x : α}

/-- The last `cap` elements. -/
def newest (cap : ℕ) (xs : List α) : List α := xs.drop (xs.length - cap)

/-- Takes a new element; a full queue drops its front first. -/
def push (cap : ℕ) (queue : List α) (x : α) : List α :=
  (if cap ≤ queue.length then queue.tail else queue) ++ [x]

theorem length_newest (cap : ℕ) (xs : List α) : (newest cap xs).length = min cap xs.length := by
  rw [newest, length_drop]
  omega

theorem newest_sublist (cap : ℕ) (xs : List α) : (newest cap xs).Sublist xs :=
  drop_sublist _ _

theorem push_newest (hcap : 0 < cap) (xs : List α) (x : α) :
    push cap (newest cap xs) x = newest cap (xs ++ [x]) := by
  have hlen : (xs ++ [x]).length - cap ≤ xs.length := by
    rw [length_append, length_singleton]
    omega
  rw [push, length_newest, newest, newest, drop_append_of_le_length hlen,
    length_append, length_singleton]
  split
  · rw [tail_drop, show xs.length - cap + 1 = xs.length + 1 - cap by omega]
  · rw [show xs.length - cap = xs.length + 1 - cap by omega]

theorem foldl_push (hcap : 0 < cap) (xs : List α) : xs.foldl (push cap) [] = newest cap xs := by
  induction xs using reverseRecOn with
  | nil => exact (drop_nil).symm
  | append_singleton xs x ih => rw [foldl_append, ih, foldl_cons, foldl_nil,
      push_newest hcap]

theorem newest_append (cap : ℕ) (xs ys : List α) :
    newest cap (xs ++ ys) = newest (cap - ys.length) xs ++ newest cap ys := by
  rw [newest, length_append, drop_append, newest, newest,
    show xs.length + ys.length - cap - xs.length = ys.length - cap by omega]
  by_cases hys : ys.length ≤ cap
  · rw [show xs.length + ys.length - cap = xs.length - (cap - ys.length) by omega]
  · congr 1
    rw [drop_eq_nil_of_le (by omega), drop_eq_nil_of_le (by omega)]

/-- **Order is decided by neighbours**: a sequence in order whose newest elements are still in
order with one more is in order with it. -/
theorem pairwise_concat_of_newest {R : α → α → Prop} (htrans : ∀ a b c, R a b → R b c → R a c)
    (hcap : 2 ≤ cap) (hxs : xs.Pairwise R) (hnewest : (newest cap (xs ++ [x])).Pairwise R) :
    (xs ++ [x]).Pairwise R := by
  refine pairwise_append.mpr ⟨hxs, pairwise_singleton R x, fun a ha b hb => ?_⟩
  rw [mem_singleton.mp hb]
  -- the last element before `x` is among the newest, and every other one is below it
  rcases eq_nil_or_concat xs with rfl | ⟨ys, y, rfl⟩
  · cases ha
  rw [concat_eq_append] at *
  have hlast : R y x := by
    rw [newest_append, newest_append] at hnewest
    refine (pairwise_append.mp hnewest).2.2 y ?_ x ?_
    · refine mem_append_right _ ?_
      rw [newest, length_singleton, length_singleton, show 1 - (cap - 1) = 0 by omega]
      exact mem_singleton_self y
    · rw [newest, length_singleton, show 1 - cap = 0 by omega]
      exact mem_singleton_self x
  rcases mem_append.mp ha with hys | hy
  · exact htrans a y x ((pairwise_append.mp hxs).2.2 a hys y (mem_singleton_self y)) hlast
  · rwa [mem_singleton.mp hy]

end BoundedQueue
