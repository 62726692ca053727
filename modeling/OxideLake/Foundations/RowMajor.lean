import Mathlib

/-!
# Row-major buffers

A matrix kept as one list, row after row.  `sliceOf` reads a range of a buffer and `copyInto`
overwrites one; both fail where an index would be out of bounds.  Reading row `r` of a flattened
matrix gives the row (`sliceOf_flatten`), and a blank buffer filled row by row is the flattened
matrix (`copyInto_filled`, `append_blank`).
-/

namespace RowMajor

open List

universe u

variable {α : Type u}

/-- The `len` elements from `start` on. -/
def sliceOf (xs : List α) (start len : ℕ) : Option (List α) :=
  if start + len ≤ xs.length then some ((xs.drop start).take len) else none

/-- The buffer with a row written from `start` on. -/
def copyInto (xs : List α) (start : ℕ) (row : List α) : Option (List α) :=
  if start + row.length ≤ xs.length then
    some (xs.take start ++ row ++ xs.drop (start + row.length))
  else none

theorem sliceOf_eq_some {xs : List α} {start len : ℕ} (h : start + len ≤ xs.length) :
    sliceOf xs start len = some ((xs.drop start).take len) :=
  if_pos h

theorem sliceOf_eq_none {xs : List α} {start len : ℕ} (h : xs.length < start + len) :
    sliceOf xs start len = none :=
  if_neg (Nat.not_le.mpr h)

theorem index_div {width row k : ℕ} (h : k < width) : (row * width + k) / width = row := by
  rw [Nat.mul_comm, Nat.mul_add_div (Nat.zero_lt_of_lt h), Nat.div_eq_of_lt h, Nat.add_zero]

variable {width : ℕ} {rows : List (List α)}

section

variable (h : ∀ row ∈ rows, row.length = width)
include h

theorem length_flatten :
    rows.flatten.length = rows.length * width := by
  induction rows with
  | nil => simp
  | cons row rows ih =>
    rw [flatten_cons, length_append, h row mem_cons_self,
      ih fun r hr => h r (mem_cons_of_mem _ hr), length_cons, Nat.succ_mul,
      Nat.add_comm]

theorem sliceOf_flatten {r : ℕ} {row : List α}
    (hrow : rows[r]? = some row) : sliceOf rows.flatten (r * width) width = some row := by
  obtain ⟨hr, rfl⟩ := List.getElem?_eq_some_iff.mp hrow
  have hbefore : (rows.take r).flatten.length = r * width := by
    rw [length_flatten fun row hrow => h row (List.mem_of_mem_take hrow), List.length_take,
      Nat.min_eq_left (Nat.le_of_lt hr)]
  have hsplit : rows.flatten = (rows.take r).flatten ++
      (rows[r] ++ (rows.drop (r + 1)).flatten) := by
    rw [← flatten_cons, ← drop_eq_getElem_cons hr, ← flatten_append,
      take_append_drop]
  have hlen := h rows[r] (getElem_mem hr)
  rw [hsplit, sliceOf_eq_some, ← hbefore, drop_left, ← hlen, take_left]
  rw [length_append, length_append, hbefore, hlen]
  omega

theorem copyInto_filled {row : List α} (hrow : row.length = width) (blank : α) (n : ℕ) :
    copyInto (rows.flatten ++ replicate ((n + 1) * width) blank) (rows.length * width) row =
      some ((rows ++ [row]).flatten ++ replicate (n * width) blank) := by
  have hlen := length_flatten h
  rw [copyInto, if_pos, ← hlen, take_left, flatten_append, flatten_singleton,
    hlen, ← drop_drop, ← hlen, drop_left, drop_replicate, hrow, Nat.succ_mul,
    Nat.add_sub_cancel]
  rw [length_append, length_replicate, hlen, hrow, Nat.succ_mul]
  omega

end

theorem append_blank (rows : List (List α)) (blank : α) (n : ℕ) :
    rows.flatten ++ replicate ((n + 1) * width) blank =
      (rows ++ [replicate width blank]).flatten ++ replicate (n * width) blank := by
  rw [flatten_append, flatten_singleton, append_assoc, ← replicate_add,
    Nat.succ_mul, Nat.add_comm width]

end RowMajor
