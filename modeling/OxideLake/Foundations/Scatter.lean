import Mathlib

/-!
# Scattered writes

A launch of independent threads is a list of stores into a buffer, one list for every
order the stores can take effect in.  When the stores go to distinct addresses the
order does not matter, and when their addresses are those of a prefix of the buffer,
each once, the prefix holds afterwards what was stored there.

The addresses of threads that each fill a range of their own come from an exclusive
prefix sum over the lengths of the ranges (`offsets`).
-/

namespace Scatter

open List

variable {α : Type}

variable {writes : List (ℕ × α)}

/-- One store. -/
def store (buffer : ℕ → α) (write : ℕ × α) : ℕ → α := Function.update buffer write.1 write.2

/-- The buffer after a list of stores. -/
def scatter (buffer : ℕ → α) (writes : List (ℕ × α)) : ℕ → α := writes.foldl store buffer

/-- The first `n` entries of a buffer. -/
def read (buffer : ℕ → α) (n : ℕ) : List α := (range n).map buffer

/-- Every address below `n` is written exactly once, and no other. -/
def ExactlyOnce (n : ℕ) (writes : List (ℕ × α)) : Prop :=
  (writes.map Prod.fst).Perm (range n)

theorem scatter_of_not_mem {address : ℕ} (h : address ∉ writes.map Prod.fst) (buffer : ℕ → α) :
    scatter buffer writes address = buffer address := by
  induction writes generalizing buffer with
  | nil => rfl
  | cons write writes ih =>
    rw [map_cons, mem_cons, not_or] at h
    rw [scatter, foldl_cons]
    exact (ih h.2 _).trans (Function.update_of_ne h.1 _ _)

theorem scatter_of_mem (hnodup : (writes.map Prod.fst).Nodup) {write : ℕ × α} (h : write ∈ writes)
    (buffer : ℕ → α) :
    scatter buffer writes write.1 = write.2 := by
  induction writes generalizing buffer with
  | nil => cases h
  | cons first writes ih =>
    rw [map_cons, nodup_cons] at hnodup
    rw [scatter, foldl_cons]
    rcases mem_cons.mp h with rfl | hrest
    · exact (scatter_of_not_mem hnodup.1 _).trans (Function.update_self _ _ _)
    · exact ih hnodup.2 hrest _

/-- **Scattering a prefix.**  Stores whose addresses count up from zero leave, in
whatever order they take effect, their values in that order. -/
theorem read_scatter {n : ℕ} {order : List (ℕ × α)}
    (haddresses : writes.map Prod.fst = range n) (horder : order.Perm writes) (buffer : ℕ → α) :
    read (scatter buffer order) n = writes.map Prod.snd := by
  have hnodup : (order.map Prod.fst).Nodup :=
    (horder.map Prod.fst).nodup_iff.mpr (haddresses ▸ nodup_range)
  rw [read, ← haddresses, map_map]
  exact map_congr_left fun write hwrite =>
    scatter_of_mem hnodup (horder.mem_iff.mpr hwrite) buffer

theorem exactlyOnce_of_addresses {n : ℕ} {order : List (ℕ × α)}
    (haddresses : writes.map Prod.fst = range n) (horder : order.Perm writes) :
    ExactlyOnce n order := by
  rw [ExactlyOnce, ← haddresses]
  exact horder.map Prod.fst

/-! ## Exclusive prefix sums -/

/-- Where each of a row of ranges starts, the first one at `start`. -/
def offsets : ℕ → List ℕ → List ℕ
  | _, [] => []
  | start, count :: counts => start :: offsets (start + count) counts

/-- **The ranges tile.**  Side by side they cover the addresses from `start` on, each
once and in order. -/
theorem flatMap_range'_offsets (start : ℕ) (counts : List ℕ) :
    (range counts.length).flatMap (fun i =>
        range' ((offsets start counts).getD i 0) (counts.getD i 0)) =
      range' start counts.sum := by
  induction counts generalizing start with
  | nil => rfl
  | cons count counts ih =>
    rw [length_cons, range_succ_eq_map, flatMap_cons, flatMap_map,
      sum_cons, ← range'_append_1, ← ih (start + count)]
    rfl

end Scatter
