import OxideLake.Foundations.Probing
import Mathlib

/-!
# Open-addressing tables on the device

The CUDA kernels of the join and the aggregation share one kind of table: a
power-of-two number of slots, a 32-bit state word a slot that is claimed with
`atomicCAS`, and linear probing from the slot the key hashes to.  The results about
them hold for every hash function into the table, so the shape of a table carries
one.
-/

namespace OxideLake

namespace Cuda

/-- The state word of a slot: 0, 1 and 2. -/
inductive SlotState where
  | empty
  | claimed
  | published
  deriving DecidableEq, Repr

/-- `(2 * rows).max(16).next_power_of_two()`, as the exponent. -/
def tableBits (rows : ℕ) : ℕ := Nat.clog 2 (max (2 * rows) 16)

theorem two_mul_le_two_pow_tableBits (rows : ℕ) : 2 * rows ≤ 2 ^ tableBits rows :=
  (Nat.le_max_left _ _).trans (Nat.le_pow_clog (by decide) _)

/-- The finalizer `oxide_ag_hash` and `oxide_hj_hash` share. -/
def mix (key : Int64) : UInt64 :=
  let h := key.toUInt64
  let h := h ^^^ (h >>> 33)
  let h := h * 0xff51afd7ed558ccd
  let h := h ^^^ (h >>> 33)
  let h := h * 0xc4ceb9fe1a85ec53
  h ^^^ (h >>> 33)

/-- A hash function for every table size. -/
structure TableHash where
  hash : ℕ → Int64 → ℕ
  hash_lt : ∀ bits key, hash bits key < 2 ^ bits

/-- `oxide_ag_hash` and `oxide_hj_hash`. -/
def oxideHash : TableHash where
  hash := fun bits key => (mix key).toNat &&& (2 ^ bits - 1)
  hash_lt := fun bits key => by
    rw [Nat.and_two_pow_sub_one_eq_mod]
    exact Nat.mod_lt _ (Nat.two_pow_pos _)

/-- The number of slots of a table and a hash function into it. -/
structure TableShape where
  bits : ℕ
  hash : Int64 → ℕ
  hash_lt : ∀ key, hash key < 2 ^ bits

namespace TableShape

/-- The shape of a table for `rows` rows. -/
def ofRows (hash : TableHash) (rows : ℕ) : TableShape where
  bits := tableBits rows
  hash := hash.hash (tableBits rows)
  hash_lt := hash.hash_lt (tableBits rows)

variable (shape : TableShape)

/-- The number of slots. -/
def capacity : ℕ := 2 ^ shape.bits

/-- `(slot + 1u) & (capacity - 1u)`. -/
def next (slot : ℕ) : ℕ := (slot + 1) &&& (shape.capacity - 1)

/-- The slot `p` probes from where a key hashes to. -/
def slotAt (key : Int64) (p : ℕ) : ℕ := Probing.position shape.capacity (shape.hash key) p

theorem capacity_pos : 0 < shape.capacity := Nat.two_pow_pos _

theorem slotAt_zero (key : Int64) : shape.slotAt key 0 = shape.hash key :=
  Probing.position_zero (shape.hash_lt key)

theorem slotAt_lt (key : Int64) (p : ℕ) : shape.slotAt key p < shape.capacity :=
  Probing.position_lt shape.capacity_pos p

theorem next_slotAt (key : Int64) (p : ℕ) :
    shape.next (shape.slotAt key p) = shape.slotAt key (p + 1) :=
  Probing.position_succ_mask p

end TableShape

end Cuda

end OxideLake
