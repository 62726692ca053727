import OxideLake.Arrow.RecordBatch
import OxideLake.Foundations.Scatter

/-!
# Host helpers of the CUDA operators

The checks every operator of `cuda/ops.rs` makes before and between its kernel
launches.  A batch on the device has the columns of the host batch it was uploaded
from, so the model has one type for both.
-/

namespace OxideLake

namespace Cuda

variable {counts : List ℕ}

/-- `u32_len`: the kernels count rows in `u32`. -/
def u32Len (n : ℕ) (what : String) : Result ℕ :=
  if n < 2 ^ 32 then .ok n
  else .error (.execution (what ++ " exceeds u32::MAX rows"))

theorem u32Len_ok {n m : ℕ} {what : String} (h : u32Len n what = .ok m) : m = n ∧ n < 2 ^ 32 := by
  rw [u32Len] at h
  split at h
  · next hlt => exact ⟨(Except.ok.inj h).symm, hlt⟩
  · cases h

def column (batch : RecordBatch) (index : ℕ) : Result Column :=
  match batch.columns[index]? with
  | some column => .ok column
  | none => .error (columnOutOfRange index batch.numColumns)

def requireInt64 (column : Column) (role : String) : Result Unit :=
  if column.dataType = .int64 then .ok ()
  else .error (.unsupported "cuda.int64_column"
    (role ++ " has type " ++ column.dataType.debug ++ "; v1 supports Int64"))

/-- The loop of `exclusive_scan`: `checked_add` on a `u32` total. -/
def exclusiveScanFrom : ℕ → List ℕ → Result (List ℕ × ℕ)
  | total, [] => .ok ([], total)
  | total, count :: counts =>
    if total + count < 2 ^ 32 then do
      let (offsets, last) ← exclusiveScanFrom (total + count) counts
      .ok (total :: offsets, last)
    else .error (.execution "compaction result exceeds u32::MAX rows")

def exclusiveScan (counts : List ℕ) : Result (List ℕ × ℕ) := exclusiveScanFrom 0 counts

theorem exclusiveScanFrom_eq {total : ℕ} (h : total + counts.sum < 2 ^ 32) :
    exclusiveScanFrom total counts =
      .ok (Scatter.offsets total counts, total + counts.sum) := by
  induction counts generalizing total with
  | nil => rfl
  | cons count counts ih =>
    rw [List.sum_cons] at h ⊢
    have hrest := ih (show total + count + counts.sum < 2 ^ 32 by omega)
    rw [exclusiveScanFrom, if_pos (by omega), hrest, Nat.add_assoc]
    rfl

theorem exclusiveScan_eq (h : counts.sum < 2 ^ 32) :
    exclusiveScan counts = .ok (Scatter.offsets 0 counts, counts.sum) := by
  rw [exclusiveScan, exclusiveScanFrom_eq (by omega), Nat.zero_add]

theorem exclusiveScanFrom_overflow {total : ℕ} (htotal : total < 2 ^ 32)
    (h : 2 ^ 32 ≤ total + counts.sum) :
    exclusiveScanFrom total counts =
      .error (.execution "compaction result exceeds u32::MAX rows") := by
  induction counts generalizing total with
  | nil => exact absurd h (by simpa using htotal)
  | cons count counts ih =>
    rw [List.sum_cons] at h
    rw [exclusiveScanFrom]
    split
    · next hfits =>
      rw [ih hfits (by omega)]
      rfl
    · rfl

theorem exclusiveScan_overflow (h : 2 ^ 32 ≤ counts.sum) :
    exclusiveScan counts = .error (.execution "compaction result exceeds u32::MAX rows") :=
  exclusiveScanFrom_overflow (by omega) (by omega)

/-- The order in which the stores of a launch take effect. -/
structure StoreOrder (α : Type) where
  order : List (ℕ × α) → List (ℕ × α)
  perm : ∀ writes, (order writes).Perm writes

end Cuda

end OxideLake
