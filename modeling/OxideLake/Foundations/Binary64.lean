import Mathlib

/-!
# Comparisons of IEEE 754 binary64 bit patterns

A 64-bit float is carried as its bit pattern.  Two different orders are read off
it: the *total order*, in which every pattern has a place (negative NaNs first,
positive NaNs last, `-0` before `+0`), and the *IEEE less-than*, in which a NaN
compares with nothing and the two zeros are equal.  Arithmetic is not modelled.

The second order is strict (`ieeeLt_irrefl`, `ieeeLt_trans`), and two numbers neither of which
is below the other are numerically equal (`ieeeEq_of_not_lt`).
-/

namespace Binary64

variable {x y : BitVec 64}

/-- The key whose signed order is the total order: a negative pattern has all
bits below the sign flipped. -/
def totalKey (x : BitVec 64) : Int :=
  if x.msb then (x ^^^ 0x7FFFFFFFFFFFFFFF#64).toInt else x.toInt

/-- Exponent all ones and a non-zero fraction. -/
def isNaN (x : BitVec 64) : Bool :=
  0x7FF0000000000000#64 < (x &&& 0x7FFFFFFFFFFFFFFF#64)

/-- `+0` or `-0`. -/
def isZero (x : BitVec 64) : Bool :=
  x &&& 0x7FFFFFFFFFFFFFFF#64 == 0#64

/-- IEEE `x < y`: false as soon as one side is NaN, and on two zeros. -/
def ieeeLt (x y : BitVec 64) : Bool :=
  !isNaN x && !isNaN y && !(isZero x && isZero y) && decide (totalKey x < totalKey y)

/-- IEEE `x == y`: false on NaN, true on any two zeros. -/
def ieeeEq (x y : BitVec 64) : Bool :=
  !isNaN x && !isNaN y && (x == y || (isZero x && isZero y))

/-- The two infinities. -/
def posInf : BitVec 64 := 0x7FF0000000000000#64

def negInf : BitVec 64 := 0xFFF0000000000000#64

/-! ## Keys and magnitudes -/

/-- The exponent and fraction bits, as a number. -/
def magnitude (x : BitVec 64) : ℕ := x.toNat % 2 ^ 63

theorem toNat_and_mask (x : BitVec 64) :
    (x &&& 0x7FFFFFFFFFFFFFFF#64).toNat = magnitude x := by
  rw [BitVec.toNat_and, magnitude, ← Nat.and_two_pow_sub_one_eq_mod]
  rfl

theorem isNaN_iff (x : BitVec 64) : isNaN x = true ↔ 0x7FF0000000000000 < magnitude x := by
  rw [isNaN, decide_eq_true_iff, BitVec.lt_def, toNat_and_mask]
  rfl

theorem isZero_iff (x : BitVec 64) : isZero x = true ↔ magnitude x = 0 := by
  rw [isZero, beq_iff_eq, BitVec.toNat_eq, toNat_and_mask]
  rfl

theorem toNat_of_msb (h : x.msb = true) : x.toNat = 2 ^ 63 + magnitude x := by
  have hmsb := BitVec.msb_eq_decide x
  rw [h] at hmsb
  have hge := of_decide_eq_true hmsb.symm
  have hlt := x.isLt
  rw [magnitude]
  omega

theorem toNat_of_not_msb (h : x.msb = false) : x.toNat = magnitude x := by
  have hmsb := BitVec.msb_eq_decide x
  rw [h] at hmsb
  have hlt := of_decide_eq_false hmsb.symm
  rw [magnitude]
  omega

theorem toNat_xor_mask (h : x.msb = true) :
    (x ^^^ 0x7FFFFFFFFFFFFFFF#64).toNat = 2 ^ 64 - (magnitude x + 1) := by
  have hmsb : x.toNat.testBit 63 = true := by
    rw [BitVec.testBit_toNat, ← h, BitVec.msb_eq_getLsbD_last]
  have hlt : magnitude x < 2 ^ 64 := by
    rw [magnitude]
    omega
  apply Nat.eq_of_testBit_eq
  intro i
  rw [BitVec.toNat_xor, Nat.testBit_xor, Nat.testBit_two_pow_sub_succ hlt, magnitude,
    Nat.testBit_mod_two_pow,
    show (0x7FFFFFFFFFFFFFFF#64).toNat = 2 ^ 63 - 1 from rfl, Nat.testBit_two_pow_sub_one]
  by_cases hi : i < 63
  · simp [hi, show i < 64 by omega]
  · by_cases hi' : i = 63
    · subst hi'
      simp [hmsb]
    · have hhigh : x.toNat.testBit i = false :=
        Nat.testBit_lt_two_pow (x.isLt.trans_le (Nat.pow_le_pow_right (by omega) (by omega)))
      simp [hi, hhigh, show ¬ i < 64 by omega]

theorem totalKey_of_msb (h : x.msb = true) :
    totalKey x = -1 - (magnitude x : ℤ) := by
  have hlt : magnitude x < 2 ^ 63 := Nat.mod_lt _ (by decide)
  rw [totalKey, if_pos h, BitVec.toInt_eq_toNat_cond, toNat_xor_mask h, if_neg (by omega)]
  omega

theorem totalKey_of_not_msb (h : x.msb = false) :
    totalKey x = (magnitude x : ℤ) := by
  have hlt : magnitude x < 2 ^ 63 := Nat.mod_lt _ (by decide)
  rw [totalKey, if_neg (by rw [h]; exact Bool.false_ne_true), BitVec.toInt_eq_toNat_cond,
    toNat_of_not_msb h, if_pos (by omega)]

theorem eq_of_totalKey_eq (h : totalKey x = totalKey y) : x = y := by
  apply BitVec.eq_of_toNat_eq
  cases hx : x.msb <;> cases hy : y.msb
  · rw [totalKey_of_not_msb hx, totalKey_of_not_msb hy] at h
    rw [toNat_of_not_msb hx, toNat_of_not_msb hy]
    omega
  · rw [totalKey_of_not_msb hx, totalKey_of_msb hy] at h
    omega
  · rw [totalKey_of_msb hx, totalKey_of_not_msb hy] at h
    omega
  · rw [totalKey_of_msb hx, totalKey_of_msb hy] at h
    rw [toNat_of_msb hx, toNat_of_msb hy]
    omega

/-! ## The IEEE order -/

theorem ieeeLt_iff (x y : BitVec 64) : ieeeLt x y = true ↔
    isNaN x = false ∧ isNaN y = false ∧ ¬ (isZero x = true ∧ isZero y = true) ∧
      totalKey x < totalKey y := by
  simp only [ieeeLt, Bool.and_eq_true, Bool.not_eq_true', decide_eq_true_iff, and_assoc,
    Bool.and_eq_false_imp, not_and, Bool.not_eq_true]

theorem totalKey_of_isZero (h : isZero x = true) :
    -1 ≤ totalKey x ∧ totalKey x ≤ 0 := by
  rw [isZero_iff] at h
  cases hx : x.msb
  · rw [totalKey_of_not_msb hx]
    omega
  · rw [totalKey_of_msb hx]
    omega

theorem ieeeLt_irrefl (x : BitVec 64) : ieeeLt x x = false := by
  rw [← Bool.not_eq_true, ieeeLt_iff]
  exact fun h => absurd h.2.2.2 (lt_irrefl _)

theorem ieeeLt_trans {z : BitVec 64} (hxy : ieeeLt x y = true) (hyz : ieeeLt y z = true) :
    ieeeLt x z = true := by
  rw [ieeeLt_iff] at hxy hyz ⊢
  refine ⟨hxy.1, hyz.2.1, fun hzero => ?_, hxy.2.2.2.trans hyz.2.2.2⟩
  -- there is no room between the two zeros
  have hx := totalKey_of_isZero hzero.1
  have hz := totalKey_of_isZero hzero.2
  have := hxy.2.2.2
  have := hyz.2.2.2
  omega

theorem isNaN_of_ieeeLt (h : ieeeLt x y = true) :
    isNaN x = false ∧ isNaN y = false :=
  ⟨((ieeeLt_iff x y).mp h).1, ((ieeeLt_iff x y).mp h).2.1⟩

theorem ieeeLt_cotrans {z : BitVec 64} (h : ieeeLt x z = true) (hy : isNaN y = false)
    (hxy : ieeeLt x y = false) : ieeeLt y z = true := by
  rw [ieeeLt_iff] at h ⊢
  rw [← Bool.not_eq_true, ieeeLt_iff] at hxy
  obtain ⟨hx, hz, hzeros, hlt⟩ := h
  by_cases hxy0 : isZero x = true ∧ isZero y = true
  · have hxkey := totalKey_of_isZero hxy0.1
    have hykey := totalKey_of_isZero hxy0.2
    refine ⟨hy, hz, fun hyz => hzeros ⟨hxy0.1, hyz.2⟩, lt_of_le_of_ne ?_ fun hkey => ?_⟩
    · omega
    · exact hzeros ⟨hxy0.1, eq_of_totalKey_eq hkey ▸ hxy0.2⟩
  · have hle : totalKey y ≤ totalKey x := not_lt.mp fun hkey => hxy ⟨hx, hy, hxy0, hkey⟩
    refine ⟨hy, hz, fun hyz => ?_, by omega⟩
    -- `x` would be squeezed between two zeros
    have hykey := totalKey_of_isZero hyz.1
    have hzkey := totalKey_of_isZero hyz.2
    have hkey : totalKey x = totalKey y := by omega
    exact hxy0 ⟨eq_of_totalKey_eq hkey ▸ hyz.1, hyz.1⟩

theorem ieeeEq_of_not_lt (hx : isNaN x = false) (hy : isNaN y = false) (hxy : ieeeLt x y = false)
    (hyx : ieeeLt y x = false) : ieeeEq x y = true := by
  rw [← Bool.not_eq_true, ieeeLt_iff] at hxy hyx
  rw [ieeeEq, hx, hy]
  by_cases hzero : isZero x = true ∧ isZero y = true
  · simp [hzero.1, hzero.2]
  · have hkeys : totalKey x = totalKey y := by
      have hle : ¬ totalKey x < totalKey y := fun h => hxy ⟨hx, hy, hzero, h⟩
      have hge : ¬ totalKey y < totalKey x := fun h => hyx ⟨hy, hx, fun hz => hzero hz.symm, h⟩
      omega
    simp [eq_of_totalKey_eq hkeys]

theorem eq_posInf (hx : isNaN x = false) (h : ieeeLt x posInf = false) :
    x = posInf := by
  have hmagnitude : ¬ 0x7FF0000000000000 < magnitude x := fun hlt =>
    absurd ((isNaN_iff x).mpr hlt) (by rw [hx]; exact Bool.false_ne_true)
  rw [← Bool.not_eq_true, ieeeLt_iff] at h
  have hinf : totalKey posInf = 0x7FF0000000000000 := by decide
  have hge : ¬ totalKey x < totalKey posInf := fun hlt =>
    h ⟨hx, by decide, fun hzero => absurd hzero.2 (by decide), hlt⟩
  apply eq_of_totalKey_eq
  rw [hinf] at hge ⊢
  cases hsign : x.msb
  · rw [totalKey_of_not_msb hsign] at hge ⊢
    omega
  · rw [totalKey_of_msb hsign] at hge
    omega

theorem eq_negInf (hx : isNaN x = false) (h : ieeeLt negInf x = false) :
    x = negInf := by
  have hmagnitude : ¬ 0x7FF0000000000000 < magnitude x := fun hlt =>
    absurd ((isNaN_iff x).mpr hlt) (by rw [hx]; exact Bool.false_ne_true)
  rw [← Bool.not_eq_true, ieeeLt_iff] at h
  have hinf : totalKey negInf = -0x7FF0000000000001 := by decide
  have hge : ¬ totalKey negInf < totalKey x := fun hlt =>
    h ⟨by decide, hx, fun hzero => absurd hzero.1 (by decide), hlt⟩
  apply eq_of_totalKey_eq
  rw [hinf] at hge ⊢
  cases hsign : x.msb
  · rw [totalKey_of_not_msb hsign] at hge
    omega
  · rw [totalKey_of_msb hsign] at hge ⊢
    omega

end Binary64
