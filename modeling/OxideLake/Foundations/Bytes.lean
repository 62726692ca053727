import Mathlib

/-!
# Byte buffers

Little-endian numbers, fixed-width rows in a byte buffer, and bitmaps: bits packed into
bytes, least significant bit first.
-/

namespace Bytes

open List

variable {len start : ℕ} {bytes : List UInt8}

/-- The value of little-endian bytes. -/
def leNat : List UInt8 → ℕ
  | [] => 0
  | byte :: bytes => byte.toNat + 256 * leNat bytes

/-- The `width` little-endian bytes of a value. -/
def toLe : ℕ → ℕ → List UInt8
  | 0, _ => []
  | width + 1, value => UInt8.ofNat value :: toLe width (value / 256)

@[simp] theorem length_toLe (width value : ℕ) : (toLe width value).length = width := by
  induction width generalizing value with
  | zero => rfl
  | succ width ih => rw [toLe, length_cons, ih]

theorem leNat_toLe {width value : ℕ} (h : value < 256 ^ width) :
    leNat (toLe width value) = value := by
  induction width generalizing value with
  | zero => rw [toLe, leNat, Nat.lt_one_iff.mp h]
  | succ width ih =>
    have hrest : value / 256 < 256 ^ width := by
      rw [Nat.pow_succ] at h
      exact Nat.div_lt_of_lt_mul (Nat.mul_comm _ _ ▸ h)
    rw [toLe, leNat, ih hrest, UInt8.toNat_ofNat']
    omega

/-- `len` bytes from `start` on. -/
def slice (bytes : List UInt8) (start len : ℕ) : List UInt8 := (bytes.drop start).take len

theorem length_slice (h : start + len ≤ bytes.length) :
    (slice bytes start len).length = len := by
  rw [slice, length_take, length_drop]
  omega

theorem slice_slice {start' len' : ℕ} (h : start' + len' ≤ len) :
    slice (slice bytes start len) start' len' = slice bytes (start + start') len' := by
  rw [slice, slice, slice, drop_take, take_take, drop_drop,
    Nat.min_eq_left (by omega)]

theorem getD_slice (bytes : List UInt8) {i : ℕ} (h : i < len) :
    (slice bytes start len).getD i 0 = bytes.getD (start + i) 0 := by
  rw [slice, getD_eq_getElem?_getD, getD_eq_getElem?_getD, getElem?_take_of_lt h,
    getElem?_drop]

theorem slice_eq_map (h : start + len ≤ bytes.length) :
    slice bytes start len = (range len).map fun i => bytes.getD (start + i) 0 := by
  refine ext_getElem? fun i => ?_
  rw [getElem?_map]
  by_cases hi : i < len
  · rw [slice, getElem?_take_of_lt hi, getElem?_drop, getElem?_range hi,
      Option.map_some, getD_eq_getElem?_getD, getElem?_eq_getElem (by omega)]
    rfl
  · rw [getElem?_eq_none, getElem?_eq_none]
    · rfl
    · simpa using hi
    · rw [length_slice h]
      omega

theorem slice_flatten {width : ℕ} {rows : List (List UInt8)} (h : ∀ row ∈ rows, row.length = width)
    (j : ℕ) : slice rows.flatten (j * width) width = rows.getD j [] := by
  induction rows generalizing j with
  | nil => simp [slice]
  | cons row rows ih =>
    have hrow := h row mem_cons_self
    rw [flatten_cons]
    cases j with
    | zero =>
      rw [slice, Nat.zero_mul, drop_zero, ← hrow, take_left]
      rfl
    | succ j =>
      rw [getD_cons_succ, ← ih (fun row' h' => h row' (mem_cons_of_mem _ h')) j, slice,
        slice, Nat.succ_mul, Nat.add_comm, ← drop_drop]
      rw [← hrow, drop_left]

/-! ## Bitmaps -/

/-- Bit `i` of a bitmap. -/
def bit (bytes : List UInt8) (i : ℕ) : Bool := (bytes.getD (i / 8) 0).toNat.testBit (i % 8)

variable (value : ℕ → Bool)

/-- The low `count` bits of a byte, set one by one. -/
def packBits (count : ℕ) : ℕ :=
  (range count).foldl (fun out bit => if value bit then out ||| 1 <<< bit else out) 0

theorem packBits_succ (count : ℕ) :
    packBits value (count + 1) =
      if value count then packBits value count ||| 1 <<< count else packBits value count := by
  rw [packBits, range_succ, foldl_append]
  rfl

theorem testBit_packBits (count i : ℕ) :
    (packBits value count).testBit i = (decide (i < count) && value i) := by
  induction count with
  | zero => simp [packBits]
  | succ count ih =>
    have hone : (1 <<< count).testBit i = decide (i = count) := by
      rw [Nat.one_shiftLeft, Nat.testBit_two_pow]
      exact decide_eq_decide.mpr eq_comm
    rw [packBits_succ]
    rcases Nat.lt_trichotomy i count with hlt | rfl | hgt
    · have hsucc : i < count + 1 := by omega
      have hne : i ≠ count := by omega
      split
      · simp [hone, ih, hlt, hsucc, hne]
      · simp [ih, hlt, hsucc]
    · by_cases hvalue : value i = true
      · simp [hvalue, hone]
      · simp [hvalue, ih]
    · have hge : ¬ i < count := by omega
      have hsucc : ¬ i < count + 1 := by omega
      have hne : i ≠ count := by omega
      split
      · simp [hone, ih, hge, hsucc, hne]
      · simp [ih, hge, hsucc]

theorem packBits_lt {count : ℕ} (h : count ≤ 8) :
    packBits value count < 256 := by
  refine Nat.lt_of_testBit 8 ?_ (by decide) fun i hi => ?_
  · rw [testBit_packBits]
    simp [show ¬ 8 < count by omega]
  · rw [testBit_packBits, show (256 : ℕ) = 2 ^ 8 from rfl, Nat.testBit_two_pow]
    simp [show ¬ i < count by omega, show ¬ 8 = i by omega]

/-- The bitmap of `len` values, with zeros behind the last. -/
def pack (len : ℕ) : List UInt8 :=
  (range ((len + 7) / 8)).map fun byte =>
    UInt8.ofNat (packBits (fun bit => value (byte * 8 + bit)) (min 8 (len - byte * 8)))

@[simp] theorem length_pack (len : ℕ) :
    (pack value len).length = (len + 7) / 8 := by
  rw [pack, length_map, length_range]

theorem bit_pack {i : ℕ} (h : i < len) : bit (pack value len) i = value i := by
  have hbyte : i / 8 < (len + 7) / 8 := by omega
  rw [bit, pack, getD_eq_getElem?_getD, getElem?_map, getElem?_range hbyte,
    Option.map_some, Option.getD_some, UInt8.toNat_ofNat_of_lt' (packBits_lt _ (by omega)),
    testBit_packBits, Nat.div_add_mod']
  simp [show i % 8 < min 8 (len - i / 8 * 8) by omega]

theorem bit_slice (bytes : List UInt8) {i : ℕ} (h : i < len * 8) :
    bit (slice bytes start len) i = bit bytes (start * 8 + i) := by
  rw [bit, bit, getD_slice bytes (by omega), show (start * 8 + i) / 8 = start + i / 8 by omega,
    show (start * 8 + i) % 8 = i % 8 by omega]

end Bytes
