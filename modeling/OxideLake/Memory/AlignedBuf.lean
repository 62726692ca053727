import OxideLake.Foundations.Partial

/-!
# Aligned host buffers

`AlignedBuf::zeroed` rounds a length up to the alignment (`padded_len`), raises the result to
one alignment unit, has the standard library check the size (`Layout::from_size_align`) and
asks the allocator for that many zeroed bytes.  The rounding is plain `usize` arithmetic, which
a release build performs modulo `2^64`.  It passes `2^64` exactly for the lengths above
`2^64 - align`, where it wraps to zero: the size handed to the check is then one alignment unit,
which is a fine layout, and the buffer claims a length its allocation does not have.

`zeroed_sound_iff` says for which lengths, alignments and allocators a buffer is as long as it
says.  The allocator is a parameter: it answers a layout with the address of a block of that
size, or with the null pointer.
-/

namespace OxideLake

open Partial

/-- `EngineError::Allocation`, the one error of this module. -/
structure Allocation where
  bytes : UInt64
  align : UInt64
  detail : String
  deriving DecidableEq, Repr

/-- `BufferLayout`: a length and an alignment that `BufferLayout::new` has checked. -/
structure BufferLayout where
  len : UInt64
  align : UInt64
  powerOfTwo : align.toNat.isPowerOfTwo

/-- `BufferLayout::new`. -/
def BufferLayout.new (len align : UInt64) : Except Allocation BufferLayout :=
  if h : align.toNat.isPowerOfTwo then .ok ⟨len, align, h⟩
  else .error ⟨len, align, "alignment must be a non-zero power of two"⟩

/-- `BufferLayout::padded_len`, with the wrapping addition of a release build. -/
def BufferLayout.paddedLen (wanted : BufferLayout) : UInt64 :=
  let rem := wanted.len % wanted.align
  if rem = 0 then wanted.len else wanted.len + (wanted.align - rem)

/-- `std::alloc::Layout`: a size that, rounded up to the alignment, does not pass
`isize::MAX`. -/
structure Alloc.Layout where
  size : UInt64
  align : UInt64
  fits : size.toNat + align.toNat ≤ 2 ^ 63
  deriving DecidableEq

/-- `Layout::from_size_align`, for an alignment that is a power of two. -/
def Alloc.Layout.fromSizeAlign (size align : UInt64) : Except String Alloc.Layout :=
  if h : size.toNat + align.toNat ≤ 2 ^ 63 then .ok ⟨size, align, h⟩
  else .error "invalid parameters to Layout::from_size_align"

/-- `AlignedBuf`: the address of the block, the layout it was allocated with and the logical
length. -/
structure AlignedBuf where
  ptr : UInt64
  layout : Alloc.Layout
  len : UInt64

namespace AlignedBuf

/-- `AlignedBuf::zeroed`, over the allocator `allocZeroed`. -/
def zeroed (allocZeroed : Alloc.Layout → Option UInt64) (len align : UInt64) :
    Except Allocation AlignedBuf := do
  let wanted ← BufferLayout.new len align
  let size := max wanted.paddedLen align
  let layout ← (Alloc.Layout.fromSizeAlign size align).mapError fun e => ⟨len, align, e⟩
  match allocZeroed layout with
  | none => .error ⟨len, align, "allocator returned null"⟩
  | some ptr => .ok ⟨ptr, layout, len⟩

/-- `AlignedBuf::align`. -/
def align (buf : AlignedBuf) : UInt64 := buf.layout.align

/-- `AlignedBuf::capacity`. -/
def capacity (buf : AlignedBuf) : UInt64 := buf.layout.size

/-- `AlignedBuf::as_slice`: the address and the length given to `from_raw_parts`. -/
def asSlice (buf : AlignedBuf) : UInt64 × UInt64 := (buf.ptr, buf.len)

end AlignedBuf

/-! ## Rounding up -/

section

variable {len align : UInt64}

/-- The length rounded up to a multiple of the alignment, over the naturals. -/
def roundUp (len align : Nat) : Nat := (len + (align - 1)) / align * align

theorem BufferLayout.toNat_paddedLen (wanted : BufferLayout) :
    wanted.paddedLen.toNat = roundUp wanted.len.toNat wanted.align.toNat % 2 ^ 64 := by
  obtain ⟨len, align, hpow⟩ := wanted
  have hpos : 0 < align.toNat := Nat.pos_of_isPowerOfTwo hpow
  have hdiv := Nat.div_add_mod len.toNat align.toNat
  have hlt := Nat.mod_lt len.toNat hpos
  have hmod : (len % align).toNat = len.toNat % align.toNat := UInt64.toNat_mod ..
  unfold paddedLen roundUp
  dsimp only
  split
  next hrem =>
    have hzero : len.toNat % align.toNat = 0 := by rw [← hmod, hrem]; rfl
    have hquot : (len.toNat + (align.toNat - 1)) / align.toNat = len.toNat / align.toNat := by
      rw [Nat.div_eq_iff hpos]
      rw [hzero, Nat.mul_comm] at hdiv
      omega
    rw [hquot, Nat.div_mul_cancel (Nat.dvd_of_mod_eq_zero hzero), Nat.mod_eq_of_lt len.toNat_lt]
  next hrem =>
    have hne : len.toNat % align.toNat ≠ 0 := by
      rw [← hmod]
      exact fun h => hrem (UInt64.toNat_inj.mp h)
    have hquot : (len.toNat + (align.toNat - 1)) / align.toNat = len.toNat / align.toNat + 1 := by
      rw [Nat.div_eq_iff hpos, Nat.add_mul]
      rw [Nat.mul_comm] at hdiv
      omega
    have hle : len % align ≤ align := UInt64.le_iff_toNat_le.mpr
      (by rw [hmod]; exact Nat.le_of_lt hlt)
    rw [UInt64.toNat_add, UInt64.toNat_sub_of_le _ _ hle, hmod, hquot, Nat.add_mul]
    rw [Nat.mul_comm] at hdiv
    congr 1
    omega

theorem dvd_two_pow_of_isPowerOfTwo (hpow : align.toNat.isPowerOfTwo) : align.toNat ∣ 2 ^ 64 := by
  obtain ⟨k, hk⟩ := hpow
  have hlt := align.toNat_lt
  rw [hk] at hlt ⊢
  exact Nat.pow_dvd_pow 2 (Nat.le_of_lt ((Nat.pow_lt_pow_iff_right (by decide)).mp hlt))

theorem le_roundUp (hpos : 0 < align.toNat) : len.toNat ≤ roundUp len.toNat align.toNat := by
  have hdiv := Nat.div_add_mod (len.toNat + (align.toNat - 1)) align.toNat
  have hlt := Nat.mod_lt (len.toNat + (align.toNat - 1)) hpos
  rw [Nat.mul_comm] at hdiv
  unfold roundUp
  omega

/-- Rounding up passes `2^64` for the lengths above `2^64 - align`, and there it is `2^64`. -/
theorem roundUp_cases (len : UInt64) (hpow : align.toNat.isPowerOfTwo) :
    len.toNat + align.toNat ≤ 2 ^ 64 ∧ roundUp len.toNat align.toNat < 2 ^ 64 ∨
      2 ^ 64 < len.toNat + align.toNat ∧ roundUp len.toNat align.toNat = 2 ^ 64 := by
  have hpos : 0 < align.toNat := Nat.pos_of_isPowerOfTwo hpow
  obtain ⟨units, hunits⟩ := dvd_two_pow_of_isPowerOfTwo hpow
  have hlen := len.toNat_lt
  unfold roundUp
  rw [hunits, Nat.mul_comm _ units] at hlen ⊢
  by_cases hfits : len.toNat + align.toNat ≤ units * align.toNat
  · refine .inl ⟨hfits, Nat.mul_lt_mul_of_pos_right ?_ hpos⟩
    rw [Nat.div_lt_iff_lt_mul hpos]
    omega
  · refine .inr ⟨by omega, ?_⟩
    congr 1
    rw [Nat.div_eq_iff hpos]
    omega

end

/-! ## The buffer -/

namespace AlignedBuf

variable (allocZeroed : Alloc.Layout → Option UInt64) (len align : UInt64)

/-- What the unsafe slices rely on: a buffer that is returned has a capacity that is a multiple
of its alignment and reaches the length of its slice, and a length whose padding does not fit
`usize` is an error. -/
def Sound : Prop :=
  (∀ buf, zeroed allocZeroed len align = .ok buf →
    align.toNat ∣ buf.capacity.toNat ∧ buf.asSlice.2 = len ∧ len ≤ buf.capacity) ∧
  (2 ^ 64 ≤ roundUp len.toNat align.toNat → ∃ e, zeroed allocZeroed len align = .error e)

variable {allocZeroed len align}

theorem max_eq_cases (a b : UInt64) : max a b = b ∧ a ≤ b ∨ max a b = a ∧ ¬ a ≤ b := by
  by_cases h : a ≤ b
  · exact .inl ⟨if_pos h, h⟩
  · exact .inr ⟨if_neg h, h⟩

theorem zeroed_ok {buf : AlignedBuf} (hbuf : zeroed allocZeroed len align = .ok buf)
    (hpow : align.toNat.isPowerOfTwo) :
    buf.layout.size = max (BufferLayout.mk len align hpow).paddedLen align ∧
      buf.layout.align = align ∧ buf.len = len ∧ allocZeroed buf.layout = some buf.ptr := by
  unfold zeroed BufferLayout.new Alloc.Layout.fromSizeAlign at hbuf
  rw [dif_pos hpow] at hbuf
  simp only [ok_bind] at hbuf
  split at hbuf
  · rw [Except.mapError, ok_bind] at hbuf
    split at hbuf
    · cases hbuf
    next ptr halloc =>
      cases hbuf
      exact ⟨rfl, rfl, rfl, halloc⟩
  · cases hbuf

theorem zeroed_of_layout {layout : Alloc.Layout} {ptr : UInt64} (hpow : align.toNat.isPowerOfTwo)
    (hsize : layout.size = max (BufferLayout.mk len align hpow).paddedLen align)
    (halign : layout.align = align) (halloc : allocZeroed layout = some ptr) :
    zeroed allocZeroed len align = .ok ⟨ptr, layout, len⟩ := by
  obtain ⟨size, align', hfits⟩ := layout
  dsimp only at hsize halign
  subst halign hsize
  unfold zeroed BufferLayout.new Alloc.Layout.fromSizeAlign
  rw [dif_pos hpow]
  simp only [ok_bind]
  rw [dif_pos hfits, Except.mapError, ok_bind, halloc]

/-- **A buffer is as long as it says exactly below the wrap, or where the allocator refuses one
alignment unit.**  An alignment of `2^63` has no layout at all, so there the second case holds
for every allocator. -/
theorem zeroed_sound_iff (hpow : align.toNat.isPowerOfTwo) :
    Sound allocZeroed len align ↔
      len.toNat + align.toNat ≤ 2 ^ 64 ∨
        ∀ layout : Alloc.Layout, layout.size = align → layout.align = align →
          allocZeroed layout = none := by
  have hpos : 0 < align.toNat := Nat.pos_of_isPowerOfTwo hpow
  have hpadded := BufferLayout.toNat_paddedLen ⟨len, align, hpow⟩
  rcases roundUp_cases len hpow with ⟨hfits, hround⟩ | ⟨hwraps, hround⟩
  · rw [Nat.mod_eq_of_lt hround] at hpadded
    refine ⟨fun _ => .inl hfits, fun _ => ⟨fun buf hbuf => ?_, fun hover => by omega⟩⟩
    obtain ⟨hsize, -, hlen, -⟩ := zeroed_ok hbuf hpow
    unfold capacity asSlice
    rw [hsize, UInt64.le_iff_toNat_le]
    have hle : len.toNat ≤ (BufferLayout.mk len align hpow).paddedLen.toNat :=
      hpadded ▸ le_roundUp hpos
    rcases max_eq_cases (BufferLayout.mk len align hpow).paddedLen align with
      ⟨hmax, hraised⟩ | ⟨hmax, -⟩
    · rw [hmax]
      exact ⟨Nat.dvd_refl _, hlen, Nat.le_trans hle (UInt64.le_iff_toNat_le.mp hraised)⟩
    · rw [hmax, hpadded]
      exact ⟨Nat.dvd_mul_left .., hlen, hpadded ▸ hle⟩
  · -- the padded length has wrapped to zero, so the size is one unit
    have hzero : (BufferLayout.mk len align hpow).paddedLen = 0 :=
      UInt64.toNat_inj.mp (by rw [hpadded, hround]; rfl)
    have hmax : max (BufferLayout.mk len align hpow).paddedLen align = align := by
      rw [hzero]
      exact if_pos (UInt64.le_iff_toNat_le.mpr (Nat.zero_le _))
    constructor
    · intro hsound
      refine .inr fun layout hsize halign => ?_
      cases halloc : allocZeroed layout with
      | none => rfl
      | some ptr =>
        have hok := zeroed_of_layout hpow (hsize.trans hmax.symm) halign halloc
        obtain ⟨e, herror⟩ := hsound.2 (Nat.le_of_eq hround.symm)
        rw [hok] at herror
        cases herror
    · rintro (hfits | hrefused)
      · omega
      · have hnone : ∀ buf, zeroed allocZeroed len align ≠ .ok buf := by
          intro buf hbuf
          obtain ⟨hsize, halign, -, halloc⟩ := zeroed_ok hbuf hpow
          rw [hrefused buf.layout (hsize.trans hmax) halign] at halloc
          cases halloc
        refine ⟨fun buf hbuf => absurd hbuf (hnone buf), fun _ => ?_⟩
        cases hresult : zeroed allocZeroed len align with
        | error e => exact ⟨e, rfl⟩
        | ok buf => exact absurd hresult (hnone buf)

/-- An ordinary length is sound for every allocator. -/
theorem zeroed_hundred_sound :
    Sound (fun _ => some 4096) 100 64 :=
  (zeroed_sound_iff (by decide)).mpr (.inl (by decide))

/-- The largest length with the host alignment: the buffer is returned with 64 bytes. -/
theorem zeroed_max_short :
    ∃ buf, zeroed (fun _ => some 4096) (UInt64.ofNat (2 ^ 64 - 1)) 64 = .ok buf ∧
      buf.asSlice.2.toNat = 2 ^ 64 - 1 ∧ buf.capacity.toNat = 64 := by
  have hmax : max (BufferLayout.mk (UInt64.ofNat (2 ^ 64 - 1)) 64 (by decide)).paddedLen 64
      = 64 := by decide
  let block : Alloc.Layout := ⟨64, 64, by decide⟩
  have hblock : block.size = 64 := rfl
  exact ⟨_, zeroed_of_layout _ (hblock.trans hmax.symm) rfl rfl, by decide, rfl⟩

end AlignedBuf

end OxideLake
