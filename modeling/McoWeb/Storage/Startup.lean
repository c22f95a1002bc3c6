import McoWeb.Storage.Table

/-! # Start-up

`yac_storage_startup` takes what the allocator leaves of its first segment behind
the globals and makes a table of it whose size is a power of two. The allocator
is not part of the repository and is a parameter.
-/

namespace McoWeb.Storage

/-- `sizeof(yac_kv_key)`: two words, four integers, a pointer and the key. -/
def sizeofYacKvKey : UInt64 := 2 * 8 + 4 * 4 + 8 + 48

theorem sizeofYacKvKey_toNat : sizeofYacKvKey.toNat = 88 := rfl

theorem shiftRight_one_toNat (size : UInt32) : (size >>> 1).toNat = size.toNat / 2 := by
  rw [UInt32.toNat_shiftRight]
  rfl

theorem shiftRight_one_lt {size : UInt32} (hne : size >>> 1 ≠ 0) :
    (size >>> 1).toNat < size.toNat := by
  have hpos : (size >>> 1).toNat ≠ 0 := fun hzero => hne (UInt32.toNat_inj.mp hzero)
  rw [shiftRight_one_toNat] at hpos ⊢
  omega

/-- `while ((size = size >> 1)) ++bits;` -/
def alignLoop (size : UInt32) (bits : Nat) : Nat :=
  if size >>> 1 ≠ 0 then alignLoop (size >>> 1) (bits + 1) else bits
termination_by size.toNat
decreasing_by exact shiftRight_one_lt ‹_›

/-- `yac_storage_align_size`. -/
def yacStorageAlignSize (size : UInt32) : UInt32 := 1 <<< UInt32.ofNat (alignLoop size 0)

/-- `real_size` for the bytes that are left: the aligned number of slots, doubled if the
number has no bit but the next one. -/
def realSize (size : UInt64) : UInt64 :=
  let slots := size / sizeofYacKvKey
  let real := (yacStorageAlignSize slots.toUInt32).toUInt64
  if slots &&& ~~~(real <<< 1) = 0 then real <<< 1 else real

/-- The globals as `yac_allocator_startup` leaves them, with the offset of the slots in
the first segment and whatever their memory holds. -/
structure Allocated where
  firstSegSize : UInt32
  slotsOffset : UInt64
  slots : Nat → YacKvKey
  vals : ValAddr → YacKvVal
  offset_le : slotsOffset.toNat ≤ firstSegSize.toNat

/-- `first_seg.size - ((char *)slots - (char *)yac_storage)`. -/
def Allocated.remaining (g : Allocated) : UInt64 := g.firstSegSize.toUInt64 - g.slotsOffset

/-! ## The size of the table -/

theorem alignLoop_eq (size : UInt32) (bits : Nat) :
    alignLoop size bits = bits + size.toNat.log2 := by
  induction size, bits using alignLoop.induct with
  | case1 size bits hne ih =>
      have htwo : 2 ≤ size.toNat := by
        have hlt := shiftRight_one_lt hne
        have hpos : (size >>> 1).toNat ≠ 0 := fun hzero => hne (UInt32.toNat_inj.mp hzero)
        omega
      rw [alignLoop, if_pos hne, ih, shiftRight_one_toNat, Nat.log2_def size.toNat, if_pos htwo]
      omega
  | case2 size bits heq =>
      have hzero : (size >>> 1).toNat = 0 := by
        rw [not_not.mp heq]
        rfl
      rw [shiftRight_one_toNat] at hzero
      rw [alignLoop, if_neg heq, Nat.log2_def, if_neg (by omega), Nat.add_zero]

theorem log2_lt_of_lt {n k : Nat} (hk : 0 < k) (hlt : n < 2 ^ k) : n.log2 < k := by
  by_cases hzero : n = 0
  · rw [hzero, Nat.log2_zero]
    exact hk
  · exact (Nat.log2_lt hzero).mpr hlt

theorem two_pow_log2_lt {n k : Nat} (hk : 0 < k) (hlt : n < 2 ^ k) : 2 ^ n.log2 < 2 ^ k :=
  Nat.pow_lt_pow_right (by decide) (log2_lt_of_lt hk hlt)

theorem yacStorageAlignSize_toNat (size : UInt32) :
    (yacStorageAlignSize size).toNat = 2 ^ size.toNat.log2 := by
  have hbits : size.toNat.log2 < 32 := log2_lt_of_lt (by decide) size.toNat_lt
  have hword := two_pow_log2_lt (by decide) size.toNat_lt
  have hshift : (UInt32.ofNat size.toNat.log2).toNat % 32 = size.toNat.log2 := by
    rw [UInt32.toNat_ofNat_of_lt' (Nat.lt_trans hbits (by decide)), Nat.mod_eq_of_lt hbits]
  rw [yacStorageAlignSize, alignLoop_eq, Nat.zero_add, UInt32.toNat_shiftLeft, hshift,
    UInt32.toNat_one, Nat.one_shiftLeft, Nat.mod_eq_of_lt hword]

section

variable {size : UInt64} (hsize : size.toNat < 2 ^ 32)

include hsize

theorem aligned_toNat :
    (yacStorageAlignSize (size / sizeofYacKvKey).toUInt32).toUInt64.toNat =
      2 ^ (size.toNat / 88).log2 := by
  have hslots : (size / sizeofYacKvKey).toNat = size.toNat / 88 := rfl
  have hnarrow : (size / sizeofYacKvKey).toUInt32.toNat = size.toNat / 88 := by
    rw [UInt64.toNat_toUInt32, hslots]
    omega
  rw [UInt32.toNat_toUInt64, yacStorageAlignSize_toNat, hnarrow]

theorem doubled_toNat :
    ((yacStorageAlignSize (size / sizeofYacKvKey).toUInt32).toUInt64 <<< 1).toNat =
      2 ^ ((size.toNat / 88).log2 + 1) := by
  have hbits : (size.toNat / 88).log2 < 32 := log2_lt_of_lt (by decide) (by omega)
  have hword : (2 : Nat) ^ ((size.toNat / 88).log2 + 1) < 2 ^ 64 :=
    Nat.pow_lt_pow_right (by decide) (by omega)
  rw [UInt64.toNat_shiftLeft, aligned_toNat hsize]
  change 2 ^ (size.toNat / 88).log2 <<< 1 % 2 ^ 64 = _
  rw [Nat.shiftLeft_eq, ← Nat.pow_add, Nat.mod_eq_of_lt hword]

/-- The doubling test sees the highest bit of the number of slots unless there is no
bit at all. -/
theorem doubles_iff :
    (size / sizeofYacKvKey &&&
        ~~~((yacStorageAlignSize (size / sizeofYacKvKey).toUInt32).toUInt64 <<< 1) = 0) ↔
      size.toNat < 88 := by
  have hslots : (size / sizeofYacKvKey).toNat = size.toNat / 88 := rfl
  have hdoubled := doubled_toNat hsize
  constructor
  · intro hzero
    by_contra hsome
    have hne : size.toNat / 88 ≠ 0 := by omega
    have hbits : (size.toNat / 88).log2 < 64 := log2_lt_of_lt (by decide) (by omega)
    have hslot : (size / sizeofYacKvKey).toBitVec.getLsbD (size.toNat / 88).log2 = true := by
      change (size / sizeofYacKvKey).toNat.testBit _ = true
      rw [hslots]
      exact Nat.testBit_log2 hne
    have hclear : ((yacStorageAlignSize (size / sizeofYacKvKey).toUInt32).toUInt64 <<<
        1).toBitVec.getLsbD (size.toNat / 88).log2 = false := by
      change (UInt64.toNat _).testBit _ = false
      rw [hdoubled]
      exact Nat.testBit_two_pow_of_ne (Nat.succ_ne_self _)
    have hbit := congrArg (fun x => (UInt64.toBitVec x).getLsbD (size.toNat / 88).log2) hzero
    simp only [UInt64.toBitVec_and, UInt64.toBitVec_not, BitVec.getLsbD_and, BitVec.getLsbD_not,
      hslot, hclear, hbits, decide_true, Bool.not_false, Bool.and_true] at hbit
    exact absurd hbit (by simp)
  · intro hsmall
    have hnone : size / sizeofYacKvKey = 0 := by
      apply UInt64.toNat_inj.mp
      rw [hslots]
      exact Nat.div_eq_of_lt hsmall
    rw [hnone, UInt64.zero_and]

/-- Two slots where not even one fits, and otherwise the greatest power of two that
fits. -/
theorem realSize_toNat :
    (realSize size).toNat = if size.toNat < 88 then 2 else 2 ^ (size.toNat / 88).log2 := by
  unfold realSize
  by_cases hsmall : size.toNat < 88
  · have hnone : size.toNat / 88 = 0 := Nat.div_eq_of_lt hsmall
    simp only [if_pos ((doubles_iff hsize).mpr hsmall), if_pos hsmall, doubled_toNat hsize, hnone,
      Nat.log2_zero]
    rfl
  · simp only [if_neg (fun hzero => hsmall ((doubles_iff hsize).mp hzero)), if_neg hsmall]
    exact aligned_toNat hsize

/-- The narrowing to `slots_size` loses nothing. -/
theorem realSize_narrow : (realSize size).toUInt32.toNat = (realSize size).toNat := by
  rw [UInt64.toNat_toUInt32, realSize_toNat hsize]
  split
  next => rfl
  next => exact Nat.mod_eq_of_lt (two_pow_log2_lt (by decide) (by omega))

theorem realSize_pow : ∃ bits, (realSize size).toUInt32.toNat = 2 ^ bits := by
  rw [realSize_narrow hsize, realSize_toNat hsize]
  split
  next => exact ⟨1, rfl⟩
  next => exact ⟨_, rfl⟩

end

/-! ## The table -/

theorem Allocated.remaining_toNat (g : Allocated) :
    g.remaining.toNat = g.firstSegSize.toNat - g.slotsOffset.toNat := by
  rw [remaining, UInt64.toNat_sub_of_le, UInt32.toNat_toUInt64]
  exact UInt64.le_iff_toNat_le.mpr g.offset_le

theorem Allocated.remaining_lt (g : Allocated) : g.remaining.toNat < 2 ^ 32 := by
  have hlt := g.firstSegSize.toNat_lt
  rw [g.remaining_toNat]
  omega

theorem Allocated.mask_eq (g : Allocated) :
    (realSize g.remaining - 1).toUInt32 = (realSize g.remaining).toUInt32 - 1 := by
  rw [UInt64.toUInt32_sub]
  rfl

/-- The globals after the stores and the `memset` of start-up. -/
def startedTable (g : Allocated) : YacStorage where
  slots p := if p < (realSize g.remaining).toNat then .zero else g.slots p
  slotsMask := (realSize g.remaining - 1).toUInt32
  slotsNum := 0
  slotsSize := (realSize g.remaining).toUInt32
  miss := 0
  fails := 0
  kicks := 0
  hits := 0
  vals := g.vals
  size_pow := realSize_pow g.remaining_lt
  mask_eq := g.mask_eq

/-- `yac_storage_startup`, with the message of the allocator where that fails. -/
def yacStorageStartup (yacAllocatorStartup : UInt64 → UInt64 → Except String Allocated)
    (fsize size : UInt64) : Except String YacStorage :=
  match yacAllocatorStartup fsize size with
  | .error msg => .error msg
  | .ok g => .ok (startedTable g)

/-- A table whose size is the greatest power of two that fits the remaining bytes. -/
structure FitsSegment (s : YacStorage) (remaining : Nat) : Prop where
  size_pow : ∃ bits, s.slotsSize.toNat = 2 ^ bits
  mask_eq : s.slotsMask = s.slotsSize - 1
  index_lt : ∀ h, s.slotIndex h < s.slotsSize.toNat
  fits : s.slotsSize.toNat * sizeofYacKvKey.toNat ≤ remaining
  greatest : ∀ bits, s.slotsSize.toNat < 2 ^ bits → remaining < 2 ^ bits * sizeofYacKvKey.toNat

theorem startedTable_slotsSize (g : Allocated) :
    (startedTable g).slotsSize.toNat =
      if g.remaining.toNat < 88 then 2 else 2 ^ (g.remaining.toNat / 88).log2 :=
  (realSize_narrow g.remaining_lt).trans (realSize_toNat g.remaining_lt)

/-- Start-up leaves an all-zero table. -/
theorem startedTable_slots (g : Allocated) {p : Nat} (hlt : p < (startedTable g).slotsSize.toNat) :
    (startedTable g).slots p = .zero := by
  have hlow : p < (realSize g.remaining).toNat := by
    rw [← realSize_narrow g.remaining_lt]
    exact hlt
  exact if_pos hlow

theorem startedTable_fits_iff (g : Allocated) :
    FitsSegment (startedTable g) g.remaining.toNat ↔
      sizeofYacKvKey.toNat ≤ g.remaining.toNat := by
  have hsize := startedTable_slotsSize g
  rw [sizeofYacKvKey_toNat]
  constructor
  · intro hfits
    by_contra hsmall
    have hbytes := hfits.fits
    rw [sizeofYacKvKey_toNat, hsize, if_pos (Nat.lt_of_not_le hsmall)] at hbytes
    exact hsmall (Nat.le_trans (by decide) hbytes)
  · intro hle
    rw [if_neg (Nat.not_lt.mpr hle)] at hsize
    have hne : g.remaining.toNat / 88 ≠ 0 := Nat.div_ne_zero_iff.mpr ⟨by decide, hle⟩
    refine ⟨(startedTable g).size_pow, (startedTable g).mask_eq, (startedTable g).slotIndex_lt,
      ?_, ?_⟩
    · rw [hsize]
      exact (Nat.le_div_iff_mul_le (by decide)).mp (Nat.log2_self_le hne)
    · intro bits hbits
      rw [hsize] at hbits
      have hlog := (Nat.pow_lt_pow_iff_right (by decide)).mp hbits
      exact (Nat.div_lt_iff_lt_mul (by decide)).mp ((Nat.log2_lt hne).mp hlog)

/-- Where the allocator succeeds, start-up succeeds, and its table is the greatest
that fits the remaining bytes exactly when at least one slot fits them. -/
theorem yacStorageStartup_fits_iff
    (yacAllocatorStartup : UInt64 → UInt64 → Except String Allocated) (fsize size : UInt64)
    (g : Allocated) (hallocator : yacAllocatorStartup fsize size = .ok g) :
    ∃ s, yacStorageStartup yacAllocatorStartup fsize size = .ok s ∧
      (FitsSegment s (g.firstSegSize.toNat - g.slotsOffset.toNat) ↔
        sizeofYacKvKey.toNat ≤ g.firstSegSize.toNat - g.slotsOffset.toNat) := by
  refine ⟨startedTable g, by rw [yacStorageStartup, hallocator], ?_⟩
  rw [← g.remaining_toNat]
  exact startedTable_fits_iff g

/-- A first segment of the given size whose slots begin after 168 bytes. -/
def segmentOf (firstSegSize : UInt32) (hle : 168 ≤ firstSegSize.toNat) : Allocated where
  firstSegSize := firstSegSize
  slotsOffset := 168
  slots _ := .zero
  vals _ := ⟨0, 0, fun _ => 0⟩
  offset_le := hle

/-- Four megabytes hold a table. -/
theorem yacStorageStartup_fits_iff_default :
    ∃ s, yacStorageStartup (fun _ _ => .ok (segmentOf 4194304 (by decide))) 4194304 67108864 =
        .ok s ∧
      (FitsSegment s (4194304 - 168) ↔ 88 ≤ 4194304 - 168) :=
  yacStorageStartup_fits_iff _ 4194304 67108864 (segmentOf 4194304 (by decide)) rfl

/-- Where 87 bytes are left, two slots are cleared in them. -/
theorem yacStorageStartup_overruns :
    ¬ ∀ (yacAllocatorStartup : UInt64 → UInt64 → Except String Allocated) (fsize size : UInt64)
      (g : Allocated), yacAllocatorStartup fsize size = .ok g →
      ∃ s, yacStorageStartup yacAllocatorStartup fsize size = .ok s ∧
        FitsSegment s (g.firstSegSize.toNat - g.slotsOffset.toNat) := by
  intro hall
  obtain ⟨s, hstart, hfits⟩ :=
    hall (fun _ _ => .ok (segmentOf 255 (by decide))) 0 0 (segmentOf 255 (by decide)) rfl
  obtain rfl : startedTable (segmentOf 255 (by decide)) = s := Except.ok.inj hstart
  have hone := (startedTable_fits_iff (segmentOf 255 (by decide))).mp
    (by rwa [Allocated.remaining_toNat])
  exact absurd hone (by decide)

end McoWeb.Storage
