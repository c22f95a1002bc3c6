import McoWeb.Cache.Zval
import McoWeb.Storage.Table

/-! # Entry format

What an entry keeps of a value: its bytes, compressed where they are long, and a
flag word with the type, the compression bit and the uncompressed length. The
compressor and the serializer come with the build and are parameters.
-/

namespace McoWeb.Cache

open Foundation Storage

/-- `YAC_ENTRY_COMPRESSED`. -/
def yacEntryCompressed : UInt32 := 0x0020

/-- `YAC_ENTRY_TYPE_MASK`. -/
def yacEntryTypeMask : UInt32 := 0x1f

/-- `YAC_ENTRY_ORIG_LEN_SHIT`. -/
def yacEntryOrigLenShit : UInt32 := 6

/-- `YAC_ENTRY_MAX_ORIG_LEN`. -/
def yacEntryMaxOrigLen : Nat := 2 ^ (32 - 6) - 1

/-- `flag |= YAC_ENTRY_COMPRESSED; flag |= len << YAC_ENTRY_ORIG_LEN_SHIT`, as the
32 bits of the `int`. -/
def compressedFlag (flag : UInt32) (len : Nat) : UInt32 :=
  flag ||| yacEntryCompressed ||| (UInt32.ofNat len <<< yacEntryOrigLenShit)

/-- The flag word is three fields: five bits of type, the compression bit and the
length above them. -/
theorem compressedFlag_toNat {flag : UInt32} {len : Nat} (hlen : len ≤ yacEntryMaxOrigLen) :
    (compressedFlag flag len).toNat = packFields 6 (packFields 5 flag.toNat 1) len := by
  have hlt : len < 2 ^ 26 := Nat.lt_of_le_of_lt hlen (by decide)
  have hshift : (UInt32.ofNat len <<< yacEntryOrigLenShit).toNat = len <<< 6 := by
    rw [UInt32.toNat_shiftLeft, UInt32.toNat_ofNat_of_lt' (Nat.lt_trans hlt (by decide))]
    change len <<< 6 % 2 ^ 32 = len <<< 6
    rw [Nat.shiftLeft_eq]
    omega
  simp only [compressedFlag, UInt32.toNat_or, hshift, packFields]
  rfl

theorem packed_type_lt {flag : UInt32} (hflag : flag.toNat < 2 ^ 5) :
    packFields 5 flag.toNat 1 < 2 ^ 6 := by
  rw [packFields_eq 1 hflag]
  omega

section

variable {flag : UInt32} {len : Nat} (hflag : flag.toNat < 2 ^ 5)
  (hlen : len ≤ yacEntryMaxOrigLen)

include hflag hlen

theorem compressedFlag_type : compressedFlag flag len &&& yacEntryTypeMask = flag := by
  apply UInt32.toNat_inj.mp
  have hword := packFields_mod len (packed_type_lt hflag)
  have htype := packFields_mod 1 hflag
  rw [UInt32.toNat_and, compressedFlag_toNat hlen]
  change _ &&& (2 ^ 5 - 1) = _
  rw [Nat.and_two_pow_sub_one_eq_mod, ← Nat.mod_mod_of_dvd _ (by decide : 2 ^ 5 ∣ 2 ^ 6), hword,
    htype]

theorem compressedFlag_origLen :
    (compressedFlag flag len >>> yacEntryOrigLenShit).toNat = len := by
  rw [UInt32.toNat_shiftRight, compressedFlag_toNat hlen]
  change _ >>> 6 = len
  rw [Nat.shiftRight_eq_div_pow, packFields_div len (packed_type_lt hflag)]

end

theorem compressedFlag_compressed (flag : UInt32) (len : Nat) :
    compressedFlag flag len &&& yacEntryCompressed ≠ 0 := by
  have habsorb : compressedFlag flag len &&& yacEntryCompressed = yacEntryCompressed := by
    apply UInt32.toNat_inj.mp
    apply Nat.eq_of_testBit_eq
    intro i
    simp only [compressedFlag, UInt32.toNat_and, UInt32.toNat_or, Nat.testBit_and, Nat.testBit_or]
    cases yacEntryCompressed.toNat.testBit i <;> simp
  rw [habsorb]
  decide

/-- The test both switches of `yac_add_impl` make of a length, before and after
compression. -/
def overLimit (compressThreshold : UInt64) (len : Nat) : Prop :=
  compressThreshold.toNat < len ∨ yacStorageMaxEntryLen < len

instance (compressThreshold : UInt64) (len : Nat) : Decidable (overLimit compressThreshold len) :=
  inferInstanceAs (Decidable (_ ∨ _))

/-- `fastlz_compress` and `fastlz_decompress`. No bytes stand for a result of
length 0, and decompression never writes past its bound. -/
structure FastLz where
  compress : List UInt8 → List UInt8
  decompress : List UInt8 → Nat → List UInt8
  decompress_length_le : ∀ data bound, (decompress data bound).length ≤ bound

/-- Decompression with the original length as bound undoes every successful
compression. -/
def FastLz.Undoes (fastlz : FastLz) : Prop :=
  ∀ data, fastlz.compress data ≠ [] →
    fastlz.decompress (fastlz.compress data) data.length = data

/-- `yac_serializer_php_pack` and `yac_serializer_php_unpack`. -/
structure Serializer where
  pack : Zval → Option (List UInt8)
  unpack : List UInt8 → Option Zval

end McoWeb.Cache
