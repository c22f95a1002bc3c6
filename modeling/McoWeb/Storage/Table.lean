import Mathlib.Algebra.Group.Nat.Defs
import Mathlib.Data.List.Basic
import Mathlib.Logic.Function.Basic

/-! # The shared slot table

The declarations of `yac_storage.h`: values, slots and the storage globals. A
value pointer is `none` where C has `NULL` and otherwise names a cell of the
value memory, so two slots may share a value. Slots are addressed as C
addresses them, by any index; that the indices a lookup forms lie in the table
is a theorem about the mask.
-/

namespace McoWeb.Storage

/-- `yac_storage_max_key_len`. -/
def yacStorageMaxKeyLen : Nat := 48

/-- `yac_storage_max_entry_len`. -/
def yacStorageMaxEntryLen : Nat := 2 ^ 20

/-- `yac_key_klen_mask`. -/
def yacKeyKlenMask : UInt32 := 255

/-- `yac_key_vlen_bits`. -/
def yacKeyVlenBits : UInt32 := 8

/-- The key argument of a storage function: a pointer to as many bytes as its
`unsigned int` length says. -/
structure Key where
  bytes : List UInt8
  length_lt : bytes.length < 2 ^ 32

/-- The length argument that goes with a key. -/
def Key.len (key : Key) : UInt32 := UInt32.ofNat key.bytes.length

@[simp] theorem Key.len_toNat (key : Key) : key.len.toNat = key.bytes.length :=
  UInt32.toNat_ofNat_of_lt' key.length_lt

theorem Key.ext {key key' : Key} (hbytes : key.bytes = key'.bytes) : key = key' := by
  cases key
  cases key'
  cases hbytes
  rfl

instance : DecidableEq Key := fun key key' =>
  decidable_of_iff (key.bytes = key'.bytes) ⟨Key.ext, congrArg Key.bytes⟩

/-- The fixed array `unsigned char key[48]` of a slot. -/
structure KeyField where
  bytes : List UInt8
  length_eq : bytes.length = yacStorageMaxKeyLen
deriving DecidableEq

namespace KeyField

/-- The array after `memset` to zero. -/
def zero : KeyField := ⟨List.replicate yacStorageMaxKeyLen 0, List.length_replicate⟩

/-- The array after `memcpy` of a key into its first bytes. -/
def overwrite (field : KeyField) (key : List UInt8) (hfits : key.length ≤ yacStorageMaxKeyLen) :
    KeyField :=
  ⟨key ++ field.bytes.drop key.length, by
    rw [List.length_append, List.length_drop, field.length_eq]
    omega⟩

theorem take_overwrite (field : KeyField) (key : List UInt8)
    (hfits : key.length ≤ yacStorageMaxKeyLen) :
    (field.overwrite key hfits).bytes.take key.length = key :=
  List.take_left

/-- Copying a key over itself changes nothing. -/
theorem overwrite_eq_self_iff (field : KeyField) (key : List UInt8)
    (hfits : key.length ≤ yacStorageMaxKeyLen) :
    field.overwrite key hfits = field ↔ field.bytes.take key.length = key := by
  constructor
  · intro heq
    have hkey := field.take_overwrite key hfits
    rwa [heq] at hkey
  · intro hkey
    cases field with
    | mk bytes length_eq =>
        simp only [overwrite, KeyField.mk.injEq]
        conv_lhs => rw [← hkey]
        simp only [List.length_take]
        rw [Nat.min_eq_left (by omega), List.take_append_drop]

theorem overwrite_overwrite (field : KeyField) (key : List UInt8)
    (hfits : key.length ≤ yacStorageMaxKeyLen) :
    (field.overwrite key hfits).overwrite key hfits = field.overwrite key hfits :=
  (overwrite_eq_self_iff _ _ _).mpr (field.take_overwrite key hfits)

end KeyField

/-- The address of a value in shared memory. -/
abbrev ValAddr := Nat

/-- `yac_kv_val`: its header and the bytes that follow it. -/
structure YacKvVal where
  atime : UInt64
  len : UInt32
  data : Nat → UInt8

/-- The first `n` bytes of a value. -/
def YacKvVal.read (v : YacKvVal) (n : Nat) : List UInt8 := (List.range n).map v.data

/-- `yac_kv_key`: one slot. -/
structure YacKvKey where
  h : UInt64
  crc : UInt64
  ttl : UInt32
  len : UInt32
  flag : UInt32
  size : UInt32
  val : Option ValAddr
  key : KeyField
deriving DecidableEq

namespace YacKvKey

/-- The slot `memset` leaves. -/
def zero : YacKvKey := ⟨0, 0, 0, 0, 0, 0, none, .zero⟩

/-- `yac_key_klen`. -/
def klen (k : YacKvKey) : UInt32 := k.len &&& yacKeyKlenMask

/-- `yac_key_vlen`. -/
def vlen (k : YacKvKey) : UInt32 := k.len >>> yacKeyVlenBits

/-- `yac_key_set_len`. -/
def setLen (k : YacKvKey) (k1 v1 : UInt32) : YacKvKey :=
  { k with len := (v1 <<< yacKeyVlenBits) ||| (k1 &&& yacKeyKlenMask) }

end YacKvKey

/-- `yac_storage_globals` and the value memory behind it. The slot count is a
power of two and the mask one less, as start-up leaves them. -/
structure YacStorage where
  slots : Nat → YacKvKey
  slotsMask : UInt32
  slotsNum : UInt32
  slotsSize : UInt32
  miss : UInt32
  fails : UInt32
  kicks : UInt32
  hits : UInt64
  vals : ValAddr → YacKvVal
  size_pow : ∃ bits, slotsSize.toNat = 2 ^ bits
  mask_eq : slotsMask = slotsSize - 1

namespace YacStorage

/-- `h & slots_mask`. -/
def slotIndex (s : YacStorage) (h : UInt64) : Nat := (h &&& s.slotsMask.toUInt64).toNat

theorem slotsMask_toNat (s : YacStorage) : s.slotsMask.toNat = s.slotsSize.toNat - 1 := by
  obtain ⟨bits, hbits⟩ := s.size_pow
  have hpos : 0 < s.slotsSize.toNat := by rw [hbits]; exact Nat.two_pow_pos bits
  rw [s.mask_eq, UInt32.toNat_sub_of_le]
  · rfl
  · exact UInt32.le_iff_toNat_le.mpr hpos

theorem slotIndex_lt (s : YacStorage) (h : UInt64) : s.slotIndex h < s.slotsSize.toNat := by
  obtain ⟨bits, hbits⟩ := s.size_pow
  have hpos : 0 < s.slotsSize.toNat := by rw [hbits]; exact Nat.two_pow_pos bits
  have hle : s.slotIndex h ≤ s.slotsMask.toNat := by
    simp only [slotIndex, UInt64.toNat_and, UInt32.toNat_toUInt64]
    exact Nat.and_le_right
  have hmask := s.slotsMask_toNat
  omega

/-- Every slot of the table is all-zero or holds a value. -/
def SlotsInitialized (s : YacStorage) : Prop :=
  ∀ p < s.slotsSize.toNat, s.slots p = .zero ∨ (s.slots p).val ≠ none

/-- Replace one slot. -/
def setSlot (s : YacStorage) (p : Nat) (k : YacKvKey) : YacStorage :=
  { s with slots := Function.update s.slots p k }

/-- Replace one value. -/
def setVal (s : YacStorage) (a : ValAddr) (v : YacKvVal) : YacStorage :=
  { s with vals := Function.update s.vals a v }

/-- `p->ttl = 1`. -/
def mark (s : YacStorage) (p : Nat) : YacStorage := s.setSlot p { s.slots p with ttl := 1 }

/-- `k.val->atime = tv`. -/
def stamp (s : YacStorage) (a : ValAddr) (time : Int64) : YacStorage :=
  s.setVal a { s.vals a with atime := time.toUInt64 }

/-- `++yac_sg(miss)`. -/
def countMiss (s : YacStorage) : YacStorage := { s with miss := s.miss + 1 }

/-- `++yac_sg(hits)`. -/
def countHit (s : YacStorage) : YacStorage := { s with hits := s.hits + 1 }

section

variable (s : YacStorage) (p : Nat) (k : YacKvKey) (a : ValAddr) (v : YacKvVal)

@[simp] theorem setSlot_slots : (s.setSlot p k).slots = Function.update s.slots p k := rfl
@[simp] theorem setSlot_vals : (s.setSlot p k).vals = s.vals := rfl
@[simp] theorem setVal_slots : (s.setVal a v).slots = s.slots := rfl
@[simp] theorem setVal_vals : (s.setVal a v).vals = Function.update s.vals a v := rfl
@[simp] theorem countMiss_slots : s.countMiss.slots = s.slots := rfl
@[simp] theorem countMiss_vals : s.countMiss.vals = s.vals := rfl
@[simp] theorem countHit_slots : s.countHit.slots = s.slots := rfl
@[simp] theorem countHit_vals : s.countHit.vals = s.vals := rfl

end

end YacStorage

end McoWeb.Storage
