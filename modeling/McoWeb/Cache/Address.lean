import McoWeb.Cache.Entry

/-! # Storage keys

The opening lines that `yac_add_impl`, `yac_get_impl` and `yac_delete_impl` share:
the check of the combined length and the key built from prefix and key. They
differ in the text of their warning.
-/

namespace McoWeb.Cache

open Foundation Storage

/-- `(len + prefix_len) > yac_storage_max_key_len`, in `uint`. -/
def KeyTooLong (pfx key : PhpString) : Prop :=
  yacStorageMaxKeyLen < (UInt32.ofNat key.length + UInt32.ofNat pfx.length).toNat

instance (pfx key : PhpString) : Decidable (KeyTooLong pfx key) :=
  inferInstanceAs (Decidable (_ < _))

/-- The warning, with the word that the function opens it with. -/
def keyTooLongText (subject : String) (pfx : PhpString) : String :=
  subject ++ (if pfx.length ≠ 0 then "(include prefix)" else "") ++
    " can not be longer than 48 bytes"

/-- `len = snprintf(buf, sizeof(buf), "%s%s", prefix, key); key = buf` under a
prefix, and the key as it was passed without one. -/
def storageKey (pfx key : PhpString) : Key :=
  if pfx.length ≠ 0 then
    let printed := snprintf yacStorageMaxKeyLen (untilNul pfx.bytes ++ untilNul key.bytes)
    ⟨printed.2.take printed.1, by
      have hbuf : printed.2.length ≤ yacStorageMaxKeyLen :=
        length_snprintf_le (by decide) (untilNul pfx.bytes ++ untilNul key.bytes)
      have hsmall : yacStorageMaxKeyLen < 2 ^ 32 := by decide
      rw [List.length_take]
      omega⟩
  else ⟨key.bytes, key.length_lt_size⟩

theorem keyTooLong_iff (pfx key : PhpString) :
    KeyTooLong pfx key ↔ yacStorageMaxKeyLen < pfx.length + key.length := by
  have hkey := key.length_lt
  have hpfx := pfx.length_lt
  have hsum : (UInt32.ofNat key.length + UInt32.ofNat pfx.length).toNat =
      pfx.length + key.length := by
    rw [UInt32.toNat_add, UInt32.toNat_ofNat_of_lt' key.length_lt_size,
      UInt32.toNat_ofNat_of_lt' pfx.length_lt_size]
    simp only [PhpString.length]
    omega
  rw [KeyTooLong, hsum]

/-- The address is prefix followed by key. -/
def Concatenates (pfx key : PhpString) : Prop :=
  pfx.length = 0 ∨ 0 ∉ pfx.bytes ∧ 0 ∉ key.bytes ∧ pfx.length + key.length < yacStorageMaxKeyLen

instance (pfx key : PhpString) : Decidable (Concatenates pfx key) :=
  inferInstanceAs (Decidable (_ ∨ _))

theorem storageKey_bytes_iff {pfx key : PhpString} (haccepted : ¬ KeyTooLong pfx key) :
    (storageKey pfx key).bytes = pfx.bytes ++ key.bytes ↔ Concatenates pfx key := by
  rw [keyTooLong_iff, not_lt] at haccepted
  unfold storageKey Concatenates
  by_cases hpfx : pfx.length = 0
  · have hnil : pfx.bytes = [] := List.length_eq_zero_iff.mp hpfx
    simp [hpfx, hnil]
  · simp only [hpfx, ne_eq, not_false_eq_true, if_true, false_or]
    exact snprintf_append_iff pfx.bytes key.bytes (by decide) haccepted

/-- Under one prefix, keys whose addresses are concatenations have addresses of
their own. -/
theorem storageKey_injective {pfx key key' : PhpString}
    (hkey : (storageKey pfx key).bytes = pfx.bytes ++ key.bytes)
    (hkey' : (storageKey pfx key').bytes = pfx.bytes ++ key'.bytes)
    (heq : storageKey pfx key = storageKey pfx key') : key = key' := by
  rw [heq, hkey'] at hkey
  exact (PhpString.ext (List.append_cancel_left hkey)).symm

end McoWeb.Cache
