import McoWeb.Cache.RoundTrip

/-! # Store requests and the entry format

What the store packs into one length field, eight bits of key length and
twenty-four of value length, is safe because of limits that `yac_add_impl` checks
before it asks. A value it rejects, with a warning, asks for nothing.
-/

namespace McoWeb.Cache

open Foundation Storage

theorem length_storageKey_le {pfx key : PhpString} (haccepted : ¬ KeyTooLong pfx key) :
    (storageKey pfx key).bytes.length ≤ yacStorageMaxKeyLen := by
  rw [keyTooLong_iff, not_lt] at haccepted
  unfold storageKey
  split
  next =>
    have hbuf : (snprintf yacStorageMaxKeyLen (untilNul pfx.bytes ++ untilNul key.bytes)).2.length ≤
        yacStorageMaxKeyLen := length_snprintf_le (by decide) _
    exact Nat.le_trans (List.length_take_le' _ _) hbuf
  next => exact Nat.le_trans (Nat.le_add_left _ _) haccepted

/-- The packed length field as two fields. -/
theorem setLen_len_toNat (k : YacKvKey) {k1 v1 : UInt32} (hk1 : k1.toNat < 2 ^ 8)
    (hv1 : v1.toNat < 2 ^ 24) :
    (k.setLen k1 v1).len.toNat = packFields 8 k1.toNat v1.toNat := by
  have hshift : (v1 <<< yacKeyVlenBits).toNat = v1.toNat <<< 8 := by
    rw [UInt32.toNat_shiftLeft]
    change v1.toNat <<< 8 % 2 ^ 32 = v1.toNat <<< 8
    rw [Nat.shiftLeft_eq]
    omega
  have hmask : (k1 &&& yacKeyKlenMask).toNat = k1.toNat := by
    rw [UInt32.toNat_and]
    change k1.toNat &&& (2 ^ 8 - 1) = k1.toNat
    rw [Nat.and_two_pow_sub_one_eq_mod, Nat.mod_eq_of_lt hk1]
  rw [YacKvKey.setLen, UInt32.toNat_or, hshift, hmask, Nat.or_comm]
  rfl

/-- Packing lengths within the limits loses nothing. -/
theorem setLen_lengths (k : YacKvKey) {k1 v1 : UInt32} (hk1 : k1.toNat < 2 ^ 8)
    (hv1 : v1.toNat < 2 ^ 24) :
    (k.setLen k1 v1).klen = k1 ∧ (k.setLen k1 v1).vlen = v1 := by
  have hlen := setLen_len_toNat k hk1 hv1
  constructor
  · apply UInt32.toNat_inj.mp
    rw [YacKvKey.klen, UInt32.toNat_and, hlen]
    change _ &&& (2 ^ 8 - 1) = _
    rw [Nat.and_two_pow_sub_one_eq_mod, packFields_mod _ hk1]
  · apply UInt32.toNat_inj.mp
    rw [YacKvKey.vlen, UInt32.toNat_shiftRight, hlen]
    change _ >>> 8 = _
    rw [Nat.shiftRight_eq_div_pow, packFields_div _ hk1]

/-- The lengths of an update are within the limits of the store, and its length field
gives them back. -/
structure WithinFormat (call : UpdateCall) : Prop where
  key_le : call.key.bytes.length ≤ yacStorageMaxKeyLen
  size_le : call.data.length ≤ yacStorageMaxEntryLen
  klen : ∀ k : YacKvKey,
    (k.setLen call.key.len (UInt32.ofNat call.data.length)).klen.toNat = call.key.bytes.length
  vlen : ∀ k : YacKvKey,
    (k.setLen call.key.len (UInt32.ofNat call.data.length)).vlen.toNat = call.data.length

theorem WithinFormat.of_le {call : UpdateCall}
    (hkey : call.key.bytes.length ≤ yacStorageMaxKeyLen)
    (hsize : call.data.length ≤ yacStorageMaxEntryLen) : WithinFormat call := by
  have hkeyLen : call.key.len.toNat = call.key.bytes.length := call.key.len_toNat
  have hsizeLen : (UInt32.ofNat call.data.length).toNat = call.data.length :=
    UInt32.toNat_ofNat_of_lt' (Nat.lt_of_le_of_lt hsize (by decide))
  have hk1 : call.key.len.toNat < 2 ^ 8 := by
    rw [hkeyLen]
    exact Nat.lt_of_le_of_lt hkey (by decide)
  have hv1 : (UInt32.ofNat call.data.length).toNat < 2 ^ 24 := by
    rw [hsizeLen]
    exact Nat.lt_of_le_of_lt hsize (by decide)
  refine ⟨hkey, hsize, fun k => ?_, fun k => ?_⟩
  · rw [(setLen_lengths k hk1 hv1).1, hkeyLen]
  · rw [(setLen_lengths k hk1 hv1).2, hsizeLen]

namespace Yac

variable {σ : Type} {yac : Yac σ} {w : World σ} {pfx key : PhpString} {value : Zval}
  {ttl add : Int32}

theorem Stores.withinFormat {call : UpdateCall}
    (hstores : yac.Stores w pfx key value ttl add call) : WithinFormat call := by
  obtain ⟨haccepted, hkey, hencodes, _⟩ := hstores.carried
  refine .of_le ?_ hencodes.length_le
  rw [hkey]
  exact length_storageKey_le haccepted

/-- A store that warns has returned 0 and left the store alone. -/
theorem yacAddImpl_of_warns
    (hwarns : (yac.yacAddImpl w pfx key value ttl add).2.warnings ≠ w.warnings) :
    (yac.yacAddImpl w pfx key value ttl add).1 = 0 ∧
      (yac.yacAddImpl w pfx key value ttl add).2.requests = w.requests ∧
      (yac.yacAddImpl w pfx key value ttl add).2.store = w.store := by
  have houtcome := yacAddImpl_outcome yac w pfx key value ttl add
  generalize yac.yacAddImpl w pfx key value ttl add = result at houtcome hwarns
  cases houtcome with
  | refused => exact ⟨rfl, rfl, rfl⟩
  | scalar => exact absurd rfl hwarns
  | sized => exact absurd rfl hwarns

/-- Every store of a value makes at most one request, an update; it makes none if it
raises a warning; and the update is within the entry format. -/
theorem yacAddImpl_withinFormat (yac : Yac σ) (w : World σ) (pfx key : PhpString) (value : Zval)
    (ttl add : Int32) :
    ((yac.yacAddImpl w pfx key value ttl add).2.requests = w.requests ∨
        ∃ call, yac.Stores w pfx key value ttl add call) ∧
      ((yac.yacAddImpl w pfx key value ttl add).2.warnings ≠ w.warnings →
        (yac.yacAddImpl w pfx key value ttl add).1 = 0 ∧
          (yac.yacAddImpl w pfx key value ttl add).2.requests = w.requests ∧
          (yac.yacAddImpl w pfx key value ttl add).2.store = w.store) ∧
      ∀ call, yac.Stores w pfx key value ttl add call → WithinFormat call :=
  ⟨yacAddImpl_requests, yacAddImpl_of_warns, fun _ hstores => hstores.withinFormat⟩

end Yac

end McoWeb.Cache
