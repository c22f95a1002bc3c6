import McoWeb.Cache.DeleteImpl
import McoWeb.Cache.StoreArguments

/-! # The key the store sees

The three single-key functions address the same entry for the same prefix and
key. Whether that address is prefix followed by key is decided by the buffer the
prefixed key is printed into.
-/

namespace McoWeb.Cache

open Foundation Storage

namespace Yac

variable {σ : Type} (yac : Yac σ) (w : World σ) (pfx key : PhpString)

/-- Storing, looking up and deleting the key all hand the store this address. -/
structure Addresses (address : Key) : Prop where
  add : ∀ value ttl add call, yac.Stores w pfx key value ttl add call → call.key = address
  get : (yac.yacGetImpl w pfx key).2.requests = w.requests ++ [.find address]
  delete : ∀ ttl, ∃ next, yac.yacDeleteImpl w pfx (.string key) ttl = .ok next ∧
    next.requests = w.requests ++ [.delete address ttl]

variable {yac w pfx key}

theorem addresses_storageKey (yac : Yac σ) (w : World σ) (haccepted : ¬ KeyTooLong pfx key) :
    yac.Addresses w pfx key (storageKey pfx key) where
  add _ _ _ _ hstores := hstores.carried.2.1
  get := yac.yacGetImpl_requests w haccepted
  delete ttl := ⟨_, yac.yacDeleteImpl_string w ttl haccepted, rfl⟩

theorem Addresses.eq_storageKey {address : Key} (haccepted : ¬ KeyTooLong pfx key)
    (haddresses : yac.Addresses w pfx key address) : address = storageKey pfx key := by
  have hget := haddresses.get
  rw [yac.yacGetImpl_requests w haccepted, List.append_cancel_left_eq, List.singleton_inj] at hget
  exact (StoreCall.find.inj hget).symm

/-- For every accepted key the three functions agree on an address; it is prefix
followed by key exactly when there is no prefix, or prefix and key hold no zero
byte and leave room for the terminator; and keys of which this holds have
addresses of their own. -/
theorem addresses_concatenation_iff (yac : Yac σ) (w : World σ)
    (haccepted : ¬ KeyTooLong pfx key) :
    (∃ address, yac.Addresses w pfx key address) ∧
    ((∃ address, yac.Addresses w pfx key address ∧ address.bytes = pfx.bytes ++ key.bytes) ↔
      Concatenates pfx key) ∧
    ∀ key' address, ¬ KeyTooLong pfx key' → Concatenates pfx key → Concatenates pfx key' →
      yac.Addresses w pfx key address → yac.Addresses w pfx key' address → key = key' := by
  have haddresses := addresses_storageKey yac w haccepted
  refine ⟨⟨_, haddresses⟩, ⟨?_, ?_⟩, ?_⟩
  · rintro ⟨address, haddress, hbytes⟩
    rw [haddress.eq_storageKey haccepted] at hbytes
    exact (storageKey_bytes_iff haccepted).mp hbytes
  · intro hconcat
    exact ⟨_, haddresses, (storageKey_bytes_iff haccepted).mpr hconcat⟩
  · intro key' address haccepted' hconcat hconcat' haddress haddress'
    have heq : storageKey pfx key = storageKey pfx key' := by
      rw [← haddress.eq_storageKey haccepted, ← haddress'.eq_storageKey haccepted']
    exact storageKey_injective ((storageKey_bytes_iff haccepted).mpr hconcat)
      ((storageKey_bytes_iff haccepted').mpr hconcat') heq

end Yac

/-- The prefix `p`. -/
def prefixP : PhpString := ⟨[0x70], by decide⟩

/-- A key of 47 bytes that ends in the given one. -/
def longKey (last : UInt8) : PhpString :=
  ⟨List.replicate 46 0x61 ++ [last], by simp⟩

theorem addresses_concatenation_iff_short :
    ∃ address, plainYac.Addresses freshWorld prefixP ⟨[0x61], by decide⟩ address ∧
      address.bytes = [0x70, 0x61] :=
  (Yac.addresses_concatenation_iff plainYac freshWorld (by decide)).2.1.mpr (by decide)

/-- Under the prefix `p`, two keys of 47 bytes that differ in the last byte have
one address, the zero-terminated first 47 bytes of either. -/
theorem addresses_truncated :
    ¬ KeyTooLong prefixP (longKey 0x61) ∧ ¬ KeyTooLong prefixP (longKey 0x62) ∧
      longKey 0x61 ≠ longKey 0x62 ∧
      ∃ address : Key, address.bytes = 0x70 :: List.replicate 46 0x61 ++ [0] ∧
        plainYac.Addresses freshWorld prefixP (longKey 0x61) address ∧
        plainYac.Addresses freshWorld prefixP (longKey 0x62) address := by
  have hshort : ∀ last, ¬ KeyTooLong prefixP (longKey last) := by
    intro last
    have hlen : prefixP.length + (longKey last).length = yacStorageMaxKeyLen := rfl
    rw [keyTooLong_iff, hlen]
    exact Nat.lt_irrefl _
  have hsame : storageKey prefixP (longKey 0x61) = storageKey prefixP (longKey 0x62) := rfl
  refine ⟨hshort 0x61, hshort 0x62, by decide, storageKey prefixP (longKey 0x61), by decide, ?_, ?_⟩
  · exact Yac.addresses_storageKey plainYac freshWorld (hshort 0x61)
  · rw [hsame]
    exact Yac.addresses_storageKey plainYac freshWorld (hshort 0x62)

end McoWeb.Cache
