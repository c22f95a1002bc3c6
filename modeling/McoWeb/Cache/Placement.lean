import McoWeb.Cache.EntryFormat
import McoWeb.Storage.Entries

/-! # Placing an entry

What `yac_storage_update` does is in a file that the repository lacks. This is one thing that
it may do: put the entry in the primary slot of its key, with its data in the value cell of
that number, where no other slot uses the cell. The table stays a lossy map, and a lookup
finds the entry.
-/

namespace McoWeb.Cache

open Foundation Storage

/-- The slot of an entry without expiry. -/
def placedSlot (env : StorageEnv) (call : UpdateCall)
    (hfits : call.key.bytes.length ≤ yacStorageMaxKeyLen) (a : ValAddr) : YacKvKey :=
  { YacKvKey.zero.setLen call.key.len (UInt32.ofNat call.data.length) with
    h := hashOf call.key.bytes
    crc := (checksumOf env.crc32Tab call.data).toUInt64
    flag := call.flag
    val := some a
    key := KeyField.zero.overwrite call.key.bytes hfits }

/-- The table with the entry in the primary slot of its key. -/
def place (env : StorageEnv) (s : YacStorage) (call : UpdateCall)
    (hfits : call.key.bytes.length ≤ yacStorageMaxKeyLen) : YacStorage :=
  let p := s.primary call.key
  (s.setSlot p (placedSlot env call hfits p)).setVal p
    ⟨0, (placedSlot env call hfits p).len, fun i => call.data.getD i 0⟩

/-- No slot but the one of that number uses the value cell. -/
def CellFree (s : YacStorage) (a : ValAddr) : Prop :=
  ∀ q < s.slotsSize.toNat, q ≠ a → (s.slots q).val ≠ some a

instance (s : YacStorage) (a : ValAddr) : Decidable (CellFree s a) :=
  inferInstanceAs (Decidable (∀ q < _, _ → _))

section

variable {env : StorageEnv} {s : YacStorage} {call : UpdateCall}
  (hfits : call.key.bytes.length ≤ yacStorageMaxKeyLen)

theorem place_primary (key : Key) : (place env s call hfits).primary key = s.primary key := rfl

theorem place_slot : (place env s call hfits).slots (s.primary call.key) =
    placedSlot env call hfits (s.primary call.key) := Function.update_self _ _ _

theorem place_of_ne {q : Nat} (hne : q ≠ s.primary call.key) :
    (place env s call hfits).slots q = s.slots q := Function.update_of_ne hne _ _

theorem place_val : (place env s call hfits).vals (s.primary call.key) =
    ⟨0, (placedSlot env call hfits (s.primary call.key)).len, fun i => call.data.getD i 0⟩ :=
  Function.update_self _ _ _

theorem place_vals_of_ne {a : ValAddr} (hne : a ≠ s.primary call.key) :
    (place env s call hfits).vals a = s.vals a := Function.update_of_ne hne _ _

theorem placedSlot_len (a : ValAddr) : (placedSlot env call hfits a).len =
    (YacKvKey.zero.setLen call.key.len (UInt32.ofNat call.data.length)).len := rfl

/-- The packed lengths are those of the key and the data. -/
theorem placedSlot_lengths (hsize : call.data.length < 2 ^ 24) (a : ValAddr) :
    (placedSlot env call hfits a).klen = call.key.len ∧
      (placedSlot env call hfits a).vlen.toNat = call.data.length := by
  have hk1 : call.key.len.toNat < 2 ^ 8 := by
    rw [call.key.len_toNat]
    exact Nat.lt_of_le_of_lt hfits (by decide)
  have hv1 : (UInt32.ofNat call.data.length).toNat = call.data.length :=
    UInt32.toNat_ofNat_of_lt' (Nat.lt_trans hsize (by decide))
  obtain ⟨hklen, hvlen⟩ := setLen_lengths .zero hk1 (by rwa [hv1])
  rw [YacKvKey.klen, YacKvKey.vlen, placedSlot_len]
  exact ⟨hklen, (congrArg UInt32.toNat hvlen).trans hv1⟩

/-- The value cell holds the data. -/
theorem place_read : ((place env s call hfits).vals (s.primary call.key)).read call.data.length =
    call.data := by
  rw [place_val]
  apply List.ext_getElem
  · simp [YacKvVal.read]
  · intro i _ hi
    simp [YacKvVal.read, hi]

/-- The slot holds the key. -/
theorem place_holds (hsize : call.data.length < 2 ^ 24) :
    (place env s call hfits).HoldsKey call.key (s.primary call.key) := by
  rw [YacStorage.HoldsKey, YacStorage.Matches, place_slot]
  exact ⟨⟨rfl, (placedSlot_lengths hfits hsize _).1⟩, KeyField.zero.take_overwrite _ hfits⟩

/-- What a lookup hands out of the entry. -/
theorem place_entryOut (hsize : call.data.length < 2 ^ 24) :
    (place env s call hfits).entryOut (s.primary call.key) (s.primary call.key) =
      ⟨call.data ++ [0], (placedSlot env call hfits (s.primary call.key)).vlen, call.flag⟩ := by
  rw [YacStorage.entryOut, place_slot, (placedSlot_lengths hfits hsize _).2, place_read]
  rfl

theorem place_intact (hsize : call.data.length < 2 ^ 24) (now : Int64) :
    (place env s call hfits).Intact env now (s.primary call.key) (s.primary call.key) := by
  refine ⟨?_, .inl ?_, ?_, ?_⟩
  · rw [place_slot]
    rfl
  · rw [place_slot]
    rfl
  · rw [place_slot, place_val]
  · rw [place_slot, (placedSlot_lengths hfits hsize _).2, place_read]
    rfl

/-- Placing an entry puts it under its key and adds no other. -/
theorem place_lossy (hsize : call.data.length < 2 ^ 24)
    (hfree : CellFree s (s.primary call.key)) :
    LossyStep (s.entries env)
      (.put call.key
        ⟨call.data ++ [0], (placedSlot env call hfits (s.primary call.key)).vlen, call.flag⟩)
      ((place env s call hfits).entries env) := by
  refine ⟨(LossyStep.put _ _ _).held, ?_⟩
  intro other out hentry
  by_cases hprimary : s.primary other = s.primary call.key
  · obtain ⟨a, hverifies, _, rfl⟩ := (YacStorage.entries_eq_some_iff _ env other out).mp hentry
    have hval := hverifies.val_eq
    have hother : (place env s call hfits).HoldsKey other (s.primary call.key) := by
      rw [← hprimary]
      exact ⟨hverifies.hash_len, hverifies.holds⟩
    rw [place_primary, hprimary, place_slot] at hval
    obtain rfl : s.primary call.key = a := Option.some.inj hval
    obtain rfl := hother.unique (place_holds hfits hsize)
    rw [place_primary, place_entryOut hfits hsize]
    exact Function.update_self _ _ _
  · have hne : other ≠ call.key := fun heq => hprimary (congrArg s.primary heq)
    have hsame := @YacStorage.entries_congr s env (place env s call hfits) other rfl
      (place_of_ne hfits hprimary) fun a hval => place_vals_of_ne hfits (by
        rintro rfl
        exact hfree _ (s.slotIndex_lt _) hprimary hval)
    rw [hsame] at hentry
    change Function.update (s.entries env) call.key _ other = _
    rwa [Function.update_of_ne hne]

end

end McoWeb.Cache
