import McoWeb.Storage.Sampling

/-! # What the checksum lets through

The bytes of a long value that `yac_crc32` does not look at are not protected: a lookup
returns an entry with one corrupted byte exactly if the byte is none of those that are
looked at, and misses otherwise.
-/

namespace McoWeb.Storage

open Foundation

/-- Values that agree wherever the checksum looks have the same checksum. -/
theorem checked_congr {original bytes : List UInt8} (hlen : original.length = bytes.length)
    (hagree : ∀ i, Sampled original.length i → original[i]? = bytes[i]?) :
    checked original = checked bytes := by
  by_cases hshort : original.length < sampleSize
  · rw [checked, checked, if_pos hshort, if_pos (hlen ▸ hshort)]
    apply List.ext_getElem?
    intro i
    by_cases hi : i < original.length
    · exact hagree i ⟨hi, .inl hshort⟩
    · rw [List.getElem?_eq_none (by omega), List.getElem?_eq_none (by omega)]
  · apply List.ext_getElem?
    intro k
    rw [getElem?_checked hshort, getElem?_checked (hlen ▸ hshort), ← hlen]
    split
    next hk => exact hagree _ ⟨sample_lt hshort hk, .inr ⟨k, hk, rfl⟩⟩
    next => rfl

/-- A live entry whose length and checksum were recorded for the given bytes, whatever its
data has become. -/
structure Recorded (s : YacStorage) (now : Int64) (p : Nat) (a : ValAddr) (original : List UInt8) :
    Prop where
  val_eq : (s.slots p).val = some a
  live : (s.slots p).ttl = 0 ∨ (s.slots p).ttl ≠ 1 ∧ now.toInt < (s.slots p).ttl.toNat
  len_eq : (s.slots p).len = (s.vals a).len
  size_eq : (s.slots p).vlen.toNat = original.length
  crc_eq : (s.slots p).crc = (checksumOf standardTable original).toUInt64

section

variable {env : StorageEnv} {s : YacStorage} {call : FindCall} {a : ValAddr}
  {original : List UInt8} {j : Nat}

/-- A change of a byte that the checksum looks at makes the lookup miss. -/
theorem Recorded.miss (hrecorded : Recorded s call.time (s.primary call.key) a original)
    (htab : env.crc32Tab = standardTable) (hlen : call.key.bytes.length ≤ yacStorageMaxKeyLen)
    (hholds : s.HoldsKey call.key (s.primary call.key))
    (hcorrupt : CorruptedAt j original ((s.vals a).read original.length)) :
    ∃ answer s', yacStorageFind env s call = .ok (answer, s') ∧ answer.ret = 0 ∧
      answer.out = call.out := by
  have hslot : Corrupted s (s.primary call.key) a original ((s.vals a).read original.length) :=
    ⟨hrecorded.val_eq, hrecorded.crc_eq, by rw [hrecorded.size_eq]⟩
  have hverifies : s.Verifies call.key a := ⟨hrecorded.val_eq, hholds.1, hlen, hholds.2⟩
  have houtcome := doVerify_outcome env s call (s.primary call.key) a
  rcases houtcome.verifiedHit hverifies with ⟨_, hhit⟩ | ⟨hret, hout⟩
  · exact absurd hhit (hslot.not_verifiedHit hcorrupt htab)
  · exact ⟨_, _, yacStorageFind_of_verifies hverifies, hret, hout⟩

/-- A change of any other byte does not: the data is returned as it has become. -/
theorem Recorded.hit (hrecorded : Recorded s call.time (s.primary call.key) a original)
    (htab : env.crc32Tab = standardTable) (hlen : call.key.bytes.length ≤ yacStorageMaxKeyLen)
    (hholds : s.HoldsKey call.key (s.primary call.key)) (hunsampled : ¬ Sampled original.length j)
    (hkept : ∀ i, i ≠ j → original[i]? = ((s.vals a).read original.length)[i]?) :
    ∃ answer s', yacStorageFind env s call = .ok (answer, s') ∧ answer.ret = 1 ∧
      answer.out = s.entryOut (s.primary call.key) a := by
  obtain ⟨hval, hlive, hlens, hsize, hcrc⟩ := hrecorded
  have hlength : original.length = ((s.vals a).read original.length).length :=
    (YacKvVal.length_read _ _).symm
  have hsame : checksumOf standardTable original =
      checksumOf standardTable ((s.vals a).read original.length) := by
    rw [checksumOf_eq, checksumOf_eq, checked_congr hlength]
    exact fun i hi => hkept i fun heq => hunsampled (heq ▸ hi)
  have hintact : s.Intact env call.time (s.primary call.key) a := by
    refine ⟨hval, hlive, hlens, ?_⟩
    rw [hcrc, htab, hsize, hsame]
  obtain ⟨s', hfind⟩ := yacStorageFind_primary hlen hholds hintact
  exact ⟨_, s', hfind, rfl, rfl⟩

theorem yacStorageFind_ret_unique {answer answer' : FindAnswer} {t t' : YacStorage}
    (hfind : yacStorageFind env s call = .ok (answer, t))
    (hfind' : yacStorageFind env s call = .ok (answer', t')) : answer.ret = answer'.ret := by
  rw [hfind] at hfind'
  cases hfind'
  rfl

end

/-- A value of 129 zero bytes. -/
def zeros : List UInt8 := List.replicate 129 0

theorem zeros_length : zeros.length = 129 := List.length_replicate

theorem zeros_getElem? (i : Nat) : zeros[i]? = if i < 129 then some 0 else none :=
  List.getElem?_replicate

/-- The table with `b`, whose value was the zero bytes when its checksum was recorded and
ends in a one now. -/
def zerosTable : YacStorage :=
  (tableWithB.setSlot 0
    { tableWithB.slots 0 with
      len := 0x8101
      crc := (checksumOf standardTable zeros).toUInt64 }).setVal 0
        ⟨0, 0x8101, fun i => if i = 128 then 1 else 0⟩

end McoWeb.Storage
