import McoWeb.Foundation.Groups
import McoWeb.Foundation.Words
import McoWeb.Storage.Hits

/-! # What the value checksum detects

The register is signed, so its shift drags copies of the sign bit in and the loop
is not the textbook division. It is a bijection of the register all the same: the
only entry of the standard table whose top nine bits are copies of one bit is the
entry of zero. A change of one checked byte therefore reaches the checksum, and a
lookup of the value misses.
-/

namespace McoWeb.Storage

open Foundation

/-- The reflected table of the polynomial `0xEDB88320`. -/
def standardTable (d : UInt8) : UInt32 := ⟨reflectedTable 0xEDB88320#32 d.toBitVec⟩

example : standardTable 1 = 0x77073096 := by decide

/-- `yac_crc32` looks at this position of a value of `n` bytes. -/
def Sampled (n j : Nat) : Prop :=
  j < n ∧ (n < sampleSize ∨ ∃ i < sampleSize, j = i * (n / sampleSize))

/-- One checked byte of a value has changed, and no other byte. -/
structure CorruptedAt (j : Nat) (original bytes : List UInt8) : Prop where
  length_eq : original.length = bytes.length
  sampled : Sampled original.length j
  changed : original[j]? ≠ bytes[j]?
  kept : ∀ i, i ≠ j → original[i]? = bytes[i]?

/-! ## The register -/

/-- The only table entry that an arithmetic shift by eight can produce. -/
theorem reflectedTable_signed :
    ∀ d : BitVec 8, (reflectedTable 0xEDB88320#32 d).sshiftRight 23 =
      (reflectedTable 0xEDB88320#32 d).sshiftRight 31 → d = 0#8 := by
  decide +kernel

/-- One step of the register, without the character. -/
def registerStep (x : BitVec 32) : BitVec 32 :=
  reflectedTable 0xEDB88320#32 (x.setWidth 8) ^^^ x.sshiftRight 8

theorem registerStep_injective : Function.Injective registerStep := by
  have hlinear : XorLinear registerStep :=
    ((reflectedTable_linear _).comp .setWidth).xor (.sshiftRight 8)
  refine hlinear.injective fun x hzero => ?_
  have hentry : reflectedTable 0xEDB88320#32 (x.setWidth 8) = x.sshiftRight 8 :=
    BitVec.xor_eq_zero_iff.mp hzero
  have hlow : x.setWidth 8 = 0#8 := by
    apply reflectedTable_signed
    rw [hentry, ← BitVec.sshiftRight_add, ← BitVec.sshiftRight_add]
    -- both shifts leave nothing but the sign
    apply BitVec.eq_of_getLsbD_eq
    intro i hi
    simp only [BitVec.getLsbD_sshiftRight]
    rw [if_neg (by omega : ¬ 8 + 31 + i < 32)]
    split
    next hbit =>
      obtain rfl : i = 0 := by omega
      rw [BitVec.msb_eq_getLsbD_last]
    next => rfl
  have hhigh : x.sshiftRight 8 = 0#32 := by
    rw [← hentry, hlow]
    decide
  apply BitVec.eq_of_getLsbD_eq
  intro i hi
  by_cases hi8 : i < 8
  · have hbit := congrArg (fun y => BitVec.getLsbD y i) hlow
    simpa [hi8] using hbit
  · have hbit : (x.sshiftRight 8).getLsbD (i - 8) = false := by
      rw [hhigh, BitVec.getLsbD_zero]
    have hback : 8 + (i - 8) = i := by omega
    have hinside : ¬ 32 ≤ i - 8 := by omega
    rw [BitVec.getLsbD_sshiftRight, hback, if_pos hi, decide_eq_false hinside, Bool.not_false,
      Bool.true_and] at hbit
    rw [hbit, BitVec.getLsbD_zero]

theorem reflectedTable_injective : Function.Injective (reflectedTable 0xEDB88320#32) := by
  refine (reflectedTable_linear _).injective fun d hzero => ?_
  apply reflectedTable_signed
  rw [hzero]
  decide

theorem crcStep_toBitVec (crc : UInt32) (c : UInt8) :
    (crcStep standardTable crc c).toBitVec =
      registerStep crc.toBitVec ^^^ reflectedTable 0xEDB88320#32 c.toBitVec := by
  have hindex : ((crc ^^^ charToInt c) &&& 0xFF).toUInt8.toBitVec =
      crc.toBitVec.setWidth 8 ^^^ c.toBitVec := by
    apply BitVec.eq_of_getLsbD_eq
    intro i hi
    have hmask : (0xFF : UInt32).toBitVec.getLsbD i = true := by
      have hall : ∀ i < 8, (0xFF : UInt32).toBitVec.getLsbD i = true := by decide
      exact hall i hi
    have hword : i < 32 := by omega
    simp only [UInt32.toBitVec_toUInt8, BitVec.getLsbD_setWidth, UInt32.toBitVec_and,
      UInt32.toBitVec_xor, BitVec.getLsbD_and, BitVec.getLsbD_xor, hmask, charToInt,
      BitVec.getLsbD_signExtend, hi, hword, decide_true, if_true, Bool.and_true, Bool.true_and]
  rw [registerStep]
  change reflectedTable 0xEDB88320#32 ((crc ^^^ charToInt c) &&& 0xFF).toUInt8.toBitVec ^^^
    crc.toBitVec.sshiftRight 8 = _
  rw [hindex, reflectedTable_linear]
  ac_rfl

theorem crcStep_injective (c : UInt8) :
    Function.Injective fun crc => crcStep standardTable crc c := by
  intro crc crc' heq
  have hbits := congrArg UInt32.toBitVec heq
  simp only [crcStep_toBitVec] at hbits
  exact UInt32.toBitVec_inj.mp (registerStep_injective ((BitVec.xor_left_inj _).mp hbits))

theorem crcStep_injective_char (crc : UInt32) : Function.Injective (crcStep standardTable crc) := by
  intro c c' heq
  have hbits := congrArg UInt32.toBitVec heq
  simp only [crcStep_toBitVec] at hbits
  exact UInt8.toBitVec_inj.mp (reflectedTable_injective ((BitVec.xor_right_inj _).mp hbits))

/-! ## The loop and the sample -/

theorem crcLoop_run (tab : UInt8 → UInt32) (bytes : List UInt8) {size p : Nat} (crc : UInt32)
    (hsize : p + size = bytes.length) :
    Id.run (crcLoop tab (charsOf bytes) size p crc) = (bytes.drop p).foldl (crcStep tab) crc := by
  induction size generalizing p crc with
  | zero =>
      rw [List.drop_eq_nil_of_le (by omega)]
      rfl
  | succ size ih =>
      rw [drop_eq_getD_cons (by omega), List.foldl_cons, ← ih _ (by omega), crcLoop]
      rfl

theorem crc32_run (tab : UInt8 → UInt32) (bytes : List UInt8) :
    Id.run (crc32 tab (charsOf bytes) bytes.length) =
      bytes.foldl (crcStep tab) 0 ^^^ 0xFFFFFFFF := by
  have hloop : Id.run (crcLoop tab (charsOf bytes) bytes.length 0 0) =
      (bytes.drop 0).foldl (crcStep tab) 0 := crcLoop_run tab bytes 0 (Nat.zero_add _)
  rw [List.drop_zero] at hloop
  rw [← hloop, crc32]
  rfl

theorem sample_run (bytes : List UInt8) (step count j : Nat) :
    Id.run (sample (charsOf bytes) step count j) =
      (List.range count).map fun i => bytes.getD (j + i * step) 0 := by
  induction count generalizing j with
  | zero => rfl
  | succ count ih =>
      have hhead : Id.run (sample (charsOf bytes) step (count + 1) j) =
          bytes.getD j 0 :: Id.run (sample (charsOf bytes) step count (j + step)) := rfl
      rw [hhead, ih, List.range_succ_eq_map, List.map_cons, List.map_map]
      simp only [Nat.zero_mul, Nat.add_zero, Function.comp_def, Nat.succ_mul, Nat.add_assoc,
        Nat.add_comm step]

/-- The characters the checksum of a value is made of. -/
def checked (bytes : List UInt8) : List UInt8 :=
  if bytes.length < sampleSize then bytes
  else (List.range sampleSize).map fun i => bytes.getD (i * (bytes.length / sampleSize)) 0

theorem checksumOf_eq (tab : UInt8 → UInt32) (bytes : List UInt8) :
    checksumOf tab bytes = (checked bytes).foldl (crcStep tab) 0 ^^^ 0xFFFFFFFF := by
  rw [← crc32_run, checksumOf, yacCrc32, checked]
  split
  next => rfl
  next =>
    have hsample := sample_run bytes (bytes.length / sampleSize) sampleSize 0
    simp only [Nat.zero_add] at hsample
    rw [List.length_map, List.length_range, ← hsample]
    rfl

/-- Every sample lies in the value. -/
theorem sample_lt {n i : Nat} (hlong : ¬ n < sampleSize) (hi : i < sampleSize) :
    i * (n / sampleSize) < n := by
  have hdiv := Nat.div_mul_le_self n sampleSize
  have hpos : 0 < n / sampleSize := Nat.div_pos (Nat.le_of_not_lt hlong) (by decide)
  have hlt := Nat.mul_lt_mul_of_pos_right hi hpos
  rw [Nat.mul_comm sampleSize] at hlt
  omega

theorem getElem?_checked {bytes : List UInt8} (hlong : ¬ bytes.length < sampleSize) (k : Nat) :
    (checked bytes)[k]? =
      if k < sampleSize then bytes[k * (bytes.length / sampleSize)]? else none := by
  rw [checked, if_neg hlong, List.getElem?_map]
  split
  next hk => simp [hk, sample_lt hlong hk]
  next hk => simp [Nat.le_of_not_lt hk]

/-- A corrupted byte changes one of the characters the checksum is made of. -/
theorem CorruptedAt.checked {j : Nat} {original bytes : List UInt8}
    (hcorrupt : CorruptedAt j original bytes) :
    ∃ k, AgreeOutside 1 k (checked original) (checked bytes) ∧
      (checked original)[k]? ≠ (checked bytes)[k]? := by
  obtain ⟨hlen, ⟨_, hsampled⟩, hchanged, hkept⟩ := hcorrupt
  by_cases hshort : original.length < sampleSize
  · refine ⟨j, ?_⟩
    rw [Storage.checked, Storage.checked, if_pos hshort, if_pos (hlen ▸ hshort)]
    refine ⟨.of_getElem? (by decide) hlen fun i hi => hkept i ?_, hchanged⟩
    rwa [Nat.div_one] at hi
  · obtain ⟨k, hk, rfl⟩ := hsampled.resolve_left hshort
    have hpos : 0 < original.length / sampleSize :=
      Nat.div_pos (Nat.le_of_not_lt hshort) (by decide)
    refine ⟨k, .of_getElem? (by decide) ?_ ?_, ?_⟩
    · rw [Storage.checked, Storage.checked, if_neg hshort, if_neg (hlen ▸ hshort)]
      simp
    · intro i hi
      rw [getElem?_checked hshort, getElem?_checked (hlen ▸ hshort), ← hlen]
      split
      next =>
        -- distinct samples are distinct positions
        refine hkept _ fun heq => hi ?_
        rw [Nat.div_one]
        exact Nat.eq_of_mul_eq_mul_right hpos heq
      next => rfl
    · rwa [getElem?_checked hshort, getElem?_checked (hlen ▸ hshort), ← hlen, if_pos hk, if_pos hk]

theorem checksumOf_ne {j : Nat} {original bytes : List UInt8}
    (hcorrupt : CorruptedAt j original bytes) :
    checksumOf standardTable original ≠ checksumOf standardTable bytes := by
  obtain ⟨k, hagree, hchanged⟩ := hcorrupt.checked
  have hlen := hagree.length_eq
  have hk : k < (checked original).length := by
    by_contra hbeyond
    rw [List.getElem?_eq_none (by omega), List.getElem?_eq_none (by omega)] at hchanged
    exact hchanged rfl
  obtain ⟨met, hmet⟩ := hagree.foldl_inj crcStep_injective hk (hlen ▸ hk) 0
  rw [checksumOf_eq, checksumOf_eq, ne_eq, UInt32.xor_left_inj, hmet,
    (crcStep_injective_char met).eq_iff]
  rw [List.getElem?_eq_getElem hk, List.getElem?_eq_getElem (hlen ▸ hk)] at hchanged
  exact fun heq => hchanged (congrArg some heq)

/-- A slot whose value was corrupted after its checksum was recorded. -/
structure Corrupted (s : YacStorage) (p : Nat) (a : ValAddr) (original bytes : List UInt8) :
    Prop where
  val_eq : (s.slots p).val = some a
  crc_eq : (s.slots p).crc = (checksumOf standardTable original).toUInt64
  read_eq : (s.vals a).read (s.slots p).vlen.toNat = bytes

theorem Corrupted.not_verifiedHit {j : Nat} {original bytes : List UInt8} {env : StorageEnv}
    {s : YacStorage} {call : FindCall} {out : FindOut} {p : Nat} {a : ValAddr}
    (hslot : Corrupted s p a original bytes) (hcorrupt : CorruptedAt j original bytes)
    (htab : env.crc32Tab = standardTable) : ¬ VerifiedHit env s call out p a := by
  intro hhit
  have hchecksum := hhit.checksum
  rw [hhit.data, hhit.size, hslot.read_eq, htab, hslot.crc_eq] at hchecksum
  exact checksumOf_ne hcorrupt (UInt32.toUInt64_inj.mp hchecksum).symm

/-- With the standard table, a change of one checked byte changes the checksum.
So the lookup of a key misses if its slot was corrupted in this way, and no
lookup returns the slot. -/
theorem checksumOf_detects (j : Nat) (original bytes : List UInt8)
    (hcorrupt : CorruptedAt j original bytes) :
    checksumOf standardTable original ≠ checksumOf standardTable bytes ∧
      ∀ (env : StorageEnv) (s : YacStorage) (call : FindCall) (p : Nat) (a : ValAddr),
        env.crc32Tab = standardTable → Corrupted s p a original bytes →
        (∀ answer s', yacStorageFind env s call = .ok (answer, s') → answer.exit ≠ .found p) ∧
          (p = s.primary call.key → s.Verifies call.key a →
            ∃ answer s', yacStorageFind env s call = .ok (answer, s') ∧ answer.ret = 0 ∧
              answer.out = call.out) := by
  refine ⟨checksumOf_ne hcorrupt, ?_⟩
  intro env s call p a htab hslot
  refine ⟨?_, ?_⟩
  · intro answer s' hfind hexit
    obtain ⟨_, a', hhit⟩ := yacStorageFind_found hfind hexit
    obtain rfl : a = a' := Option.some.inj (hslot.val_eq.symm.trans hhit.val_eq)
    exact hslot.not_verifiedHit hcorrupt htab hhit
  · rintro rfl hverifies
    have houtcome := doVerify_outcome env s call (s.primary call.key) a
    rcases houtcome.verifiedHit hverifies with ⟨_, hhit⟩ | ⟨hret, hout⟩
    · exact absurd hhit (hslot.not_verifiedHit hcorrupt htab)
    · exact ⟨_, _, yacStorageFind_of_verifies hverifies, hret, hout⟩

/-- The table with `b`, whose value was the letter `a` when its checksum was recorded
and is the letter `b` now. -/
def corruptTable : YacStorage :=
  (tableWithB.setSlot 0
    { tableWithB.slots 0 with
      len := 0x101
      crc := (checksumOf standardTable [0x61]).toUInt64 }).setVal 0 ⟨0, 0x101, fun _ => 0x62⟩

/-- The lookup of the corrupted entry misses. -/
theorem checksumOf_detects_letter :
    checksumOf standardTable [0x61] ≠ checksumOf standardTable [0x62] ∧
      ∃ answer s', yacStorageFind ⟨fun _ => 1, standardTable⟩ corruptTable ⟨keyB, 0, ⟨[], 0, 0⟩⟩ =
        .ok (answer, s') ∧ answer.ret = 0 ∧ answer.out = ⟨[], 0, 0⟩ := by
  have hkept : ∀ i, i ≠ 0 → [(0x61 : UInt8)][i]? = [(0x62 : UInt8)][i]? := by
    intro i hi
    rw [List.getElem?_eq_none (Nat.pos_of_ne_zero hi),
      List.getElem?_eq_none (Nat.pos_of_ne_zero hi)]
  obtain ⟨hne, hlookup⟩ := checksumOf_detects 0 [0x61] [0x62]
    ⟨rfl, ⟨by decide, .inl (by decide)⟩, by decide, hkept⟩
  have hmiss := hlookup ⟨fun _ => 1, standardTable⟩ corruptTable ⟨keyB, 0, ⟨[], 0, 0⟩⟩ 0 0 rfl
    ⟨by decide, by decide, by decide⟩
  exact ⟨hne, hmiss.2 (by decide) ⟨by decide, by decide, by decide, by decide⟩⟩

end McoWeb.Storage
