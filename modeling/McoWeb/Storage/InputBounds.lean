import Mathlib.Data.List.Nodup
import McoWeb.Foundation.Checked
import McoWeb.Storage.ChecksumLaws
import McoWeb.Storage.HashLaws

/-! # Hash and checksum stay inside their input

The hash and the checksum, run so that an access outside of their input is a
fault. The sampling of the checksum is written once more over `int` variables,
as the source has it, so that an overflow would be a fault as well; it returns
what the plain form returns.
-/

namespace McoWeb.Storage

open Foundation

/-- Reading the bytes of a buffer by index, with a fault outside of it. -/
def checkedChars (bytes : List UInt8) (i : Nat) : Checked UInt8 :=
  .charAt (bytes.getD · 0) bytes.length i

/-- `count` indices from `start` on, `step` apart. -/
def indices (start count step : Nat) : List Int := (List.range' start count step).map Nat.cast

theorem indices_append (start count more step : Nat) :
    indices start count step ++ indices (start + step * count) more step =
      indices start (count + more) step := by
  rw [indices, indices, ← List.map_append, List.range'_append]
  rfl

theorem mem_indices {start count : Nat} {j : Int} (hj : j ∈ indices start count 1) :
    (start : Int) ≤ j ∧ j < start + count := by
  obtain ⟨i, hi, rfl⟩ := List.mem_map.mp hj
  have hrange := List.mem_range'_1.mp hi
  omega

theorem checkedChars_returns {bytes : List UInt8} {i : Nat} (hi : i < bytes.length) :
    Checked.Returns (checkedChars bytes i) (bytes.getD i 0) [(i : Int)] :=
  .charAt _ hi

/-! ## The hash -/

theorem readBlock_returns {bytes : List UInt8} {off : Nat} (hoff : off + 4 ≤ bytes.length) :
    Checked.Returns (readBlock (checkedChars bytes) off)
      (Id.run (readBlock (charsOf bytes) off)) (indices off 4 1) := by
  refine .bind (checkedChars_returns (by omega)) ?_
  refine .bind (checkedChars_returns (by omega)) ?_
  refine .bind (checkedChars_returns (by omega)) ?_
  refine .bind (checkedChars_returns (by omega)) ?_
  exact .pure _

theorem hashBlocks_returns {bytes : List UInt8} {off len : Nat} (h : UInt32)
    (hlen : off + len ≤ bytes.length) :
    Checked.Returns (hashBlocks (checkedChars bytes) off len h)
      (off + 4 * (len / 4), len % 4, (Id.run (hashBlocks (charsOf bytes) off len h)).2.2)
      (indices off (4 * (len / 4)) 1) := by
  induction len using Nat.strongRecOn generalizing off h with
  | ind len ih =>
      by_cases hshort : len < 4
      · rw [hashBlocks_short _ off h hshort, Nat.div_eq_of_lt hshort, Nat.mod_eq_of_lt hshort,
          hashBlocks_short _ off h hshort]
        exact .pure (off, len, h)
      · obtain ⟨rest, rfl⟩ : ∃ rest, len = rest + 4 := ⟨len - 4, by omega⟩
        have hblock : Checked.Returns (readBlock (checkedChars bytes) off) _ _ :=
          readBlock_returns (by omega)
        have hrest := @ih rest (by omega) (off + 4)
          (mixBlock h (Id.run (readBlock (charsOf bytes) off))) (by omega)
        have hturns : 4 * ((rest + 4) / 4) = 4 + 4 * (rest / 4) := by omega
        rw [hturns, Nat.add_mod_right, ← Nat.add_assoc, ← indices_append, Nat.one_mul, hashBlocks,
          hashBlocks]
        exact .bind hblock hrest

/-- The tail switch reads what is left from its end backwards. -/
theorem hashTail_returns {bytes : List UInt8} {off len : Nat} (h : UInt32)
    (hlen : off + len ≤ bytes.length) (hshort : len < 4) :
    Checked.Returns (hashTail (checkedChars bytes) off len h)
      (Id.run (hashTail (charsOf bytes) off len h)) (indices off len 1).reverse := by
  have hcases : len = 0 ∨ len = 1 ∨ len = 2 ∨ len = 3 := by omega
  rcases hcases with rfl | rfl | rfl | rfl
  · exact .pure h
  · refine .bind (checkedChars_returns (by omega)) ?_
    exact .pure _
  · refine .bind (checkedChars_returns (by omega)) ?_
    refine .bind (checkedChars_returns (by omega)) ?_
    exact .pure _
  · refine .bind (checkedChars_returns (by omega)) ?_
    refine .bind (checkedChars_returns (by omega)) ?_
    refine .bind (checkedChars_returns (by omega)) ?_
    exact .pure _

/-- The indices that the hash of `n` bytes reads: the groups of four in order, and the
tail from its end. -/
def hashIndices (n : Nat) : List Int :=
  indices 0 (4 * (n / 4)) 1 ++ (indices (4 * (n / 4)) (n % 4) 1).reverse

theorem hashIndices_inside {n : Nat} {j : Int} (hj : j ∈ hashIndices n) : 0 ≤ j ∧ j < n := by
  rcases List.mem_append.mp hj with hblocks | htail
  · have hrange := mem_indices hblocks
    omega
  · have hrange := mem_indices (List.mem_reverse.mp htail)
    omega

/-- The loop leaves what is over after the groups of four. -/
theorem hashBlocks_whole_returns (bytes : List UInt8) (h : UInt32) :
    Checked.Returns (hashBlocks (checkedChars bytes) 0 bytes.length h)
      (4 * (bytes.length / 4), bytes.length % 4,
        foldGroups 4 mixGroup (bytes.length / 4) bytes h)
      (indices 0 (4 * (bytes.length / 4)) 1) := by
  have hblocks := hashBlocks_returns h (Nat.le_of_eq (Nat.zero_add bytes.length))
  rwa [hashBlocks_run bytes h (Nat.zero_add _), Nat.zero_add] at hblocks

theorem hashTail_whole_returns (bytes : List UInt8) (h : UInt32) :
    Checked.Returns (hashTail (checkedChars bytes) (4 * (bytes.length / 4)) (bytes.length % 4) h)
      (mixTail (bytes.drop (4 * (bytes.length / 4))) h)
      (indices (4 * (bytes.length / 4)) (bytes.length % 4) 1).reverse := by
  have hsplit := Nat.div_add_mod bytes.length 4
  have hshort : bytes.length % 4 < 4 := Nat.mod_lt _ (by decide)
  rw [← hashTail_run bytes _ _ h hsplit hshort]
  exact hashTail_returns h (Nat.le_of_eq hsplit) hshort

theorem yacInlineHashFunc1_returns (bytes : List UInt8) :
    Checked.Returns (yacInlineHashFunc1 (checkedChars bytes) bytes.length) (hashOf bytes)
      (hashIndices bytes.length) := by
  rw [yacInlineHashFunc1, UInt32.zero_xor, hashOf_eq, mixKey]
  refine .bind (hashBlocks_whole_returns bytes _) ?_
  exact .map (fun h => (finishHash h).toUInt64) (hashTail_whole_returns bytes _)

/-! ## The checksum -/

theorem crcLoop_returns (tab : UInt8 → UInt32) {bytes : List UInt8} {size p : Nat} (crc : UInt32)
    (hsize : p + size ≤ bytes.length) :
    Checked.Returns (crcLoop tab (checkedChars bytes) size p crc)
      (Id.run (crcLoop tab (charsOf bytes) size p crc)) (indices p size 1) := by
  induction size generalizing p crc with
  | zero => exact .pure crc
  | succ size ih =>
      rw [crcLoop, crcLoop]
      exact .bind (checkedChars_returns (by omega)) (ih _ (by omega))

theorem crcLoop_sample_returns (tab : UInt8 → UInt32) (contents : List UInt8) (size p : Nat)
    (crc : UInt32) :
    Checked.Returns (crcLoop tab (fun i => pure (contents.getD i 0)) size p crc)
      (Id.run (crcLoop tab (charsOf contents) size p crc)) [] := by
  induction size generalizing p crc with
  | zero => exact .pure crc
  | succ size ih =>
      rw [crcLoop, crcLoop]
      exact .bind (.pure (contents.getD p 0)) (ih _ _)

/-- `for (i = 0, j = 0; i < sizeof(crc_contents); i++, j += step)
crc_contents[i] = data[j];` from given values of `i` and `j` on. -/
def sampleInts (data : Int → Checked UInt8) (step i j : Int) : Checked (List UInt8) :=
  if i < sampleSize then do
    let c ← data j
    let _ ← Checked.int (i + 1)
    let _ ← Checked.int (j + step)
    let rest ← sampleInts data step (i + 1) (j + step)
    pure (c :: rest)
  else pure []
termination_by (sampleSize - i).toNat
decreasing_by omega

/-- `yac_crc32` over its `int` variables. -/
def yacCrc32Ints (crc32Tab : UInt8 → UInt32) (bytes : List UInt8) : Checked UInt32 :=
  if bytes.length < sampleSize then crc32 crc32Tab (checkedChars bytes) bytes.length
  else do
    let step ← Checked.int (bytes.length / sampleSize : Nat)
    let contents ← sampleInts (.charAt (bytes.getD · 0) bytes.length) step 0 0
    crc32 crc32Tab (fun i => pure (contents.getD i 0)) sampleSize

theorem sampleInts_returns {bytes : List UInt8} {step count j : Nat} {i : Int}
    (hi : i + count = sampleSize) (hfrom : 0 ≤ i)
    (hinside : ∀ k < count, j + k * step < bytes.length)
    (hint : j + count * step ≤ 2147483647) :
    Checked.Returns (sampleInts (.charAt (bytes.getD · 0) bytes.length) step i j)
      (Id.run (sample (charsOf bytes) step count j)) (indices j count step) := by
  induction count generalizing i j with
  | zero =>
      have hdone : ¬ i < sampleSize := by omega
      rw [sampleInts, if_neg hdone]
      exact .pure []
  | succ count ih =>
      have hmore : i < sampleSize := by omega
      have hj : j < bytes.length := by
        have hfirst := hinside 0 (Nat.succ_pos count)
        rwa [Nat.zero_mul] at hfirst
      rw [Nat.succ_mul] at hint
      have hrest := @ih (j + step) (i + 1) (by omega) (by omega) ?_ (by omega)
      · have hsize : (sampleSize : Int) = 128 := rfl
        rw [sampleInts, if_pos hmore, sample]
        refine .bind (.charAt _ hj) ?_
        refine .bind (.int (by omega) (by omega)) ?_
        refine .bind (.int (by omega) (by omega)) ?_
        exact .map (bytes.getD j 0 :: ·) hrest
      · intro k hk
        have hnext := hinside (k + 1) (by omega)
        rw [Nat.succ_mul] at hnext
        omega

/-- The indices that the checksum of `n` bytes reads. -/
def checksumIndices (n : Nat) : List Int :=
  if n < sampleSize then indices 0 n 1 else indices 0 sampleSize (n / sampleSize)

theorem crc32_returns (tab : UInt8 → UInt32) (bytes : List UInt8) :
    Checked.Returns (crc32 tab (checkedChars bytes) bytes.length)
      (Id.run (crc32 tab (charsOf bytes) bytes.length)) (indices 0 bytes.length 1) :=
  .map (· ^^^ 0xFFFFFFFF) (crcLoop_returns tab 0 (Nat.le_of_eq (Nat.zero_add _)))

theorem crc32_sample_returns (tab : UInt8 → UInt32) (contents : List UInt8) (size : Nat) :
    Checked.Returns (crc32 tab (fun i => pure (contents.getD i 0)) size)
      (Id.run (crc32 tab (charsOf contents) size)) [] :=
  .map (· ^^^ 0xFFFFFFFF) (crcLoop_sample_returns tab contents size 0 0)

/-- Below the limit of the length field the checksum over `int` variables meets no
fault and is the checksum. -/
theorem yacCrc32Ints_returns (tab : UInt8 → UInt32) {bytes : List UInt8}
    (hlen : bytes.length < 16777216) :
    Checked.Returns (yacCrc32Ints tab bytes) (checksumOf tab bytes)
      (checksumIndices bytes.length) := by
  rw [yacCrc32Ints, checksumOf, yacCrc32, checksumIndices]
  split
  next => exact crc32_returns tab bytes
  next hlong =>
    have hstep : sampleSize * (bytes.length / sampleSize) ≤ bytes.length := Nat.mul_div_le _ _
    have hword : bytes.length / sampleSize ≤ bytes.length := Nat.div_le_self _ _
    have hsample : Checked.Returns
        (sampleInts (.charAt (bytes.getD · 0) bytes.length) (bytes.length / sampleSize : Nat) 0 0)
        (Id.run (sample (charsOf bytes) (bytes.length / sampleSize) sampleSize 0))
        (indices 0 sampleSize (bytes.length / sampleSize)) := by
      refine sampleInts_returns (Int.zero_add _) (Int.le_refl 0) ?_ ?_
      · intro k hk
        rw [Nat.zero_add]
        exact sample_lt hlong hk
      · rw [Nat.zero_add]
        omega
    have hint : bytes.length / sampleSize ≤ 2147483647 := by omega
    rw [← List.append_nil (indices _ _ _), ← List.nil_append (indices _ _ _ ++ _)]
    exact .bind (.intOfNat hint) (.bind hsample (crc32_sample_returns tab _ sampleSize))

theorem checksumIndices_inside {n : Nat} {j : Int} (hj : j ∈ checksumIndices n) :
    0 ≤ j ∧ j < n := by
  unfold checksumIndices at hj
  split at hj
  next =>
    have hrange := mem_indices hj
    omega
  next hlong =>
    obtain ⟨p, hp, rfl⟩ := List.mem_map.mp hj
    obtain ⟨i, hi, rfl⟩ := List.mem_range'.mp hp
    have hlt := sample_lt hlong hi
    rw [Nat.zero_add, Nat.mul_comm]
    omega

theorem checksumIndices_sampled {n : Nat} (hlong : sampleSize ≤ n) :
    (checksumIndices n).length = sampleSize ∧ (checksumIndices n).Nodup := by
  have hpos : 0 < n / sampleSize := Nat.div_pos hlong (by decide)
  rw [checksumIndices, if_neg (Nat.not_lt.mpr hlong), indices]
  refine ⟨?_, ?_⟩
  · rw [List.length_map, List.length_range']
  · exact List.Nodup.map (fun _ _ => Int.ofNat.inj) (List.nodup_range' _ hpos)

/-- The hash of a key never leaves the key: its loop ends with what is over after the
groups of four, and the tail reads that. -/
structure HashInside (bytes : List UInt8) : Prop where
  loop : ∀ h, ∃ h', Checked.Returns (hashBlocks (checkedChars bytes) 0 bytes.length h)
    (4 * (bytes.length / 4), bytes.length % 4, h') (indices 0 (4 * (bytes.length / 4)) 1)
  tail : ∀ h, ∃ h', Checked.Returns
    (hashTail (checkedChars bytes) (4 * (bytes.length / 4)) (bytes.length % 4) h) h'
    (indices (4 * (bytes.length / 4)) (bytes.length % 4) 1).reverse
  whole : Checked.Returns (yacInlineHashFunc1 (checkedChars bytes) bytes.length) (hashOf bytes)
    (hashIndices bytes.length)
  inside : ∀ j ∈ hashIndices bytes.length, 0 ≤ j ∧ j < bytes.length

/-- The checksum of a value never leaves the value and never overflows, and of a long
value it reads as many bytes as the sample holds. -/
structure ChecksumInside (crc32Tab : UInt8 → UInt32) (bytes : List UInt8) : Prop where
  whole : Checked.Returns (yacCrc32Ints crc32Tab bytes) (checksumOf crc32Tab bytes)
    (checksumIndices bytes.length)
  inside : ∀ j ∈ checksumIndices bytes.length, 0 ≤ j ∧ j < bytes.length
  sampled : sampleSize ≤ bytes.length →
    (checksumIndices bytes.length).length = sampleSize ∧
      (checksumIndices bytes.length).Nodup

/-- Hash and checksum stay inside their input, the checksum for every length that the
length field of a slot can hold. -/
theorem hashOf_checksumOf_inside (crc32Tab : UInt8 → UInt32) (bytes : List UInt8) :
    HashInside bytes ∧ (bytes.length < 2 ^ 24 → ChecksumInside crc32Tab bytes) := by
  refine ⟨?_, fun hlen => ?_⟩
  · exact ⟨fun h => ⟨_, hashBlocks_whole_returns bytes h⟩,
      fun h => ⟨_, hashTail_whole_returns bytes h⟩, yacInlineHashFunc1_returns bytes,
      fun _ => hashIndices_inside⟩
  · exact ⟨yacCrc32Ints_returns crc32Tab hlen, fun _ => checksumIndices_inside,
      checksumIndices_sampled⟩

/-- A value of 131 bytes: the first 128 are read. -/
theorem hashOf_checksumOf_inside_long :
    ChecksumInside standardTable (List.replicate 131 0x61) := by
  refine (hashOf_checksumOf_inside standardTable (List.replicate 131 0x61)).2 ?_
  rw [List.length_replicate]
  decide

end McoWeb.Storage
