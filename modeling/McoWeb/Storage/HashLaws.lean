import McoWeb.Foundation.Groups
import McoWeb.Foundation.Words
import McoWeb.Storage.Hash

/-! # What the key hash separates

Every mixing step is a bijection of the hash, so two keys that differ in one
aligned group of four characters are separated as far as the group's own value
tells them apart. The tail characters are xored in and always do. The characters
of a block are or-ed together after their signs were extended: a character from
128 up sets every bit above its own and hides the characters behind it.
-/

namespace McoWeb.Storage

open Foundation

/-! ## The mixing steps -/

theorem mul_hashMultiplier_injective : Function.Injective fun h : UInt32 => h * hashMultiplier := by
  have hinv : hashMultiplier.toBitVec * 0x84bb19bd#32 = 1#32 := by decide
  intro h h' heq
  exact UInt32.toBitVec_inj.mp (mul_injective_of_inverse hinv (congrArg UInt32.toBitVec heq))

theorem xorShiftRight_toBitVec (h : UInt32) :
    (h ^^^ (h >>> 13)).toBitVec = h.toBitVec ^^^ (h.toBitVec >>> 13) ∧
      (h ^^^ (h >>> 15)).toBitVec = h.toBitVec ^^^ (h.toBitVec >>> 15) ∧
      (h ^^^ (h >>> 24)).toBitVec = h.toBitVec ^^^ (h.toBitVec >>> 24) :=
  ⟨rfl, rfl, rfl⟩

theorem finishHash_injective : Function.Injective finishHash := by
  intro h h' heq
  have hlast := congrArg UInt32.toBitVec heq
  simp only [finishHash, (xorShiftRight_toBitVec _).2.1] at hlast
  have hmul := UInt32.toBitVec_inj.mp (xorShiftRight_injective (by decide) hlast)
  have hfirst := congrArg UInt32.toBitVec (mul_hashMultiplier_injective hmul)
  simp only [(xorShiftRight_toBitVec _).1] at hfirst
  exact UInt32.toBitVec_inj.mp (xorShiftRight_injective (by decide) hfirst)

theorem mixBlock_injective_hash (k : UInt32) : Function.Injective fun h => mixBlock h k := by
  intro h h' heq
  exact mul_hashMultiplier_injective (UInt32.xor_left_inj _ |>.mp heq)

theorem mixBlock_injective_block (h : UInt32) : Function.Injective (mixBlock h) := by
  intro k k' heq
  have hmul := mul_hashMultiplier_injective (UInt32.xor_right_inj _ |>.mp heq)
  have hshift := congrArg UInt32.toBitVec hmul
  simp only [(xorShiftRight_toBitVec _).2.2] at hshift
  exact mul_hashMultiplier_injective
    (UInt32.toBitVec_inj.mp (xorShiftRight_injective (by decide) hshift))

/-! ## The characters of a group -/

/-- Characters or-ed into their bytes of a block, each with its sign extended. -/
def orChars : List UInt8 → UInt32
  | [] => 0
  | c :: rest => charToInt c ||| (orChars rest <<< 8)

/-- Characters xored in the same way. -/
def xorChars : List UInt8 → UInt32
  | [] => 0
  | c :: rest => charToInt c ^^^ (xorChars rest <<< 8)

/-- The characters that the value of a block shows: up to the first from 128 up. -/
def shown : List UInt8 → List UInt8
  | [] => []
  | c :: rest => if c < 0x80 then c :: shown rest else [c]

theorem getLsbD_charToInt (c : UInt8) {i : Nat} (hi : i < 32) :
    (charToInt c).toBitVec.getLsbD i =
      if i < 8 then c.toBitVec.getLsbD i else c.toBitVec.msb := by
  simp only [charToInt, BitVec.getLsbD_signExtend, hi, decide_true, Bool.true_and]

theorem getLsbD_shiftLeft_low (x : UInt32) {i : Nat} (hi : i < 8) :
    (x <<< 8).toBitVec.getLsbD i = false := by
  change (x.toBitVec <<< 8).getLsbD i = false
  rw [BitVec.getLsbD_shiftLeft, decide_eq_true hi, Bool.not_true, Bool.and_false, Bool.false_and]

theorem getLsbD_shiftLeft_high (x : UInt32) {i : Nat} (hi : i + 8 < 32) :
    (x <<< 8).toBitVec.getLsbD (i + 8) = x.toBitVec.getLsbD i := by
  change (x.toBitVec <<< 8).getLsbD (i + 8) = _
  have hhigh : ¬ i + 8 < 8 := by omega
  rw [BitVec.getLsbD_shiftLeft, decide_eq_true hi, decide_eq_false hhigh, Nat.add_sub_cancel]
  rfl

theorem lt_iff_msb (c : UInt8) : c < 0x80 ↔ c.toBitVec.msb = false := by
  rw [BitVec.msb_eq_decide, decide_eq_false_iff_not, Nat.not_le]
  exact UInt8.lt_iff_toNat_lt

theorem char_eq_of_bits {c d : UInt8}
    (hbits : ∀ i < 8, c.toBitVec.getLsbD i = d.toBitVec.getLsbD i) : c = d :=
  UInt8.toBitVec_inj.mp (BitVec.eq_of_getLsbD_eq hbits)

theorem getLsbD_orChars_low (c : UInt8) (rest : List UInt8) {i : Nat} (hi : i < 8) :
    (orChars (c :: rest)).toBitVec.getLsbD i = c.toBitVec.getLsbD i := by
  rw [orChars, UInt32.toBitVec_or, BitVec.getLsbD_or, getLsbD_charToInt c (by omega), if_pos hi,
    getLsbD_shiftLeft_low _ hi, Bool.or_false]

theorem getLsbD_orChars_high (c : UInt8) (rest : List UInt8) {i : Nat} (hi : i + 8 < 32) :
    (orChars (c :: rest)).toBitVec.getLsbD (i + 8) =
      (c.toBitVec.msb || (orChars rest).toBitVec.getLsbD i) := by
  rw [orChars, UInt32.toBitVec_or, BitVec.getLsbD_or, getLsbD_charToInt c hi,
    if_neg (by omega), getLsbD_shiftLeft_high _ hi]

/-- The low bytes of two block values agree exactly where the same characters are
shown. -/
theorem orChars_bits_iff {xs ys : List UInt8} (hlen : xs.length = ys.length)
    (hfour : xs.length ≤ 4) :
    (∀ i < 8 * xs.length, (orChars xs).toBitVec.getLsbD i = (orChars ys).toBitVec.getLsbD i) ↔
      shown xs = shown ys := by
  induction xs generalizing ys with
  | nil =>
      obtain rfl := List.length_eq_zero_iff.mp hlen.symm
      simp
  | cons c rest ih =>
      cases ys with
      | nil => simp at hlen
      | cons d rest' =>
          simp only [List.length_cons] at hlen hfour ⊢
          have htail := @ih rest' (by omega) (by omega)
          constructor
          · intro hbits
            obtain rfl : c = d := char_eq_of_bits fun i hi => by
              rw [← getLsbD_orChars_low c rest hi, ← getLsbD_orChars_low d rest' hi]
              exact hbits i (by omega)
            unfold shown
            split
            next hlow =>
              rw [htail.mp]
              intro i hi
              have hbit := hbits (i + 8) (by omega)
              rwa [getLsbD_orChars_high c rest (by omega), getLsbD_orChars_high c rest' (by omega),
                (lt_iff_msb c).mp hlow, Bool.false_or, Bool.false_or] at hbit
            next => rfl
          · intro hshown i hi
            obtain rfl : c = d := by
              unfold shown at hshown
              split at hshown <;> split at hshown <;> exact (List.cons.inj hshown).1
            by_cases hi8 : i < 8
            · rw [getLsbD_orChars_low c rest hi8, getLsbD_orChars_low c rest' hi8]
            obtain ⟨j, rfl⟩ : ∃ j, i = j + 8 := ⟨i - 8, by omega⟩
            rw [getLsbD_orChars_high c rest (by omega), getLsbD_orChars_high c rest' (by omega)]
            cases hmsb : c.toBitVec.msb with
            | true => rfl
            | false =>
                have hlow := (lt_iff_msb c).mpr hmsb
                simp only [shown, if_pos hlow, List.cons.injEq, true_and] at hshown
                rw [htail.mpr hshown j (by omega)]

theorem orChars_inj {xs ys : List UInt8} (hxs : xs.length = 4) (hys : ys.length = 4) :
    orChars xs = orChars ys ↔ shown xs = shown ys := by
  rw [← orChars_bits_iff (hxs.trans hys.symm) (Nat.le_of_eq hxs), hxs]
  constructor
  · rintro heq i _
    rw [heq]
  · exact fun hbits => UInt32.toBitVec_inj.mp (BitVec.eq_of_getLsbD_eq hbits)

theorem getLsbD_xorChars_low (c : UInt8) (rest : List UInt8) {i : Nat} (hi : i < 8) :
    (xorChars (c :: rest)).toBitVec.getLsbD i = c.toBitVec.getLsbD i := by
  rw [xorChars, UInt32.toBitVec_xor, BitVec.getLsbD_xor, getLsbD_charToInt c (by omega), if_pos hi,
    getLsbD_shiftLeft_low _ hi, Bool.xor_false]

theorem getLsbD_xorChars_high (c : UInt8) (rest : List UInt8) {i : Nat} (hi : i + 8 < 32) :
    (xorChars (c :: rest)).toBitVec.getLsbD (i + 8) =
      (c.toBitVec.msb ^^ (xorChars rest).toBitVec.getLsbD i) := by
  rw [xorChars, UInt32.toBitVec_xor, BitVec.getLsbD_xor, getLsbD_charToInt c hi,
    if_neg (by omega), getLsbD_shiftLeft_high _ hi]

/-- Xored characters hide nothing. -/
theorem xorChars_bits_inj {xs ys : List UInt8} (hlen : xs.length = ys.length)
    (hfour : xs.length ≤ 4)
    (hbits : ∀ i < 8 * xs.length,
      (xorChars xs).toBitVec.getLsbD i = (xorChars ys).toBitVec.getLsbD i) : xs = ys := by
  induction xs generalizing ys with
  | nil => exact (List.length_eq_zero_iff.mp hlen.symm).symm
  | cons c rest ih =>
      cases ys with
      | nil => simp at hlen
      | cons d rest' =>
          simp only [List.length_cons] at hlen hfour hbits
          obtain rfl : c = d := char_eq_of_bits fun i hi => by
            rw [← getLsbD_xorChars_low c rest hi, ← getLsbD_xorChars_low d rest' hi]
            exact hbits i (by omega)
          apply congrArg (c :: ·)
          apply ih (by omega) (by omega)
          intro i hi
          have hbit := hbits (i + 8) (by omega)
          rwa [getLsbD_xorChars_high c rest (by omega), getLsbD_xorChars_high c rest' (by omega),
            Bool.xor_right_inj] at hbit

/-! ## The hash as a fold over groups -/

/-- One turn of the loop, on the four characters it takes. -/
def mixGroup (chars : List UInt8) (h : UInt32) : UInt32 := mixBlock h (orChars chars)

/-- The tail switch, on the characters the loop left. -/
def mixTail (chars : List UInt8) (h : UInt32) : UInt32 :=
  if chars = [] then h else (h ^^^ xorChars chars) * hashMultiplier

theorem mixGroup_injective (chars : List UInt8) : Function.Injective (mixGroup chars) :=
  mixBlock_injective_hash (orChars chars)

theorem shiftLeft_bytes (x : UInt32) :
    x <<< 16 = (x <<< 8) <<< 8 ∧ x <<< 24 = ((x <<< 8) <<< 8) <<< 8 := by
  have hsixteen : x <<< 16 = (x <<< 8) <<< 8 :=
    UInt32.shiftLeft_add (b := 8) (c := 8) (by decide) (by decide) (by decide)
  have htwentyfour : x <<< 24 = (x <<< 16) <<< 8 :=
    UInt32.shiftLeft_add (b := 16) (c := 8) (by decide) (by decide) (by decide)
  exact ⟨hsixteen, by rw [htwentyfour, hsixteen]⟩

theorem readBlock_eq (bytes : List UInt8) (off : Nat) :
    Id.run (readBlock (charsOf bytes) off) = orChars [bytes.getD off 0, bytes.getD (off + 1) 0,
      bytes.getD (off + 2) 0, bytes.getD (off + 3) 0] := by
  change ((charToInt _ ||| charToInt _ <<< 8) ||| charToInt _ <<< 16) ||| charToInt _ <<< 24 = _
  simp only [orChars, (shiftLeft_bytes _).1, (shiftLeft_bytes _).2, UInt32.shiftLeft_or,
    UInt32.or_assoc, UInt32.zero_shiftLeft, UInt32.or_zero]
  rfl

theorem xorChars_pair (h : UInt32) (c₀ c₁ : UInt8) :
    (h ^^^ charToInt c₁ <<< 8) ^^^ charToInt c₀ = h ^^^ xorChars [c₀, c₁] := by
  rw [xorChars, xorChars, xorChars, UInt32.zero_shiftLeft, UInt32.xor_zero, UInt32.xor_assoc,
    UInt32.xor_comm (charToInt c₁ <<< 8)]

theorem xorChars_triple (h : UInt32) (c₀ c₁ c₂ : UInt8) :
    ((h ^^^ charToInt c₂ <<< 16) ^^^ charToInt c₁ <<< 8) ^^^ charToInt c₀ =
      h ^^^ xorChars [c₀, c₁, c₂] := by
  have hflip : ∀ x y z : UInt32, ((h ^^^ z) ^^^ y) ^^^ x = h ^^^ (x ^^^ (y ^^^ z)) := by
    intro x y z
    ac_rfl
  rw [xorChars, xorChars, xorChars, xorChars, UInt32.zero_shiftLeft, UInt32.xor_zero,
    UInt32.shiftLeft_xor, ← (shiftLeft_bytes _).1, hflip]

theorem hashTail_run (bytes : List UInt8) (off len : Nat) (h : UInt32)
    (hlen : off + len = bytes.length) (hshort : len < 4) :
    Id.run (hashTail (charsOf bytes) off len h) = mixTail (bytes.drop off) h := by
  have hcases : len = 0 ∨ len = 1 ∨ len = 2 ∨ len = 3 := by omega
  rcases hcases with rfl | rfl | rfl | rfl
  · have hdrop : bytes.drop off = [] := List.drop_eq_nil_of_le (by omega)
    rw [hdrop, mixTail, if_pos rfl]
    rfl
  · have hdrop : bytes.drop off = [bytes.getD off 0] := by
      rw [drop_eq_getD_cons (by omega), List.drop_eq_nil_of_le (by omega)]
    rw [hdrop, mixTail, if_neg (List.cons_ne_nil _ _), xorChars, xorChars, UInt32.zero_shiftLeft,
      UInt32.xor_zero]
    rfl
  · have hdrop : bytes.drop off = [bytes.getD off 0, bytes.getD (off + 1) 0] := by
      rw [drop_eq_getD_cons (by omega), drop_eq_getD_cons (by omega),
        List.drop_eq_nil_of_le (by omega)]
    rw [hdrop, mixTail, if_neg (List.cons_ne_nil _ _), ← xorChars_pair]
    rfl
  · have hdrop : bytes.drop off =
        [bytes.getD off 0, bytes.getD (off + 1) 0, bytes.getD (off + 2) 0] := by
      rw [drop_eq_getD_cons (by omega), drop_eq_getD_cons (by omega),
        drop_eq_getD_cons (by omega), List.drop_eq_nil_of_le (by omega)]
    rw [hdrop, mixTail, if_neg (List.cons_ne_nil _ _), ← xorChars_triple]
    rfl

theorem hashBlocks_short {m : Type → Type} [Monad m] (data : Nat → m UInt8) (off : Nat)
    (h : UInt32) {len : Nat} (hshort : len < 4) :
    hashBlocks data off len h = pure (off, len, h) := by
  have hcases : len = 0 ∨ len = 1 ∨ len = 2 ∨ len = 3 := by omega
  rcases hcases with rfl | rfl | rfl | rfl <;> rfl

theorem hashBlocks_run (bytes : List UInt8) {off len : Nat} (h : UInt32)
    (hlen : off + len = bytes.length) :
    hashBlocks (charsOf bytes) off len h =
      pure (off + 4 * (len / 4), len % 4, foldGroups 4 mixGroup (len / 4) (bytes.drop off) h) := by
  induction len using Nat.strongRecOn generalizing off h with
  | ind len ih =>
      by_cases hshort : len < 4
      · rw [hashBlocks_short _ off h hshort, Nat.div_eq_of_lt hshort, Nat.mod_eq_of_lt hshort]
        rfl
      · obtain ⟨rest, rfl⟩ : ∃ rest, len = rest + 4 := ⟨len - 4, by omega⟩
        have htake : (bytes.drop off).take 4 = [bytes.getD off 0, bytes.getD (off + 1) 0,
            bytes.getD (off + 2) 0, bytes.getD (off + 3) 0] := by
          rw [drop_eq_getD_cons (by omega), drop_eq_getD_cons (by omega),
            drop_eq_getD_cons (by omega), drop_eq_getD_cons (by omega)]
          rfl
        rw [hashBlocks]
        change hashBlocks (charsOf bytes) (off + 4) rest
          (mixBlock h (Id.run (readBlock (charsOf bytes) off))) = _
        rw [ih rest (by omega) _ (by omega), Nat.add_div_right rest (by decide),
          Nat.add_mod_right, foldGroups, List.drop_drop, htake, readBlock_eq, mixGroup,
          Nat.mul_succ, Nat.add_assoc, Nat.add_comm 4]

/-- The mixed characters of a key: its groups of four, then its tail. -/
def mixKey (bytes : List UInt8) (h : UInt32) : UInt32 :=
  mixTail (bytes.drop (4 * (bytes.length / 4)))
    (foldGroups 4 mixGroup (bytes.length / 4) bytes h)

/-- The hash of a key is the final avalanche of its mixed characters. -/
theorem hashOf_eq (bytes : List UInt8) :
    hashOf bytes = (finishHash (mixKey bytes (UInt32.ofNat bytes.length))).toUInt64 := by
  have hblocks := hashBlocks_run bytes (UInt32.ofNat bytes.length) (Nat.zero_add _)
  have htail := hashTail_run bytes (4 * (bytes.length / 4)) (bytes.length % 4)
    (foldGroups 4 mixGroup (bytes.length / 4) bytes (UInt32.ofNat bytes.length))
    (Nat.div_add_mod _ _) (Nat.mod_lt _ (by decide))
  rw [List.drop_zero, Nat.zero_add] at hblocks
  rw [hashOf, yacInlineHashFunc1, UInt32.zero_xor, hblocks, mixKey, ← htail]
  rfl

theorem hashOf_inj {a b : List UInt8} (hlen : a.length = b.length) :
    hashOf a = hashOf b ↔
      mixKey a (UInt32.ofNat b.length) = mixKey b (UInt32.ofNat b.length) := by
  rw [hashOf_eq, hashOf_eq, UInt32.toUInt64_inj, finishHash_injective.eq_iff, hlen]

/-! ## Keys that differ in one group -/

theorem mixTail_inj {xs ys : List UInt8} (hlen : xs.length = ys.length) (hshort : xs.length < 4)
    {h : UInt32} : mixTail xs h = mixTail ys h ↔ xs = ys := by
  constructor
  · intro heq
    by_cases hnil : xs = []
    · rw [hnil, List.length_nil] at hlen
      rw [hnil, List.length_eq_zero_iff.mp hlen.symm]
    · have hnil' : ys ≠ [] := by
        rintro rfl
        exact hnil (List.length_eq_zero_iff.mp hlen)
      rw [mixTail, mixTail, if_neg hnil, if_neg hnil'] at heq
      have hxor := (UInt32.xor_right_inj h).mp (mul_hashMultiplier_injective heq)
      refine xorChars_bits_inj hlen (Nat.le_of_lt hshort) fun i _ => ?_
      rw [hxor]
  · rintro rfl
    rfl

theorem mixTail_injective (xs : List UInt8) : Function.Injective (mixTail xs) := by
  intro h h' heq
  unfold mixTail at heq
  split at heq
  next => exact heq
  next => exact (UInt32.xor_left_inj _).mp (mul_hashMultiplier_injective heq)

theorem group_length {t : Nat} {bytes : List UInt8} (hblock : 4 * t + 4 ≤ bytes.length) :
    (group 4 t bytes).length = 4 := by
  rw [group, List.length_take, List.length_drop]
  omega

/-- Keys that differ in their tail are separated. -/
theorem hashOf_ne_of_tail {a b : List UInt8} {t : Nat} (hagree : AgreeOutside 4 t a b)
    (hne : a ≠ b) (htail : a.length < 4 * t + 4) : hashOf a ≠ hashOf b := by
  have hlen := hagree.length_eq
  have hbefore := hagree.before
  have hcount : b.length / 4 = t := by
    by_contra hother
    have hshort : a.length ≤ 4 * t := by omega
    rw [List.take_of_length_le hshort, List.take_of_length_le (hlen ▸ hshort)] at hbefore
    exact hne hbefore
  rw [ne_eq, hashOf_inj hlen, mixKey, mixKey, hlen, hcount,
    hagree.foldGroups_of_le (Nat.le_refl t), mixTail_inj (by simp [hlen]) (by simp; omega)]
  intro hdrop
  rw [← List.take_append_drop (4 * t) a, ← List.take_append_drop (4 * t) b, hbefore, hdrop] at hne
  exact hne rfl

/-- Keys that differ in a block are separated by what the block shows. -/
theorem hashOf_ne_iff_of_block {a b : List UInt8} {t : Nat} (hagree : AgreeOutside 4 t a b)
    (hblock : 4 * t + 4 ≤ a.length) :
    hashOf a ≠ hashOf b ↔ shown (group 4 t a) ≠ shown (group 4 t b) := by
  have hlen := hagree.length_eq
  have hdrop : a.drop (4 * (b.length / 4)) = b.drop (4 * (b.length / 4)) := by
    obtain ⟨rest, hrest⟩ : ∃ rest, 4 * (b.length / 4) = 4 * t + 4 + rest :=
      ⟨4 * (b.length / 4) - (4 * t + 4), by omega⟩
    have hbeyond : ∀ zs : List UInt8,
        zs.drop (4 * t + 4 + rest) = (zs.drop (4 * t + 4)).drop rest :=
      fun zs => List.drop_drop.symm
    rw [hrest, hbeyond, hbeyond, hagree.after]
  have hwithin : t < b.length / 4 := by omega
  obtain ⟨met, hmet⟩ :=
    hagree.foldGroups_inj mixGroup_injective hwithin (UInt32.ofNat b.length)
  rw [ne_eq, hashOf_inj hlen, mixKey, mixKey, hlen, hdrop, (mixTail_injective _).eq_iff, hmet,
    mixGroup, mixGroup, (mixBlock_injective_block met).eq_iff,
    orChars_inj (group_length hblock) (group_length (hlen ▸ hblock))]

/-- The hash separates two different keys of one length that agree outside one
aligned group of four exactly when the group is the tail of fewer characters or
the two blocks do not show the same characters. -/
theorem hashOf_separates_iff (a b : List UInt8) (t : Nat) (hlen : a.length = b.length)
    (hagree : ∀ i, i / 4 ≠ t → a[i]? = b[i]?) (hne : a ≠ b) :
    hashOf a ≠ hashOf b ↔ a.length < 4 * t + 4 ∨ shown (group 4 t a) ≠ shown (group 4 t b) := by
  have hgroups := AgreeOutside.of_getElem? (by decide) hlen hagree
  by_cases hblock : 4 * t + 4 ≤ a.length
  · rw [hashOf_ne_iff_of_block hgroups hblock]
    exact (or_iff_right (Nat.not_lt.mpr hblock)).symm
  · have htail : a.length < 4 * t + 4 := by omega
    exact iff_of_true (hashOf_ne_of_tail hgroups hne htail) (.inl htail)

/-- Two keys of plain characters that differ in the last of a block. -/
theorem hashOf_separates_iff_plain :
    hashOf [0x61, 0x62, 0x63, 0x64] ≠ hashOf [0x61, 0x62, 0x63, 0x65] ↔
      [0x61, 0x62, 0x63, 0x64].length < 4 * 0 + 4 ∨
        shown (group 4 0 [0x61, 0x62, 0x63, 0x64]) ≠
          shown (group 4 0 [0x61, 0x62, 0x63, 0x65]) := by
  refine hashOf_separates_iff _ _ 0 rfl ?_ (by decide)
  intro i hi
  have hbeyond : 4 ≤ i := by omega
  rw [List.getElem?_eq_none hbeyond, List.getElem?_eq_none hbeyond]

/-- The keys `80 61 61 61` and `80 62 62 62` have one hash. -/
theorem hashOf_hides_characters :
    ¬ ∀ (a b : List UInt8) (t : Nat), a.length = b.length →
      (∀ i, i / 4 ≠ t → a[i]? = b[i]?) → a ≠ b → hashOf a ≠ hashOf b := by
  intro hseparates
  refine hseparates [0x80, 0x61, 0x61, 0x61] [0x80, 0x62, 0x62, 0x62] 0 rfl ?_ (by decide)
    (by decide)
  intro i hi
  have hbeyond : 4 ≤ i := by omega
  rw [List.getElem?_eq_none hbeyond, List.getElem?_eq_none hbeyond]

end McoWeb.Storage
