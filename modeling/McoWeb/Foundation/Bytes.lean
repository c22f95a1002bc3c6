import Mathlib.Data.List.TakeWhile
import Mathlib.Tactic.Ring

/-! # Byte strings

Representations that C programs exchange as bytes and words: machine words in
little-endian order, two fields packed into one word, decimal numerals, and
zero-terminated strings printed into a buffer of fixed size.
-/

namespace McoWeb.Foundation

/-- The bytes of a text without other characters than those of ASCII. -/
def ascii (text : String) : List UInt8 := text.toList.map fun c => UInt8.ofNat c.toNat

/-! ## Little-endian words -/

/-- The `width` low bytes of a number, least significant first. -/
def toWord : Nat → Nat → List UInt8
  | 0, _ => []
  | width + 1, n => UInt8.ofNat n :: toWord width (n / 256)

/-- The number with the given bytes. -/
def ofWord : List UInt8 → Nat
  | [] => 0
  | b :: rest => b.toNat + 256 * ofWord rest

@[simp] theorem length_toWord (width n : Nat) : (toWord width n).length = width := by
  induction width generalizing n with
  | zero => rfl
  | succ width ih => simp [toWord, ih]

theorem ofWord_toWord (width n : Nat) : ofWord (toWord width n) = n % 256 ^ width := by
  induction width generalizing n with
  | zero => simp [toWord, ofWord, Nat.mod_one]
  | succ width ih =>
      have hbyte : (UInt8.ofNat n).toNat = n % 256 := UInt8.toNat_ofNat'
      rw [toWord, ofWord, ih, hbyte, pow_succ', Nat.mod_mul]

theorem ofWord_toWord_of_lt {width n : Nat} (hlt : n < 256 ^ width) :
    ofWord (toWord width n) = n := by
  rw [ofWord_toWord, Nat.mod_eq_of_lt hlt]

/-! ## Packed fields -/

/-- A field of `k` bits under another field. -/
def packFields (k low high : Nat) : Nat := low ||| (high <<< k)

theorem packFields_eq {k low : Nat} (high : Nat) (hlow : low < 2 ^ k) :
    packFields k low high = low + 2 ^ k * high := by
  rw [packFields, Nat.or_comm, ← Nat.shiftLeft_add_eq_or_of_lt hlow, Nat.shiftLeft_eq]
  ring

theorem packFields_mod {k low : Nat} (high : Nat) (hlow : low < 2 ^ k) :
    packFields k low high % 2 ^ k = low := by
  rw [packFields_eq high hlow, Nat.add_mul_mod_self_left, Nat.mod_eq_of_lt hlow]

theorem packFields_div {k low : Nat} (high : Nat) (hlow : low < 2 ^ k) :
    packFields k low high / 2 ^ k = high := by
  rw [packFields_eq high hlow, Nat.add_mul_div_left _ _ (Nat.two_pow_pos k),
    Nat.div_eq_of_lt hlow, Nat.zero_add]

/-! ## Decimal numerals -/

/-- An unsigned number as `%lu` prints it. -/
def unsignedDecimal (n : Nat) : List UInt8 :=
  (Nat.toDigits 10 n).map fun c => UInt8.ofNat c.toNat

/-- A signed number as `%ld` prints it. -/
def signedDecimal (i : Int) : List UInt8 :=
  if i < 0 then 0x2D :: unsignedDecimal i.natAbs else unsignedDecimal i.natAbs

theorem length_unsignedDecimal_le {n k : Nat} (hk : 0 < k) (hlt : n < 10 ^ k) :
    (unsignedDecimal n).length ≤ k := by
  rw [unsignedDecimal, List.length_map]
  exact (Nat.length_toDigits_le_iff (by decide) hk).mpr hlt

theorem minus_notMem_unsignedDecimal (n : Nat) : 0x2D ∉ unsignedDecimal n := by
  intro hmem
  obtain ⟨c, hc, heq⟩ := List.mem_map.mp hmem
  have hdigit := Nat.isDigit_of_mem_toDigits (by decide) (by decide) hc
  rw [Char.isDigit_iff_toNat] at hdigit
  have hlow : 48 ≤ c.toNat := hdigit.1
  have hhigh : c.toNat ≤ 57 := hdigit.2
  have hnat := congrArg UInt8.toNat heq
  rw [UInt8.toNat_ofNat', Nat.mod_eq_of_lt (by omega)] at hnat
  change c.toNat = 45 at hnat
  omega

theorem length_signedDecimal_le {i : Int} {k : Nat} (hk : 0 < k) (hlt : i.natAbs < 10 ^ k) :
    (signedDecimal i).length ≤ k + 1 := by
  have hdigits := length_unsignedDecimal_le hk hlt
  unfold signedDecimal
  split
  · simp only [List.length_cons]
    omega
  · omega

/-- Printing a number without regard to a sign agrees with printing it signed
only where there is no sign. -/
theorem unsignedDecimal_eq_signedDecimal_iff {n : Nat} {i : Int} (hn : 0 ≤ i → n = i.natAbs) :
    unsignedDecimal n = signedDecimal i ↔ 0 ≤ i := by
  constructor
  · intro heq
    by_contra hneg
    rw [signedDecimal, if_pos (by omega)] at heq
    exact minus_notMem_unsignedDecimal n (heq ▸ List.mem_cons_self)
  · intro hnonneg
    rw [signedDecimal, if_neg (by omega), hn hnonneg]

/-! ## Zero-terminated strings -/

/-- What `%s` prints of a string: the bytes before the first zero. -/
def untilNul (s : List UInt8) : List UInt8 := s.takeWhile (· ≠ 0)

/-- `snprintf` of a text into a buffer of `size` bytes: the length of the whole
text is returned, and as much of it as leaves room for the terminator is
written. -/
def snprintf (size : Nat) (text : List UInt8) : Nat × List UInt8 :=
  (text.length, if size = 0 then [] else text.take (size - 1) ++ [0])

theorem length_snprintf_le {size : Nat} (hpos : 0 < size) (text : List UInt8) :
    (snprintf size text).2.length ≤ size := by
  simp only [snprintf, if_neg (Nat.ne_of_gt hpos), List.length_append, List.length_take,
    List.length_cons, List.length_nil]
  omega

theorem length_untilNul_le (s : List UInt8) : (untilNul s).length ≤ s.length :=
  (List.takeWhile_prefix _).length_le

theorem untilNul_of_notMem {s : List UInt8} (hnul : 0 ∉ s) : untilNul s = s := by
  refine List.takeWhile_eq_self_iff.mpr fun b hb => ?_
  simp only [ne_eq, decide_not, Bool.not_eq_true', decide_eq_false_iff_not]
  exact fun hzero => hnul (hzero ▸ hb)

theorem length_untilNul_eq_iff (s : List UInt8) : (untilNul s).length = s.length ↔ 0 ∉ s := by
  constructor
  · intro hlen hnul
    have heq : untilNul s = s := (List.takeWhile_prefix _).eq_of_length hlen
    have hall := List.takeWhile_eq_self_iff.mp heq 0 hnul
    simp at hall
  · exact fun hnul => by rw [untilNul_of_notMem hnul]

/-- A text that fits a buffer without its terminator reads back, over its own
length, only if there was room for the terminator. -/
theorem snprintf_take_eq_iff {size : Nat} {text : List UInt8} (hpos : 0 < size)
    (hfits : text.length ≤ size) (hnul : 0 ∉ text) :
    (snprintf size text).2.take text.length = text ↔ text.length < size := by
  simp only [snprintf, if_neg (Nat.ne_of_gt hpos)]
  constructor
  · intro heq
    by_contra hge
    have hlen : (text.take (size - 1) ++ [0]).length ≤ text.length := by
      simp only [List.length_append, List.length_take, List.length_cons, List.length_nil]
      omega
    rw [List.take_of_length_le hlen] at heq
    exact hnul (heq ▸ by simp)
  · intro hlt
    rw [List.take_of_length_le (by omega : text.length ≤ size - 1), List.take_left]

/-- Two strings printed one after the other into a buffer that would just hold
both: what is read back over the returned length is their concatenation exactly
when neither holds a zero and there is room for the terminator. -/
theorem snprintf_append_iff {size : Nat} (a b : List UInt8) (hpos : 0 < size)
    (hfits : a.length + b.length ≤ size) :
    (snprintf size (untilNul a ++ untilNul b)).2.take
        (snprintf size (untilNul a ++ untilNul b)).1 = a ++ b ↔
      0 ∉ a ∧ 0 ∉ b ∧ a.length + b.length < size := by
  have ha := length_untilNul_le a
  have hb := length_untilNul_le b
  constructor
  · intro heq
    -- the length read back leaves no room for either string to have stopped early
    have hlen := congrArg List.length heq
    simp only [List.length_take, List.length_append, snprintf] at hlen
    have hanul : 0 ∉ a := (length_untilNul_eq_iff a).mp (by omega)
    have hbnul : 0 ∉ b := (length_untilNul_eq_iff b).mp (by omega)
    refine ⟨hanul, hbnul, ?_⟩
    rw [untilNul_of_notMem hanul, untilNul_of_notMem hbnul] at heq
    have hlt := (snprintf_take_eq_iff hpos (by simpa using hfits)
      (by simp [hanul, hbnul])).mp heq
    simpa using hlt
  · rintro ⟨hanul, hbnul, hlt⟩
    rw [untilNul_of_notMem hanul, untilNul_of_notMem hbnul]
    exact (snprintf_take_eq_iff hpos (by simpa using hfits) (by simp [hanul, hbnul])).mpr
      (by simpa using hlt)

end McoWeb.Foundation
