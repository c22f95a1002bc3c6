import Mathlib.Logic.Function.Iterate

/-! # Maps of machine words

Hash and checksum steps are made of few operations on words: shifts, exclusive
or, and multiplication by an odd constant. Those that distribute over exclusive
or are injective as soon as only zero is mapped to zero, which for a shift-and-xor
step or a division table is a matter of a few bits.
-/

namespace McoWeb.Foundation

variable {u v w : Nat}

/-! ## Maps that distribute over exclusive or -/

/-- The map is linear over the field with two elements. -/
def XorLinear (f : BitVec w → BitVec v) : Prop := ∀ x y, f (x ^^^ y) = f x ^^^ f y

namespace XorLinear

/-- Only the kernel decides. -/
theorem injective {f : BitVec w → BitVec v} (hf : XorLinear f) (hker : ∀ x, f x = 0#v → x = 0#w) :
    Function.Injective f := by
  intro x y heq
  apply BitVec.xor_eq_zero_iff.mp
  apply hker
  rw [hf, heq, BitVec.xor_self]

theorem id : XorLinear (w := w) fun x => x := fun _ _ => rfl

theorem comp {g : BitVec v → BitVec u} {f : BitVec w → BitVec v} (hg : XorLinear g)
    (hf : XorLinear f) : XorLinear fun x => g (f x) := by
  intro x y
  exact (congrArg g (hf x y)).trans (hg (f x) (f y))

theorem iterate {f : BitVec w → BitVec w} (hf : XorLinear f) (n : Nat) : XorLinear f^[n] := by
  induction n with
  | zero => exact .id
  | succ n ih => exact ih.comp hf

theorem xor {f g : BitVec w → BitVec v} (hf : XorLinear f) (hg : XorLinear g) :
    XorLinear fun x => f x ^^^ g x := by
  intro x y
  simp only [hf x y, hg x y]
  ac_rfl

theorem ushiftRight (n : Nat) : XorLinear (w := w) fun x => x >>> n :=
  fun x y => BitVec.ushiftRight_xor_distrib x y n

theorem sshiftRight (n : Nat) : XorLinear (w := w) fun x => x.sshiftRight n :=
  fun x y => BitVec.sshiftRight_xor_distrib x y n

theorem setWidth : XorLinear (w := w) fun x => x.setWidth v :=
  fun _ _ => BitVec.setWidth_xor

/-- A constant that one bit of the word turns on. -/
theorem bit (i : Nat) (c : BitVec v) :
    XorLinear (w := w) fun x => if x.getLsbD i then c else 0#v := by
  intro x y
  simp only [BitVec.getLsbD_xor]
  cases x.getLsbD i <;> cases y.getLsbD i <;> simp

end XorLinear

/-! ## Injective steps -/

/-- A word xored with a right shift of itself loses nothing. -/
theorem xorShiftRight_injective {n : Nat} (hn : 0 < n) :
    Function.Injective fun x : BitVec w => x ^^^ (x >>> n) := by
  refine (XorLinear.id.xor (.ushiftRight n)).injective fun x hzero => ?_
  -- a word that equals a proper shift of itself is zero
  have hshift : x.toNat = x.toNat / 2 ^ n := by
    rw [← Nat.shiftRight_eq_div_pow, ← BitVec.toNat_ushiftRight, ← BitVec.xor_eq_zero_iff.mp hzero]
  apply BitVec.eq_of_toNat_eq
  by_contra hne
  have hlt := Nat.div_lt_self (Nat.pos_of_ne_zero hne) (Nat.one_lt_two_pow (Nat.ne_of_gt hn))
  omega

/-- Multiplication by a word that has an inverse loses nothing. -/
theorem mul_injective_of_inverse {m m' : BitVec w} (hinv : m * m' = 1#w) :
    Function.Injective fun x : BitVec w => x * m := by
  have hleft : Function.LeftInverse (fun x : BitVec w => x * m') fun x => x * m := by
    intro x
    change x * m * m' = x
    rw [BitVec.mul_assoc, hinv, BitVec.mul_one]
  exact hleft.injective

/-! ## Division registers -/

/-- One shift of a register that divides by a polynomial, least significant bit
first. -/
def reflectedShift (poly r : BitVec w) : BitVec w :=
  (r >>> 1) ^^^ (if r.getLsbD 0 then poly else 0#w)

theorem reflectedShift_linear (poly : BitVec w) : XorLinear (reflectedShift poly) :=
  .xor (.ushiftRight 1) (.bit 0 poly)

/-- The table entry of a byte: what the register becomes in eight shifts. -/
def reflectedTable (poly : BitVec w) (d : BitVec 8) : BitVec w :=
  (reflectedShift poly)^[8] (d.setWidth w)

theorem reflectedTable_linear (poly : BitVec w) : XorLinear (reflectedTable poly) :=
  ((reflectedShift_linear poly).iterate 8).comp .setWidth

end McoWeb.Foundation
