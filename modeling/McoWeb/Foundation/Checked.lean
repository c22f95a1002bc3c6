import Mathlib.Data.List.Basic

/-! # Checked C programs

A C program over a buffer and `int` variables, run so that a signed result beyond
`int` and an index beyond the buffer are faults. A run that returns has met
neither, and keeps a log of the indices it has read.
-/

namespace McoWeb.Foundation

variable {α β : Type}

/-- What a checked program can fail with. -/
inductive CheckFault
  | overflow (result : Int)
  | outside (index : Int)

/-- Programs that may fail, with the indices read so far, oldest first. -/
abbrev Checked := StateT (List Int) (Except CheckFault)

namespace Checked

/-- The result of a signed `int` expression. -/
def int (result : Int) : Checked Int :=
  if -2147483648 ≤ result ∧ result ≤ 2147483647 then pure result else throw (.overflow result)

/-- `data[index]` in a buffer of `n` elements. -/
def charAt (data : Nat → α) (n : Nat) (index : Int) : Checked α :=
  if 0 ≤ index ∧ index < n then fun log => .ok (data index.toNat, log ++ [index])
  else throw (.outside index)

/-- The program meets no fault, returns this value and reads these indices, whatever
was read before it. -/
def Returns (program : Checked α) (value : α) (indices : List Int) : Prop :=
  ∀ log, program.run log = .ok (value, log ++ indices)

namespace Returns

theorem pure (value : α) : Returns (Pure.pure value) value [] := by
  intro log
  rw [List.append_nil]
  rfl

theorem int {result : Int} (hlow : -2147483648 ≤ result) (hhigh : result ≤ 2147483647) :
    Returns (Checked.int result) result [] := by
  rw [Checked.int, if_pos ⟨hlow, hhigh⟩]
  exact .pure result

theorem intOfNat {k : Nat} (hk : k ≤ 2147483647) : Returns (Checked.int k) (k : Int) [] :=
  .int (by omega) (by omega)

theorem charAt (data : Nat → α) {n i : Nat} (hi : i < n) :
    Returns (Checked.charAt data n i) (data i) [(i : Int)] := by
  have hinside : 0 ≤ (i : Int) ∧ (i : Int) < n := by omega
  intro log
  rw [Checked.charAt, if_pos hinside]
  rfl

theorem bind {program : Checked α} {next : α → Checked β} {value : α} {value' : β}
    {indices indices' : List Int} (hprogram : Returns program value indices)
    (hnext : Returns (next value) value' indices') :
    Returns (program >>= next) value' (indices ++ indices') := by
  intro log
  rw [StateT.run_bind, hprogram log, ← List.append_assoc]
  exact hnext (log ++ indices)

theorem map {program : Checked α} {value : α} {indices : List Int} (f : α → β)
    (hprogram : Returns program value indices) :
    Returns (program >>= fun a => Pure.pure (f a)) (f value) indices := by
  have hboth : Returns (program >>= fun a => Pure.pure (f a)) (f value) (indices ++ []) :=
    hprogram.bind (.pure (f value))
  rwa [List.append_nil] at hboth

end Returns

end Checked

end McoWeb.Foundation
