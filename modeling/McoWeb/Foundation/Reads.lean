import Mathlib.Data.List.Basic

/-! # The positions a program reads

A program written over an arbitrary monad with a read operation can be run with
a reader that keeps a log. Where the positions do not depend on the values read,
the log is put together from the logs of the parts.
-/

namespace McoWeb.Foundation

variable {ι α β : Type}

/-- A reader that logs the positions it is asked for, oldest first. -/
def logged (data : ι → α) : ι → StateM (List ι) α := fun i log => (data i, log ++ [i])

/-- The positions a program reads from the start. -/
def positionsRead (program : StateM (List ι) α) : List ι := (program.run []).2

/-- The program reads exactly these positions in this order, whatever was read
before it. -/
def Reads (program : StateM (List ι) α) (positions : List ι) : Prop :=
  ∀ log, (program.run log).2 = log ++ positions

namespace Reads

theorem pure (a : α) : Reads (Pure.pure a : StateM (List ι) α) [] := fun log =>
  (List.append_nil log).symm

theorem read (data : ι → α) (i : ι) : Reads (logged data i) [i] := fun _ => rfl

theorem bind {program : StateM (List ι) α} {next : α → StateM (List ι) β}
    {positions positions' : List ι} (hprogram : Reads program positions)
    (hnext : ∀ a, Reads (next a) positions') :
    Reads (program >>= next) (positions ++ positions') := by
  intro log
  change ((next (program.run log).1).run (program.run log).2).2 = _
  rw [hnext, hprogram, List.append_assoc]

theorem positionsRead_eq {program : StateM (List ι) α} {positions : List ι}
    (hprogram : Reads program positions) : positionsRead program = positions :=
  hprogram []

end Reads

/-! ## Covering a range -/

/-- Every run of `len` consecutive positions below `n` contains one of the given
ones. -/
def Covers (positions : List Nat) (n len : Nat) : Prop :=
  ∀ start, start + len ≤ n → ∃ p ∈ positions, start ≤ p ∧ p < start + len

/-- Positions at equal distances from 0 on cover a range whose end they come close
to, for just as long runs as they leave out at the end. -/
theorem covers_multiples_iff {count step n : Nat} (hstep : 0 < step)
    (hlast : count * step < n) (hgap : step ≤ n - count * step) (len : Nat) :
    Covers ((List.range (count + 1)).map (· * step)) n len ↔ n - count * step ≤ len := by
  constructor
  · intro hcovers
    by_contra hshort
    obtain ⟨p, hp, hstart, _⟩ := hcovers (count * step + 1) (by omega)
    obtain ⟨i, hi, rfl⟩ := List.mem_map.mp hp
    have hle := Nat.mul_le_mul_right step (Nat.le_of_lt_succ (List.mem_range.mp hi))
    omega
  · intro hlen start hfits
    -- the first multiple from `start` on
    have hround := Nat.div_add_mod (start + step - 1) step
    have hrest := Nat.mod_lt (start + step - 1) hstep
    rw [Nat.mul_comm] at hround
    refine ⟨(start + step - 1) / step * step, List.mem_map.mpr ⟨_, ?_, rfl⟩, ?_, ?_⟩
    · apply List.mem_range.mpr
      apply Nat.lt_succ_of_le
      by_contra hbeyond
      have hle := Nat.mul_le_mul_right step (Nat.lt_of_not_le hbeyond)
      rw [Nat.succ_mul] at hle
      omega
    · omega
    · omega

end McoWeb.Foundation
