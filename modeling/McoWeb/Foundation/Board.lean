import Mathlib.Logic.Function.Basic
import Mathlib.Order.Lattice
import McoWeb.Foundation.Run

/-! # Lookups on a board of expiring entries

A board gives each position an optional entry, owned by a key, and a deadline.
A lookup may always miss. It may find the entry at a position dead, which buries
the position for good, and it may serve the value of a live entry to the key
that owns it. Nothing else changes a board, and the clock readings of successive
lookups are unrelated.
-/

namespace McoWeb.Foundation

/-- How long an entry lives: for ever, until a time, or no longer. -/
inductive Deadline (τ : Type*)
  | never
  | expires (time : τ)
  | passed

namespace Deadline

variable {τ : Type*} [LinearOrder τ]

/-- An entry is live while the clock has not reached its deadline. -/
def Live (now : τ) : Deadline τ → Prop
  | never => True
  | expires time => now < time
  | passed => False

end Deadline

/-- Entries and deadlines by position. -/
@[ext]
structure Board (π κ ν τ : Type*) where
  entry : π → Option (κ × ν)
  deadline : π → Deadline τ

/-- The outcome of one lookup. -/
inductive Answer (π ν : Type*)
  | miss
  | dead (position : π)
  | served (position : π) (value : ν)

namespace Board

variable {π κ ν τ : Type*} [DecidableEq π]

/-- Mark a position dead for every later clock reading. -/
def bury (board : Board π κ ν τ) (position : π) : Board π κ ν τ :=
  { board with deadline := Function.update board.deadline position .passed }

@[simp] theorem bury_entry (board : Board π κ ν τ) (position : π) :
    (board.bury position).entry = board.entry := rfl

@[simp] theorem bury_deadline_self (board : Board π κ ν τ) (position : π) :
    (board.bury position).deadline position = .passed :=
  Function.update_self _ _ _

variable [LinearOrder τ]

/-- One lookup of a key at a clock reading. -/
inductive LookupStep :
    Board π κ ν τ → κ × τ → Answer π ν → Board π κ ν τ → Prop
  | miss {board : Board π κ ν τ} {key : κ} {now : τ} :
      LookupStep board (key, now) .miss board
  | dead {board : Board π κ ν τ} {key : κ} {now : τ} {position : π} :
      ¬ (board.deadline position).Live now →
      LookupStep board (key, now) (.dead position) (board.bury position)
  | served {board : Board π κ ν τ} {key : κ} {now : τ} {position : π} {value : ν} :
      board.entry position = some (key, value) → (board.deadline position).Live now →
      LookupStep board (key, now) (.served position value) board

theorem LookupStep.entry_eq {board next : Board π κ ν τ} {input : κ × τ} {answer : Answer π ν}
    (hstep : LookupStep board input answer next) : next.entry = board.entry := by
  cases hstep <;> rfl

theorem LookupStep.passed_stable {board next : Board π κ ν τ} {input : κ × τ}
    {answer : Answer π ν} (hstep : LookupStep board input answer next) {position : π}
    (hpassed : board.deadline position = .passed) : next.deadline position = .passed := by
  cases hstep with
  | miss => exact hpassed
  | served => exact hpassed
  | @dead _ _ buried _ =>
      by_cases heq : position = buried
      · subst heq
        exact bury_deadline_self board position
      · simpa [bury, Function.update_of_ne heq] using hpassed

variable {board last : Board π κ ν τ} {events : List (Event (Board π κ ν τ) (κ × τ) (Answer π ν))}

/-- Over any run, a served value is the one the board held for that key from
the beginning. -/
theorem served_from_start (hrun : Run LookupStep board events last) :
    ∀ e ∈ events, ∀ position value, e.output = .served position value →
      board.entry position = some (e.input.1, value) := by
  intro e he position value houtput
  have hentry := (hrun.invariant (fun b => b.entry = board.entry)
    (fun _ _ _ _ hinv hstep => hstep.entry_eq.trans hinv) rfl).1 e he
  obtain ⟨next, hstep⟩ := hrun.exists_next e he
  rw [houtput] at hstep
  rw [← hentry]
  generalize e.input = input at hstep ⊢
  cases hstep with
  | served hserved _ => exact hserved

theorem served_live (hrun : Run LookupStep board events last) :
    ∀ e ∈ events, ∀ position value, e.output = .served position value →
      (e.before.deadline position).Live e.input.2 := by
  intro e he position value houtput
  obtain ⟨next, hstep⟩ := hrun.exists_next e he
  rw [houtput] at hstep
  generalize e.input = input at hstep ⊢
  cases hstep with
  | served _ hlive => exact hlive

/-- Death is final: no lookup after one that found a position dead is served
from it, whatever the later clock readings are. -/
theorem dead_final (hrun : Run LookupStep board events last) :
    events.Pairwise fun earlier later => ∀ position, earlier.output = .dead position →
      ¬ ∃ value, later.output = .served position value := by
  refine hrun.pairwise_of_stable (fun position b => b.deadline position = .passed)
    (fun e position => e.output = .dead position)
    (fun e position => ∃ value, e.output = .served position value) ?_ ?_ ?_
  · intro position b input answer next hpassed hstep
    exact hstep.passed_stable hpassed
  · intro position b input answer next hstep hdead
    dsimp only at hdead
    subst hdead
    cases hstep with
    | dead _ => exact bury_deadline_self b position
  · intro position b input answer next hpassed hstep hserved
    dsimp only at hserved
    obtain ⟨value, rfl⟩ := hserved
    cases hstep with
    | served _ hlive =>
        rw [hpassed] at hlive
        exact hlive

end Board

end McoWeb.Foundation
