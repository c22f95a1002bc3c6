import McoWeb.Storage.FindRun

/-! # Accounting of lookups

Whichever exit a completed lookup takes, it counts itself once: as a hit if it
returns 1 and as a miss if it returns 0. Nothing else of the globals moves, so
the counters of a table balance with the answers of any run.
-/

namespace McoWeb.Storage

open Foundation

/-- The size, the mask, the fill and the two counters that belong to stores. -/
structure SameGlobals (s s' : YacStorage) : Prop where
  slotsNum : s'.slotsNum = s.slotsNum
  slotsSize : s'.slotsSize = s.slotsSize
  slotsMask : s'.slotsMask = s.slotsMask
  fails : s'.fails = s.fails
  kicks : s'.kicks = s.kicks

namespace SameGlobals

theorem refl (s : YacStorage) : SameGlobals s s := ⟨rfl, rfl, rfl, rfl, rfl⟩

theorem trans {s s' s'' : YacStorage} (hfirst : SameGlobals s s') (hsecond : SameGlobals s' s'') :
    SameGlobals s s'' where
  slotsNum := hsecond.slotsNum.trans hfirst.slotsNum
  slotsSize := hsecond.slotsSize.trans hfirst.slotsSize
  slotsMask := hsecond.slotsMask.trans hfirst.slotsMask
  fails := hsecond.fails.trans hfirst.fails
  kicks := hsecond.kicks.trans hfirst.kicks

end SameGlobals

/-- What one completed lookup counts. -/
structure Counted (s : YacStorage) (answer : FindAnswer) (s' : YacStorage) : Prop where
  ret : answer.ret = 1 ∨ answer.ret = 0
  hits : s'.hits = if answer.ret = 1 then s.hits + 1 else s.hits
  miss : s'.miss = if answer.ret = 0 then s.miss + 1 else s.miss
  globals : SameGlobals s s'

theorem ReadOnly.counted {s s' : YacStorage} {call : FindCall} {answer : FindAnswer}
    (hread : ReadOnly s call answer s') : Counted s answer s' := by
  obtain ⟨hmask, hnum, hsize, hfails, hkicks⟩ := hread.globals
  rcases hread.counters with ⟨hret, hhits, hmiss⟩ | ⟨hret, hhits, hmiss⟩
  · exact ⟨.inl hret, by simp [hret, hhits], by simp [hret, hmiss],
      ⟨hnum, hsize, hmask, hfails, hkicks⟩⟩
  · exact ⟨.inr hret, by simp [hret, hhits], by simp [hret, hmiss],
      ⟨hnum, hsize, hmask, hfails, hkicks⟩⟩

theorem yacStorageFind_counted {env : StorageEnv} {s s' : YacStorage} {call : FindCall}
    {answer : FindAnswer} (hfind : yacStorageFind env s call = .ok (answer, s')) :
    Counted s answer s' := by
  rcases yacStorageFind_completed hfind with
    ⟨_, heq⟩ | ⟨a, hverifies, houtcome⟩ | ⟨_, _, heq⟩
  · obtain ⟨rfl, rfl⟩ := Prod.mk.inj heq
    exact (countMiss_readOnly s call .absent).counted
  · exact (houtcome.readOnly hverifies.val_eq).counted
  · -- the copies of the probe loop touch slots only
    obtain ⟨rfl, rfl⟩ := Prod.mk.inj heq
    exact ⟨.inr rfl, rfl, rfl, ⟨rfl, rfl, rfl, rfl, rfl⟩⟩

/-- The number of lookups of a run that returned `ret`. -/
def answered (ret : Nat) (events : List (Event YacStorage FindCall FindAnswer)) : Nat :=
  events.countP fun e => e.output.ret = ret

/-- Counting `n` times adds `n`, in any wrapping arithmetic. -/
theorem iterate_add_one {α : Type} [Add α] [One α] (ofNat : Nat → α)
    (hzero : ∀ x, x + ofNat 0 = x) (hsucc : ∀ x n, x + 1 + ofNat n = x + ofNat (n + 1))
    (n : Nat) (x : α) : (· + 1)^[n] x = x + ofNat n := by
  induction n generalizing x with
  | zero => exact (hzero x).symm
  | succ n ih => rw [Function.iterate_succ_apply, ih, hsucc]

theorem iterate_countHit (n : Nat) (hits : UInt64) :
    (· + 1)^[n] hits = hits + UInt64.ofNat n := by
  refine iterate_add_one UInt64.ofNat (by simp) (fun x n => ?_) n hits
  rw [UInt64.ofNat_add, UInt64.add_assoc, UInt64.add_comm 1]
  rfl

theorem iterate_countMiss (n : Nat) (miss : UInt32) :
    (· + 1)^[n] miss = miss + UInt32.ofNat n := by
  refine iterate_add_one UInt32.ofNat (by simp) (fun x n => ?_) n miss
  rw [UInt32.ofNat_add, UInt32.add_assoc, UInt32.add_comm 1]
  rfl

section

variable {env : StorageEnv} {s last : YacStorage} {calls : List FindCall}
  {events : List (Event YacStorage FindCall FindAnswer)}
  (hrun : findRun env s calls = .ok (events, last))

include hrun

theorem findRun_globals : (∀ e ∈ events, SameGlobals s e.before) ∧ SameGlobals s last := by
  refine (findRun_completes hrun).invariant (SameGlobals s) ?_ (.refl s)
  intro t call answer next hsame hstep
  exact hsame.trans (yacStorageFind_counted hstep).globals

theorem findRun_answered : answered 1 events + answered 0 events = calls.length := by
  have hret : ∀ e ∈ events, e.output.ret = 1 ∨ e.output.ret = 0 := by
    intro e he
    obtain ⟨next, hstep⟩ := (findRun_completes hrun).exists_next e he
    exact (yacStorageFind_counted hstep).ret
  have hrest : answered 0 events =
      events.countP fun e => ¬ decide (e.output.ret = 1) = true := by
    apply List.countP_congr
    intro e he
    rcases hret e he with hone | hzero
    · simp [hone]
    · simp [hzero]
  rw [hrest, answered, ← List.length_eq_countP_add_countP, ← (execute_run hrun).2,
    List.length_map]

/-- Over any completed run of lookups the increase of `hits` is the number of
calls that returned 1 and the increase of `miss` the number that returned 0, each
in its word; the two make up the run; and the other globals never change. -/
theorem findRun_accounting :
    last.hits = s.hits + UInt64.ofNat (answered 1 events) ∧
      last.miss = s.miss + UInt32.ofNat (answered 0 events) ∧
      answered 1 events + answered 0 events = calls.length ∧
      (∀ e ∈ events, SameGlobals s e.before) ∧ SameGlobals s last := by
  have hcompletes := findRun_completes hrun
  refine ⟨?_, ?_, findRun_answered hrun, findRun_globals hrun⟩
  · rw [← iterate_countHit]
    exact hcompletes.counted YacStorage.hits (· + 1) (fun answer => answer.ret = 1)
      fun _ _ _ _ hstep => (yacStorageFind_counted hstep).hits
  · rw [← iterate_countMiss]
    exact hcompletes.counted YacStorage.miss (· + 1) (fun answer => answer.ret = 0)
      fun _ _ _ _ hstep => (yacStorageFind_counted hstep).miss

end

/-- The expiring entry at 50, at 100 and at 50 again: one hit and two misses. -/
theorem findRun_accounting_expiring :
    ∃ events last, findRun oddEnv expiringTable
        [⟨keyB, 50, ⟨[], 0, 0⟩⟩, ⟨keyB, 100, ⟨[], 0, 0⟩⟩, ⟨keyB, 50, ⟨[], 0, 0⟩⟩] =
          .ok (events, last) ∧
      answered 1 events = 1 ∧ answered 0 events = 2 ∧
      last.hits = expiringTable.hits + UInt64.ofNat (answered 1 events) ∧
      last.miss = expiringTable.miss + UInt32.ofNat (answered 0 events) := by
  have hcounted := @findRun_accounting oddEnv expiringTable _
    [⟨keyB, 50, ⟨[], 0, 0⟩⟩, ⟨keyB, 100, ⟨[], 0, 0⟩⟩, ⟨keyB, 50, ⟨[], 0, 0⟩⟩] _ rfl
  exact ⟨_, _, rfl, rfl, rfl, hcounted.1, hcounted.2.1⟩

end McoWeb.Storage
