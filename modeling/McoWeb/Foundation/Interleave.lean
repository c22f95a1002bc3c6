import Mathlib.Logic.Function.Basic
import McoWeb.Foundation.Run

/-! # Programs that share a memory

A program over a shared memory makes one atomic access after the other. Several
programs run in any interleaving, and whatever else writes to the memory may do
so between any two accesses. An invariant that every access and every such
write keeps holds all along, and what each program makes of the memories it may
meet is what it returns.
-/

namespace McoWeb.Foundation

/-- A program: it has returned, or its next access may change the memory and goes on
with what it found there. -/
inductive Prog (σ ρ : Type)
  | ret (result : ρ)
  | access (effect : σ → σ) (next : σ → Prog σ ρ)

namespace Prog

variable {σ α β : Type}

def bind : Prog σ α → (α → Prog σ β) → Prog σ β
  | ret result, f => f result
  | access effect next, f => access effect fun m => (next m).bind f

instance : Monad (Prog σ) where
  pure := ret
  bind := bind

/-- One read. -/
def read (f : σ → α) : Prog σ α := access id fun m => ret (f m)

/-- One write. -/
def write (effect : σ → σ) : Prog σ Unit := access effect fun _ => ret ()

/-- Reads in order. -/
def reads : List (σ → α) → Prog σ (List α)
  | [] => pure []
  | f :: rest => do
      let first ← read f
      let others ← reads rest
      pure (first :: others)

/-- Writes in order. -/
def writes : List (σ → σ) → Prog σ Unit
  | [] => pure ()
  | effect :: rest => do
      write effect
      writes rest

/-- The program alone on a memory. -/
def exec : Prog σ α → σ → α × σ
  | ret result, m => (result, m)
  | access effect next, m => (next m).exec (effect m)

section

variable (m : σ)

@[simp] theorem exec_pure (a : α) : (pure a : Prog σ α).exec m = (a, m) := rfl

@[simp] theorem exec_read (f : σ → α) : (read f).exec m = (f m, m) := rfl

@[simp] theorem exec_write (effect : σ → σ) : (write effect).exec m = ((), effect m) := rfl

@[simp] theorem exec_bind (p : Prog σ α) (f : α → Prog σ β) :
    (p >>= f).exec m = (f (p.exec m).1).exec (p.exec m).2 := by
  change (p.bind f).exec m = _
  induction p generalizing m with
  | ret result => rfl
  | access effect next ih => exact ih m (effect m)

@[simp] theorem exec_reads (fs : List (σ → α)) : (reads fs).exec m = (fs.map fun f => f m, m) := by
  induction fs with
  | nil => rfl
  | cons f rest ih => simp [reads, ih]

@[simp] theorem exec_writes (effects : List (σ → σ)) :
    (writes effects).exec m = ((), effects.foldl (fun m effect => effect m) m) := by
  induction effects generalizing m with
  | nil => rfl
  | cons effect rest ih => simp [writes, ih]

end

/-- Alone on a memory, a program that may fail does what a partial function of the memory
says: with its memory where it succeeds, up to its memory where it fails. -/
def Performs {ε : Type} (p : Prog σ (Except ε α)) (m : σ) (result : Except ε (α × σ)) : Prop :=
  match result with
  | .ok (a, m') => p.exec m = (.ok a, m')
  | .error e => (p.exec m).1 = .error e

theorem Performs.of_exec_eq {ε : Type} {p q : Prog σ (Except ε α)} {m m' : σ}
    {result : Except ε (α × σ)} (heq : p.exec m = q.exec m') (hperforms : q.Performs m' result) :
    p.Performs m result := by
  unfold Performs at hperforms ⊢
  rw [heq]
  exact hperforms

/-- On memories with the invariant, every access keeps it and the result is as
described, whatever the memory becomes in between. -/
def Keeps (inv : σ → Prop) (post : α → Prop) : Prog σ α → Prop
  | ret result => post result
  | access effect next => ∀ m, inv m → inv (effect m) ∧ (next m).Keeps inv post

section

variable {inv : σ → Prop} {post : α → Prop}

theorem Keeps.pure {a : α} (hpost : post a) : (pure a : Prog σ α).Keeps inv post := hpost

theorem Keeps.bind {p : Prog σ α} {f : α → Prog σ β} {post' : β → Prop}
    (hfirst : p.Keeps inv post) (hrest : ∀ a, post a → (f a).Keeps inv post') :
    (p >>= f).Keeps inv post' := by
  change (p.bind f).Keeps inv post'
  induction p with
  | ret result => exact hrest result hfirst
  | access effect next ih =>
      intro m hinv
      obtain ⟨heffect, hnext⟩ := hfirst m hinv
      exact ⟨heffect, ih m hnext⟩

theorem Keeps.mono {p : Prog σ α} {post' : α → Prop} (hkeeps : p.Keeps inv post)
    (himp : ∀ a, post a → post' a) : p.Keeps inv post' := by
  induction p with
  | ret result => exact himp result hkeeps
  | access effect next ih =>
      intro m hinv
      obtain ⟨heffect, hnext⟩ := hkeeps m hinv
      exact ⟨heffect, ih m hnext⟩

theorem Keeps.read {f : σ → α} (hpost : ∀ m, inv m → post (f m)) : (read f).Keeps inv post :=
  fun m hinv => ⟨hinv, hpost m hinv⟩

theorem Keeps.read_any (f : σ → α) : (Prog.read f).Keeps inv fun _ => True :=
  .read fun _ _ => trivial

theorem Keeps.write {effect : σ → σ} (heffect : ∀ m, inv m → inv (effect m)) :
    (write effect).Keeps inv fun _ => True :=
  fun m hinv => ⟨heffect m hinv, trivial⟩

/-- Where the invariant fixes what every read finds, it fixes what the reads return. -/
theorem Keeps.reads {fs : List (σ → α)} {m₀ : σ} (hsame : ∀ f ∈ fs, ∀ m, inv m → f m = f m₀) :
    (reads fs).Keeps inv fun found => found = fs.map fun f => f m₀ := by
  induction fs with
  | nil => exact .pure rfl
  | cons f rest ih =>
      obtain ⟨hfirst, hrest⟩ := List.forall_mem_cons.mp hsame
      have hread : (Prog.read f).Keeps inv fun found => found = f m₀ := .read hfirst
      refine hread.bind ?_
      rintro _ rfl
      refine .bind (ih hrest) ?_
      rintro _ rfl
      exact .pure rfl

theorem Keeps.writes {effects : List (σ → σ)}
    (heffects : ∀ effect ∈ effects, ∀ m, inv m → inv (effect m)) :
    (writes effects).Keeps inv fun _ => True := by
  induction effects with
  | nil => exact .pure trivial
  | cons effect rest ih =>
      obtain ⟨hfirst, hrest⟩ := List.forall_mem_cons.mp heffects
      exact .bind (.write hfirst) fun _ _ => ih hrest

end

/-- The program returns this when its accesses meet these memories, in order. What happens to
the memory in between is not its concern. -/
def Meets : Prog σ α → List σ → α → Prop
  | ret result, met, a => met = [] ∧ result = a
  | access _ next, met, a => ∃ m rest, met = m :: rest ∧ (next m).Meets rest a

section

variable {met : List σ}

theorem meets_pure {a b : α} : (pure a : Prog σ α).Meets met b ↔ met = [] ∧ a = b := Iff.rfl

theorem meets_read {f : σ → α} {a : α} : (read f).Meets met a ↔ ∃ m, met = [m] ∧ f m = a := by
  constructor
  · rintro ⟨m, _, rfl, rfl, hresult⟩
    exact ⟨m, rfl, hresult⟩
  · rintro ⟨m, rfl, hresult⟩
    exact ⟨m, [], rfl, rfl, hresult⟩

/-- A program and what follows it meet the memories of the one and then those of the other. -/
theorem meets_bind {p : Prog σ α} {f : α → Prog σ β} {b : β} :
    (p >>= f).Meets met b ↔
      ∃ first rest a, met = first ++ rest ∧ p.Meets first a ∧ (f a).Meets rest b := by
  change (p.bind f).Meets met b ↔ _
  induction p generalizing met with
  | ret result =>
      constructor
      · exact fun hmeets => ⟨[], met, result, rfl, ⟨rfl, rfl⟩, hmeets⟩
      · rintro ⟨_, rest, _, rfl, ⟨rfl, rfl⟩, hmeets⟩
        exact hmeets
  | access effect next ih =>
      constructor
      · rintro ⟨m, behind, rfl, hmeets⟩
        obtain ⟨first, rest, a, rfl, hfirst, hrest⟩ := (ih m).mp hmeets
        exact ⟨m :: first, rest, a, rfl, ⟨m, first, rfl, hfirst⟩, hrest⟩
      · rintro ⟨_, rest, a, rfl, ⟨m, first, rfl, hfirst⟩, hrest⟩
        exact ⟨m, first ++ rest, rfl, (ih m).mpr ⟨first, rest, a, rfl, hfirst, hrest⟩⟩

/-- Reads in order find what each memory in turn shows. -/
theorem meets_reads {fs : List (σ → α)} {found : List α} : (reads fs).Meets met found ↔
    met.length = fs.length ∧ found = fs.zipWith (fun f m => f m) met := by
  induction fs generalizing met found with
  | nil =>
      rw [reads, meets_pure, List.length_nil, List.length_eq_zero_iff, List.zipWith_nil_left]
      exact and_congr_right fun _ => eq_comm
  | cons f fs ih =>
      simp only [reads, meets_bind, meets_read, meets_pure, ih]
      constructor
      · rintro ⟨_, _, _, rfl, ⟨m, rfl, rfl⟩, _, _, _, rfl, ⟨hlength, rfl⟩, rfl, rfl⟩
        simp [hlength]
      · rintro ⟨hlength, rfl⟩
        obtain ⟨m, rest, rfl⟩ := List.exists_cons_of_length_eq_add_one hlength
        have hrest := Nat.succ.inj hlength
        exact ⟨[m], rest, f m, rfl, ⟨m, rfl, rfl⟩, rest, [], _, by simp, ⟨hrest, rfl⟩, rfl, rfl⟩

end

end Prog

/-- Programs over one memory, each as far as it has come. -/
structure Pool (σ ι ρ : Type) where
  memory : σ
  programs : ι → Prog σ ρ

namespace Pool

variable {σ ι ρ : Type} [DecidableEq ι]

/-- One step of a pool: an access of one of the programs, or a write from outside. -/
inductive Step (outside : σ → σ → Prop) : Pool σ ι ρ → Option ι → Unit → Pool σ ι ρ → Prop
  | access {pool : Pool σ ι ρ} {i : ι} {effect : σ → σ} {next : σ → Prog σ ρ}
      (hprogram : pool.programs i = .access effect next) :
      Step outside pool (some i) ()
        ⟨effect pool.memory, Function.update pool.programs i (next pool.memory)⟩
  | outside {pool : Pool σ ι ρ} {m : σ} (houtside : outside pool.memory m) :
      Step outside pool none () ⟨m, pool.programs⟩

/-- The invariant holds and every program keeps it from where it is. -/
def Sound (inv : σ → Prop) (post : ι → ρ → Prop) (pool : Pool σ ι ρ) : Prop :=
  inv pool.memory ∧ ∀ i, (pool.programs i).Keeps inv (post i)

variable {outside : σ → σ → Prop} {inv : σ → Prop} {post : ι → ρ → Prop}

theorem Sound.step (houtside : ∀ m m', inv m → outside m m' → inv m') {pool next : Pool σ ι ρ}
    {who : Option ι} {answer : Unit} (hsound : pool.Sound inv post)
    (hstep : Step outside pool who answer next) : next.Sound inv post := by
  obtain ⟨hinv, hkeeps⟩ := hsound
  cases hstep with
  | @access i effect rest hprogram =>
      have hprog := hkeeps i
      rw [hprogram] at hprog
      obtain ⟨heffect, hrest⟩ := hprog pool.memory hinv
      -- the program whose access it was goes on, the others stand where they stood
      refine ⟨heffect, fun j => ?_⟩
      by_cases hj : j = i
      · subst hj
        change (Function.update pool.programs j _ j).Keeps inv (post j)
        rwa [Function.update_self]
      · change (Function.update pool.programs i _ j).Keeps inv (post j)
        rw [Function.update_of_ne hj]
        exact hkeeps j
  | outside houtside' => exact ⟨houtside _ _ hinv houtside', hkeeps⟩

/-- All along any interleaving the invariant holds, and whatever a program has returned is
as described. -/
theorem run_returned (houtside : ∀ m m', inv m → outside m m' → inv m')
    {start last : Pool σ ι ρ} {events : List (Event (Pool σ ι ρ) (Option ι) Unit)}
    (hrun : Run (Step outside) start events last) (hstart : start.Sound inv post) :
    inv last.memory ∧ ∀ i result, last.programs i = .ret result → post i result := by
  obtain ⟨hinv, hkeeps⟩ := (hrun.invariant (Sound inv post)
    (fun _ _ _ _ hsound hstep => hsound.step houtside hstep) hstart).2
  refine ⟨hinv, fun i result hreturned => ?_⟩
  have hprog := hkeeps i
  rwa [hreturned] at hprog

/-- The memories that the accesses of one program have met in a run, in order. -/
def met (i : ι) (events : List (Event (Pool σ ι ρ) (Option ι) Unit)) : List σ :=
  events.filterMap fun e => if e.input = some i then some e.before.memory else none

/-- What a program has returned is what it returns when it meets the memories that its accesses
have met. -/
theorem run_meets {start last : Pool σ ι ρ}
    {events : List (Event (Pool σ ι ρ) (Option ι) Unit)}
    (hrun : Run (Step outside) start events last) {i : ι} {result : ρ}
    (hreturned : last.programs i = .ret result) :
    (start.programs i).Meets (met i events) result := by
  induction hrun with
  | nil pool =>
      rw [hreturned]
      exact ⟨rfl, rfl⟩
  | @cons pool next last who answer events hstep _ ih =>
      have hmeets := ih hreturned
      cases hstep with
      | @access j effect rest hprogram =>
          change (Function.update pool.programs j (rest pool.memory) i).Meets _ _ at hmeets
          by_cases hj : j = i
          · subst hj
            rw [Function.update_self] at hmeets
            simp only [hprogram, met, List.filterMap_cons, if_true]
            exact ⟨pool.memory, _, rfl, hmeets⟩
          · rw [Function.update_of_ne fun heq => hj heq.symm] at hmeets
            have hother : ¬ some j = some i := fun heq => hj (Option.some.inj heq)
            simp only [met, List.filterMap_cons, if_neg hother]
            exact hmeets
      | outside houtside => exact hmeets

/-- The next access of a program, if it has not returned. -/
def advance (pool : Pool σ ι ρ) (i : ι) : Pool σ ι ρ :=
  match pool.programs i with
  | .ret _ => pool
  | .access effect next =>
      ⟨effect pool.memory, Function.update pool.programs i (next pool.memory)⟩

/-- Every schedule of accesses is an interleaving. -/
theorem exists_run_schedule (outside : σ → σ → Prop) (schedule : List ι) (pool : Pool σ ι ρ) :
    ∃ events, Run (Step outside) pool events (schedule.foldl advance pool) := by
  induction schedule generalizing pool with
  | nil => exact ⟨[], .nil pool⟩
  | cons i rest ih =>
      obtain ⟨events, hrun⟩ := ih (pool.advance i)
      rw [List.foldl_cons]
      cases hprogram : pool.programs i with
      | ret result =>
          have hsame : pool.advance i = pool := by
            simp only [advance, hprogram]
          rw [hsame] at hrun ⊢
          exact ⟨events, hrun⟩
      | access effect next =>
          have hnext : pool.advance i =
              ⟨effect pool.memory, Function.update pool.programs i (next pool.memory)⟩ := by
            simp only [advance, hprogram]
          rw [hnext] at hrun ⊢
          exact ⟨_, .cons (.access hprogram) hrun⟩

end Pool

end McoWeb.Foundation
