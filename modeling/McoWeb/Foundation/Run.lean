import Mathlib.Data.List.Basic
import Mathlib.Logic.Function.Iterate

/-! # Finite runs of a partial deterministic step

A step takes a state and an input and either answers and moves to a next state
or fails. A run is a list of completed steps. The relational form `Run` is what
invariants are proved over; `execute` is the program that produces such runs
and stops at the first failure.
-/

namespace McoWeb.Foundation

universe u v w z

variable {σ : Type u} {ι : Type v} {ο : Type w} {ε : Type z}

/-- One completed step: the state it started in, its input and its answer. -/
structure Event (σ : Type u) (ι : Type v) (ο : Type w) where
  before : σ
  input : ι
  output : ο

/-- A finite run of a labelled transition relation, with its completed steps
in order. -/
inductive Run (step : σ → ι → ο → σ → Prop) : σ → List (Event σ ι ο) → σ → Prop
  | nil (s : σ) : Run step s [] s
  | cons {s next last : σ} {input : ι} {output : ο} {events : List (Event σ ι ο)} :
      step s input output next → Run step next events last →
      Run step s (⟨s, input, output⟩ :: events) last

/-- Feed a list of inputs to a partial step, keeping every completed step. -/
def execute (step : σ → ι → Except ε (ο × σ)) :
    σ → List ι → Except ε (List (Event σ ι ο) × σ)
  | s, [] => .ok ([], s)
  | s, input :: rest =>
      match step s input with
      | .error e => .error e
      | .ok (output, next) =>
          match execute step next rest with
          | .error e => .error e
          | .ok (events, last) => .ok (⟨s, input, output⟩ :: events, last)

/-- The transition relation of a partial step function. -/
def Completes (step : σ → ι → Except ε (ο × σ)) (s : σ) (input : ι) (output : ο)
    (next : σ) : Prop :=
  step s input = .ok (output, next)

/-- What `execute` returns is a run over exactly the given inputs. -/
theorem execute_run {step : σ → ι → Except ε (ο × σ)} {s last : σ} {inputs : List ι}
    {events : List (Event σ ι ο)} (hexec : execute step s inputs = .ok (events, last)) :
    Run (Completes step) s events last ∧ events.map Event.input = inputs := by
  induction inputs generalizing s events with
  | nil =>
      simp only [execute, Except.ok.injEq, Prod.mk.injEq] at hexec
      obtain ⟨rfl, rfl⟩ := hexec
      exact ⟨.nil s, rfl⟩
  | cons input rest ih =>
      simp only [execute] at hexec
      split at hexec
      next => simp at hexec
      next output next hstep =>
        split at hexec
        next => simp at hexec
        next tail final htail =>
          simp only [Except.ok.injEq, Prod.mk.injEq] at hexec
          obtain ⟨rfl, rfl⟩ := hexec
          obtain ⟨hrun, hinputs⟩ := ih htail
          exact ⟨.cons hstep hrun, by simp [hinputs]⟩

namespace Run

variable {step : σ → ι → ο → σ → Prop} {s last : σ} {events : List (Event σ ι ο)}

/-- Every step of a run starts in a state that satisfies a preserved predicate,
and so does the last state. -/
theorem invariant (inv : σ → Prop)
    (hpres : ∀ s input output next, inv s → step s input output next → inv next)
    (hrun : Run step s events last) (hstart : inv s) :
    (∀ e ∈ events, inv e.before) ∧ inv last := by
  induction hrun with
  | nil s => exact ⟨by simp, hstart⟩
  | cons hstep _ ih =>
      obtain ⟨htail, hlast⟩ := ih (hpres _ _ _ _ hstart hstep)
      refine ⟨?_, hlast⟩
      intro e he
      rcases List.mem_cons.mp he with rfl | he
      · exact hstart
      · exact htail e he

theorem exists_next (hrun : Run step s events last) :
    ∀ e ∈ events, ∃ next, step e.before e.input e.output next := by
  induction hrun with
  | nil s => simp
  | cons hstep _ ih =>
      intro e he
      rcases List.mem_cons.mp he with rfl | he
      · exact ⟨_, hstep⟩
      · exact ih e he

/-- What holds all through a run holds after each of its steps. -/
theorem exists_next_of (p : σ → Prop) (hrun : Run step s events last)
    (hbefore : ∀ e ∈ events, p e.before) (hlast : p last) :
    ∀ e ∈ events, ∃ next, step e.before e.input e.output next ∧ p next := by
  induction hrun with
  | nil s => simp
  | @cons s next last input output events hstep hrest ih =>
      have hnext : p next := by
        cases hrest with
        | nil => exact hlast
        | cons => exact hbefore _ (List.mem_cons_of_mem _ List.mem_cons_self)
      intro e he
      rcases List.mem_cons.mp he with rfl | he
      · exact ⟨next, hstep, hnext⟩
      · exact ih (fun e he => hbefore e (List.mem_cons_of_mem _ he)) hlast e he

theorem append {middle : σ} {later : List (Event σ ι ο)} (hrun : Run step s events middle)
    (hlater : Run step middle later last) : Run step s (events ++ later) last := by
  induction hrun with
  | nil s => exact hlater
  | cons hstep _ ih => exact .cons hstep (ih hlater)

/-- A run up to one of its events, the step of that event, and the rest. -/
theorem split {pre post : List (Event σ ι ο)} {e : Event σ ι ο}
    (hrun : Run step s (pre ++ e :: post) last) :
    Run step s pre e.before ∧
      ∃ next, step e.before e.input e.output next ∧ Run step next post last := by
  induction pre generalizing s with
  | nil =>
      cases hrun with
      | cons hstep hrest => exact ⟨.nil s, _, hstep, hrest⟩
  | cons first pre ih =>
      cases hrun with
      | cons hstep hrest =>
          obtain ⟨hpre, hpost⟩ := ih hrest
          exact ⟨.cons hstep hpre, hpost⟩

/-- A run whose steps all satisfy a guard is a run of the guarded relation. -/
theorem guarded (guard : σ → ι → Prop) (hrun : Run step s events last)
    (hguard : ∀ e ∈ events, guard e.before e.input) :
    Run (fun s input output next => guard s input ∧ step s input output next)
      s events last := by
  induction hrun with
  | nil s => exact .nil s
  | cons hstep _ ih =>
      refine .cons ⟨hguard _ List.mem_cons_self, hstep⟩ (ih ?_)
      intro e he
      exact hguard e (List.mem_cons_of_mem _ he)

/-- A counter that the counted answers bump, and no other, ends up bumped once for
each of them. -/
theorem counted {α : Type*} (counter : σ → α) (bump : α → α) (counts : ο → Prop)
    [DecidablePred counts]
    (hstep : ∀ s input output next, step s input output next →
      counter next = if counts output then bump (counter s) else counter s)
    (hrun : Run step s events last) :
    counter last = bump^[events.countP fun e => counts e.output] (counter s) := by
  induction hrun with
  | nil s => rfl
  | @cons s next last input output events hfirst _ ih =>
      rw [ih, hstep s input output next hfirst, List.countP_cons]
      by_cases hcounts : counts output
      · rw [if_pos hcounts, if_pos (decide_eq_true hcounts), Function.iterate_succ_apply]
      · rw [if_neg hcounts, if_neg (by simpa using hcounts), Nat.add_zero]

/-- Where a mark establishes a preserved property and the property excludes an
event, no such event follows a mark. -/
theorem pairwise_of_stable {κ : Type*} (stable : κ → σ → Prop)
    (mark avoid : Event σ ι ο → κ → Prop)
    (hstable : ∀ k s input output next, stable k s → step s input output next → stable k next)
    (hmark : ∀ k s input output next, step s input output next →
      mark ⟨s, input, output⟩ k → stable k next)
    (havoid : ∀ k s input output next, stable k s → step s input output next →
      ¬ avoid ⟨s, input, output⟩ k)
    (hrun : Run step s events last) :
    events.Pairwise fun earlier later => ∀ k, mark earlier k → ¬ avoid later k := by
  induction hrun with
  | nil s => exact .nil
  | @cons s next last input output events hstep hrest ih =>
      refine List.pairwise_cons.mpr ⟨?_, ih⟩
      intro later hlater k hk
      have hnext := hmark k s input output next hstep hk
      have hbefore := (hrest.invariant (stable k) (hstable k) hnext).1 later hlater
      obtain ⟨after, hafter⟩ := hrest.exists_next later hlater
      exact havoid k later.before later.input later.output after hbefore hafter

end Run

variable {τ : Type*} {ι' : Type*} {ο' : Type*}

/-- View an event through abstraction functions for states, inputs and answers. -/
def Event.map (state : σ → τ) (input : ι → ι') (output : ο → ο') (e : Event σ ι ο) :
    Event τ ι' ο' :=
  ⟨state e.before, input e.input, output e.output⟩

/-- A step-by-step simulation maps runs to runs. -/
theorem Run.simulate {step : σ → ι → ο → σ → Prop} {step' : τ → ι' → ο' → τ → Prop}
    (state : σ → τ) (input : ι → ι') (output : ο → ο')
    (hsim : ∀ s i o next, step s i o next →
      step' (state s) (input i) (output o) (state next))
    {s last : σ} {events : List (Event σ ι ο)} (hrun : Run step s events last) :
    Run step' (state s) (events.map (Event.map state input output)) (state last) := by
  induction hrun with
  | nil s => exact .nil _
  | cons hstep _ ih => exact .cons (hsim _ _ _ _ hstep) ih

/-- Where every step is a run of smaller steps, a run is one as well, in chunks that
belong to its events. -/
theorem Run.expand {step : σ → ι → ο → σ → Prop} {small : τ → ι' → ο' → τ → Prop}
    (state : σ → τ) (expands : Event σ ι ο → List (Event τ ι' ο') → Prop)
    (hexpand : ∀ s i o next, step s i o next →
      ∃ chunk, Run small (state s) chunk (state next) ∧ expands ⟨s, i, o⟩ chunk)
    {s last : σ} {events : List (Event σ ι ο)} (hrun : Run step s events last) :
    ∃ chunks, Run small (state s) chunks.flatten (state last) ∧
      List.Forall₂ expands events chunks := by
  induction hrun with
  | nil s => exact ⟨[], .nil _, .nil⟩
  | cons hstep _ ih =>
      obtain ⟨chunk, hchunk, hexpands⟩ := hexpand _ _ _ _ hstep
      obtain ⟨chunks, hchunks, hall⟩ := ih
      exact ⟨chunk :: chunks, hchunk.append hchunks, .cons hexpands hall⟩

/-- What holds in every chunk that belongs to an event holds in all of them. -/
theorem forall_mem_flatten {α β : Type*} {expands : α → List β → Prop} {p : β → Prop}
    {events : List α} {chunks : List (List β)} (hall : List.Forall₂ expands events chunks)
    (hchunk : ∀ e ∈ events, ∀ chunk, expands e chunk → ∀ x ∈ chunk, p x) :
    ∀ x ∈ chunks.flatten, p x := by
  induction hall with
  | nil => simp
  | cons hexpands _ ih =>
      obtain ⟨hfirst, hrest⟩ := List.forall_mem_cons.mp hchunk
      intro x hx
      rcases List.mem_append.mp hx with hx | hx
      · exact hfirst _ hexpands x hx
      · exact ih hrest x hx

/-! ## Loops that stop at the first failure -/

/-- Completed steps of a loop that goes through its inputs in order and leaves
after the first answer that fails. -/
structure StopsAtFailure (failed : ο → Prop) (inputs : List ι)
    (events : List (Event σ ι ο)) : Prop where
  in_order : events.map Event.input <+: inputs
  only_last : ∀ e ∈ events.dropLast, ¬ failed e.output
  complete : (∀ e ∈ events, ¬ failed e.output) → events.map Event.input = inputs

namespace StopsAtFailure

variable {failed : ο → Prop}

theorem nil : StopsAtFailure failed [] ([] : List (Event σ ι ο)) :=
  ⟨List.prefix_rfl, by simp, fun _ => rfl⟩

theorem fail (s : σ) (input : ι) {output : ο} (rest : List ι) (hfailed : failed output) :
    StopsAtFailure failed (input :: rest) [⟨s, input, output⟩] := by
  refine ⟨⟨rest, rfl⟩, by simp, ?_⟩
  intro hnone
  exact absurd hfailed (hnone _ List.mem_cons_self)

theorem pass (s : σ) (input : ι) {output : ο} {rest : List ι} {events : List (Event σ ι ο)}
    (hpassed : ¬ failed output) (hrest : StopsAtFailure failed rest events) :
    StopsAtFailure failed (input :: rest) (⟨s, input, output⟩ :: events) := by
  refine ⟨?_, ?_, ?_⟩
  · exact List.cons_prefix_cons.mpr ⟨rfl, hrest.in_order⟩
  · intro e he
    cases events with
    | nil => simp at he
    | cons head tail =>
        rw [List.dropLast_cons_cons] at he
        rcases List.mem_cons.mp he with rfl | he
        · exact hpassed
        · exact hrest.only_last e he
  · intro hnone
    have htail := hrest.complete fun e he => hnone e (List.mem_cons_of_mem _ he)
    rw [List.map_cons, htail]

/-- After the first input there is nothing, or what stops in the same way. -/
theorem of_cons {inputs : List ι} {e : Event σ ι ο} {events : List (Event σ ι ο)}
    (hstops : StopsAtFailure failed inputs (e :: events)) :
    ∃ rest, inputs = e.input :: rest ∧ (failed e.output → events = []) ∧
      (¬ failed e.output → StopsAtFailure failed rest events) := by
  obtain ⟨behind, rfl⟩ := hstops.in_order
  refine ⟨events.map Event.input ++ behind, rfl, ?_, ?_⟩
  · intro hfailed
    cases events with
    | nil => rfl
    | cons head tail => exact absurd hfailed (hstops.only_last e (by simp))
  · intro hpassed
    refine ⟨List.prefix_append _ _, ?_, ?_⟩
    · intro e' he'
      cases events with
      | nil => simp at he'
      | cons head tail => exact hstops.only_last e' (List.mem_cons_of_mem _ he')
    · intro hnone
      exact (List.cons.inj (hstops.complete (List.forall_mem_cons.mpr ⟨hpassed, hnone⟩))).2

theorem map {failed' : ο' → Prop} (state : σ → τ) (input : ι → ι') {output : ο → ο'}
    (hfailed : ∀ o, failed' (output o) ↔ failed o) {inputs : List ι}
    {events : List (Event σ ι ο)} (hstops : StopsAtFailure failed inputs events) :
    StopsAtFailure failed' (inputs.map input) (events.map (Event.map state input output)) := by
  have hinputs : (events.map (Event.map state input output)).map Event.input =
      (events.map Event.input).map input := by
    rw [List.map_map, List.map_map]
    rfl
  refine ⟨?_, ?_, ?_⟩
  · rw [hinputs]
    exact hstops.in_order.map input
  · intro e he
    rw [← List.map_dropLast] at he
    obtain ⟨original, horiginal, rfl⟩ := List.mem_map.mp he
    exact fun hfail => hstops.only_last original horiginal ((hfailed _).mp hfail)
  · intro hnone
    rw [hinputs, hstops.complete]
    intro e he hfail
    exact hnone _ (List.mem_map_of_mem he) ((hfailed _).mpr hfail)

end StopsAtFailure

end McoWeb.Foundation
