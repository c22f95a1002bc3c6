import Mathlib.Logic.Function.Basic
import McoWeb.Foundation.Run

/-! # Maps that lose entries

A cache is a map that may forget. Seen from outside, a step puts a value under a
key, removes a key, answers with a value, or does nothing that can be relied on;
besides, it may lose any entries. What survives agrees with the map that
replays the same events and loses nothing.
-/

namespace McoWeb.Foundation

universe u v w z z'

variable {κ : Type u} {ν : Type v}

/-- Every entry of the first map is an entry of the second. -/
def Within (m m' : κ → Option ν) : Prop := ∀ key value, m key = some value → m' key = some value

namespace Within

variable {m m' m'' : κ → Option ν}

theorem refl (m : κ → Option ν) : Within m m := fun _ _ hentry => hentry

theorem trans (hfirst : Within m m') (hsecond : Within m' m'') : Within m m'' :=
  fun key value hentry => hsecond key value (hfirst key value hentry)

theorem update [DecidableEq κ] (hwithin : Within m m') (key : κ) (entry : Option ν) :
    Within (Function.update m key entry) (Function.update m' key entry) := by
  intro k value hentry
  by_cases hk : k = key
  · subst hk
    rwa [Function.update_self] at hentry ⊢
  · rw [Function.update_of_ne hk] at hentry ⊢
    exact hwithin k value hentry

end Within

/-- What a step does to a map, as far as can be told from outside. -/
inductive MapEvent (κ : Type u) (ν : Type v)
  | put (key : κ) (value : ν)
  | remove (key : κ)
  | answer (key : κ) (value : ν)
  | idle

namespace MapEvent

/-- The event sets or clears the entry of a key. -/
def Writes (key : κ) : MapEvent κ ν → Prop
  | put k _ => k = key
  | remove k => k = key
  | answer _ _ | idle => False

/-- The event on a map that loses nothing. -/
def apply [DecidableEq κ] (m : κ → Option ν) : MapEvent κ ν → κ → Option ν
  | put key value => Function.update m key (some value)
  | remove key => Function.update m key none
  | answer _ _ | idle => m

variable [DecidableEq κ] {m m' : κ → Option ν}

theorem apply_within (hwithin : Within m m') (event : MapEvent κ ν) :
    Within (event.apply m) (event.apply m') := by
  cases event with
  | put key value => exact hwithin.update key (some value)
  | remove key => exact hwithin.update key none
  | answer key value => exact hwithin
  | idle => exact hwithin

theorem apply_of_not_writes {event : MapEvent κ ν} {key : κ} (hkeeps : ¬ event.Writes key) :
    event.apply m key = m key := by
  cases event with
  | put k value => exact Function.update_of_ne (fun heq => hkeeps heq.symm) _ m
  | remove k => exact Function.update_of_ne (fun heq => hkeeps heq.symm) _ m
  | answer k value => rfl
  | idle => rfl

/-- After an event that writes a key, the key holds what the event put there. -/
theorem apply_of_writes {event : MapEvent κ ν} {key : κ} {value : ν}
    (hwrites : event.Writes key) :
    event.apply m key = some value ↔ event = .put key value := by
  cases event with
  | put k put =>
      obtain rfl : k = key := hwrites
      simp [apply]
  | remove k =>
      obtain rfl : k = key := hwrites
      simp [apply]
  | answer k value => exact hwrites.elim
  | idle => exact hwrites.elim

end MapEvent

/-- The events on a map that loses nothing. -/
def replay [DecidableEq κ] (m : κ → Option ν) (events : List (MapEvent κ ν)) : κ → Option ν :=
  events.foldl MapEvent.apply m

/-- No event writes the key. -/
def Untouched (events : List (MapEvent κ ν)) (key : κ) : Prop := ∀ e ∈ events, ¬ e.Writes key

/-- The last event that writes the key puts the value there. -/
def LastPut (events : List (MapEvent κ ν)) (key : κ) (value : ν) : Prop :=
  ∃ before after, events = before ++ .put key value :: after ∧ Untouched after key

theorem untouched_cons {event : MapEvent κ ν} {events : List (MapEvent κ ν)} {key : κ} :
    Untouched (event :: events) key ↔ ¬ event.Writes key ∧ Untouched events key :=
  List.forall_mem_cons

theorem lastPut_cons {event : MapEvent κ ν} {events : List (MapEvent κ ν)} {key : κ} {value : ν} :
    LastPut (event :: events) key value ↔
      LastPut events key value ∨ event = .put key value ∧ Untouched events key := by
  constructor
  · rintro ⟨before, after, heq, hafter⟩
    cases before with
    | nil =>
        obtain ⟨rfl, rfl⟩ := List.cons.inj heq
        exact .inr ⟨rfl, hafter⟩
    | cons first before =>
        obtain ⟨rfl, rfl⟩ := List.cons.inj heq
        exact .inl ⟨before, after, rfl, hafter⟩
  · rintro (⟨before, after, rfl, hafter⟩ | ⟨rfl, hafter⟩)
    · exact ⟨event :: before, after, rfl, hafter⟩
    · exact ⟨[], events, rfl, hafter⟩

variable [DecidableEq κ]

/-- A replayed map holds what was put last, or what it held before where no event
wrote the key. -/
theorem replay_eq_some_iff (events : List (MapEvent κ ν)) (m : κ → Option ν) (key : κ)
    (value : ν) : replay m events key = some value ↔
      LastPut events key value ∨ m key = some value ∧ Untouched events key := by
  induction events generalizing m with
  | nil => simp [replay, LastPut, Untouched]
  | cons event events ih =>
      change replay (event.apply m) events key = some value ↔ _
      rw [ih, lastPut_cons, untouched_cons]
      by_cases hwrites : event.Writes key
      · rw [MapEvent.apply_of_writes hwrites]
        tauto
      · have hput : event ≠ .put key value := by
          rintro rfl
          exact hwrites rfl
        rw [MapEvent.apply_of_not_writes hwrites]
        tauto

theorem replay_of_untouched {events : List (MapEvent κ ν)} {key : κ}
    (huntouched : Untouched events key) (m : κ → Option ν) : replay m events key = m key := by
  induction events generalizing m with
  | nil => rfl
  | cons event events ih =>
      obtain ⟨hkeeps, hrest⟩ := untouched_cons.mp huntouched
      exact (ih hrest _).trans (MapEvent.apply_of_not_writes hkeeps)

theorem replay_within {m m' : κ → Option ν} (hwithin : Within m m')
    (events : List (MapEvent κ ν)) : Within (replay m events) (replay m' events) := by
  induction events generalizing m m' with
  | nil => exact hwithin
  | cons event events ih => exact ih (MapEvent.apply_within hwithin event)

/-- One step of a map that may lose entries: an answer is held, and what is there
afterwards is what the event leaves of the map, or less. -/
structure LossyStep (m : κ → Option ν) (event : MapEvent κ ν) (m' : κ → Option ν) : Prop where
  held : ∀ key value, event = .answer key value → m key = some value
  kept : Within m' (event.apply m)

/-- A step that is none but for losses. -/
theorem LossyStep.of_within {m m' : κ → Option ν} (hwithin : Within m' m) :
    LossyStep m .idle m' where
  held _ _ hanswer := by cases hanswer
  kept := hwithin

theorem LossyStep.put (m : κ → Option ν) (key : κ) (value : ν) :
    LossyStep m (.put key value) (Function.update m key (some value)) where
  held _ _ hanswer := by cases hanswer
  kept := .refl _

theorem LossyStep.remove (m : κ → Option ν) (key : κ) :
    LossyStep m (.remove key) (Function.update m key none) where
  held _ _ hanswer := by cases hanswer
  kept := .refl _

theorem LossyStep.answer {m m' : κ → Option ν} {key : κ} {value : ν}
    (hheld : m key = some value) (hwithin : Within m' m) :
    LossyStep m (.answer key value) m' where
  held _ _ hanswer := by
    cases hanswer
    exact hheld
  kept := hwithin

section

variable {ν' : Type*} (decode : ν → Option ν')

/-- The event seen through a partial reading of the values. Putting a value that
cannot be read is removing one that can. -/
def MapEvent.through : MapEvent κ ν → MapEvent κ ν'
  | .put key value => (decode value).elim (.remove key) (.put key)
  | .remove key => .remove key
  | .answer key value => (decode value).elim .idle (.answer key)
  | .idle => .idle

/-- The map seen through the reading. -/
def readMap (m : κ → Option ν) (key : κ) : Option ν' := (m key).bind decode

omit [DecidableEq κ] in
theorem Within.readMap {m m' : κ → Option ν} (hwithin : Within m m') :
    Within (readMap decode m) (readMap decode m') := by
  intro key value hentry
  obtain ⟨stored, hstored, hdecode⟩ := Option.bind_eq_some_iff.mp hentry
  exact Option.bind_eq_some_iff.mpr ⟨stored, hwithin key stored hstored, hdecode⟩

theorem readMap_update (m : κ → Option ν) (key : κ) (entry : Option ν) :
    readMap decode (Function.update m key entry) =
      Function.update (readMap decode m) key (entry.bind decode) := by
  funext k
  by_cases hk : k = key
  · subst hk
    simp [readMap]
  · simp [readMap, Function.update_of_ne hk]

theorem MapEvent.readMap_apply (event : MapEvent κ ν) (m : κ → Option ν) :
    readMap decode (event.apply m) = (event.through decode).apply (readMap decode m) := by
  cases event with
  | put key value =>
      rw [apply, readMap_update, Option.bind_some, through]
      cases decode value <;> rfl
  | remove key => exact readMap_update decode m key none
  | answer key value =>
      rw [through]
      cases decode value <;> rfl
  | idle => rfl

/-- A lossy map seen through a partial reading of its values is a lossy map. -/
theorem LossyStep.through {m m' : κ → Option ν} {event : MapEvent κ ν}
    (hstep : LossyStep m event m') :
    LossyStep (readMap decode m) (event.through decode) (readMap decode m') := by
  refine ⟨?_, ?_⟩
  · intro key value hanswer
    cases event with
    | answer k stored =>
        have hheld := hstep.held k stored rfl
        cases hdecode : decode stored with
        | none => simp [MapEvent.through, hdecode] at hanswer
        | some read =>
            simp only [MapEvent.through, hdecode, Option.elim_some,
              MapEvent.answer.injEq] at hanswer
            obtain ⟨rfl, rfl⟩ := hanswer
            exact Option.bind_eq_some_iff.mpr ⟨stored, hheld, hdecode⟩
    | put k stored =>
        cases hdecode : decode stored <;> simp [MapEvent.through, hdecode] at hanswer
    | remove k => cases hanswer
    | idle => cases hanswer
  · rw [← MapEvent.readMap_apply]
    exact hstep.kept.readMap decode

end

namespace Run

variable {σ : Type w} {ι : Type z} {ο : Type z'} {step : σ → ι → ο → σ → Prop} {s last : σ}
  {events : List (Event σ ι ο)} {contents : σ → κ → Option ν} {observe : ι → ο → MapEvent κ ν}

/-- The events of a run as events of a map. -/
def mapEvents (observe : ι → ο → MapEvent κ ν) (events : List (Event σ ι ο)) :
    List (MapEvent κ ν) :=
  events.map fun e => observe e.input e.output

omit [DecidableEq κ] in
theorem untouched_filter (relevant : Event σ ι ο → Bool) {key : κ}
    (huntouched : Untouched (mapEvents observe events) key) :
    Untouched (mapEvents observe (events.filter relevant)) key := by
  intro event hevent
  obtain ⟨e, he, rfl⟩ := List.mem_map.mp hevent
  exact huntouched _ (List.mem_map_of_mem (List.mem_filter.mp he).1)

/-- After a run of lossy steps nothing is there that a replay does not hold. -/
theorem within_replay
    (hlossy : ∀ s input output next, step s input output next →
      LossyStep (contents s) (observe input output) (contents next))
    (hrun : Run step s events last) :
    Within (contents last) (replay (contents s) (mapEvents observe events)) := by
  induction hrun with
  | nil s => exact .refl _
  | cons hstep _ ih => exact ih.trans (replay_within (hlossy _ _ _ _ hstep).kept _)

/-- After a run of steps that lose nothing, what a replay holds is there. -/
theorem contents_replay
    (hexact : ∀ s input output next, step s input output next →
      contents next = (observe input output).apply (contents s))
    (hrun : Run step s events last) :
    contents last = replay (contents s) (mapEvents observe events) := by
  induction hrun with
  | nil s => rfl
  | cons hstep _ ih =>
      rw [ih, hexact _ _ _ _ hstep]
      rfl

omit [DecidableEq κ] in
/-- Of what was put last under a key only the events that can write the key matter. -/
theorem lastPut_filter (relevant : Event σ ι ο → Bool) {key : κ} {value : ν}
    (hrelevant : ∀ e ∈ events, (observe e.input e.output).Writes key → relevant e = true)
    (hput : LastPut (mapEvents observe events) key value) :
    LastPut (mapEvents observe (events.filter relevant)) key value := by
  obtain ⟨before, after, heq, hafter⟩ := hput
  obtain ⟨pre, rest, rfl, rfl, hrest⟩ := List.map_eq_append_iff.mp heq
  obtain ⟨e, post, rfl, he, rfl⟩ := List.map_eq_cons_iff.mp hrest
  have hkept : relevant e = true := hrelevant e (by simp) (by rw [he]; exact rfl)
  refine ⟨mapEvents observe (pre.filter relevant), mapEvents observe (post.filter relevant), ?_, ?_⟩
  · rw [List.filter_append, List.filter_cons_of_pos hkept, mapEvents, List.map_append,
      List.map_cons, he]
    rfl
  · exact untouched_filter relevant hafter

/-- In a run of lossy steps every answer is the value that was put last under its key,
or was there at the beginning and the key not written since. -/
theorem answer_lastPut
    (hlossy : ∀ s input output next, step s input output next →
      LossyStep (contents s) (observe input output) (contents next))
    (hrun : Run step s events last) {pre post : List (Event σ ι ο)} {e : Event σ ι ο}
    (hevents : events = pre ++ e :: post) {key : κ} {value : ν}
    (hanswer : observe e.input e.output = .answer key value) :
    LastPut (mapEvents observe pre) key value ∨
      contents s key = some value ∧ Untouched (mapEvents observe pre) key := by
  subst hevents
  obtain ⟨hpre, next, hstep, _⟩ := hrun.split
  have hheld := (hlossy _ _ _ _ hstep).held key value hanswer
  exact (replay_eq_some_iff _ _ _ _).mp (within_replay hlossy hpre key value hheld)

end Run

end McoWeb.Foundation
