import Mathlib.Data.List.Induction
import McoWeb.Touch.Highlight

/-! # The highlight as a function of the events

What is highlighted after a run depends on the order of its events alone: on the last
touch, the element that this touch names, and the moves behind it. The handlers
with their variables are an implementation of a machine that knows just the
highlighted element and how often it was moved. The timers have a history of their
own: each touch that begins a highlight arms one, which stays until it expires.
-/

namespace McoWeb.Touch

open Foundation

variable {ν : Type}

/-- The first element from `el` upwards that names a class, below the body and the
document and without a node in between that is no element. -/
inductive Nearest (page : Page ν) : ν → ν → Prop
  | here {el : ν} {name : String} (helement : page.isElement el = true)
      (hnamed : page.dataAc el = some name) (hne : name ≠ "") : Nearest page el el
  | above {el parent el' : ν} (helement : page.isElement el = true)
      (hunnamed : ∀ name, page.dataAc el = some name → name = "")
      (hparent : page.parentNode el = some parent) (hbody : parent ≠ page.body)
      (hdocument : parent ≠ page.document) (habove : Nearest page parent el') :
      Nearest page el el'

/-- A touch of the node is a touch of the element: of the nearest from the node itself, or
from its parent where it is a text. -/
def Touches (page : Page ν) (node el : ν) : Prop :=
  ∃ first, page.parentIfText node = some first ∧ Nearest page first el

namespace Page

variable [DecidableEq ν] (page : Page ν)

/-- The element that a touch of the node names. -/
def named (node : ν) : Option ν :=
  match page.parentIfText node with
  | none => none
  | some el =>
      match page.getAttribute el with
      | none => none
      | some klass =>
          match page.walk el klass with
          | .found el' _ => some el'
          | .returned _ | .threw _ => none

/-- The machine of the highlighted element and its moves. -/
def respond : Option (ν × Nat) → TouchEvent ν → Option (ν × Nat)
  | _, .touchstart node => (page.named node).map fun el => (el, 0)
  | some (el, moves), .touchmove =>
      if page.isAndroid ∧ moves = 0 then some (el, moves + 1) else none
  | none, .touchmove | _, .touchend | _, .expiry _ => none

/-- The moves that a highlight outlasts. -/
def outlasts : Nat := if page.isAndroid then 1 else 0

end Page

section

variable {page : Page ν}

theorem Page.getAttribute_element {el : ν} (helement : page.isElement el = true) :
    page.getAttribute el = some ((page.dataAc el).elim .null .string) := by
  rw [Page.getAttribute, if_pos helement]
  cases page.dataAc el <;> rfl

theorem Page.isElement_of_getAttribute {el : ν} {klass : Klass}
    (hget : page.getAttribute el = some klass) : page.isElement el = true := by
  by_contra helement
  rw [Page.getAttribute, if_neg helement] at hget
  cases hget

/-- An element whose attribute does not count as true names no class. -/
theorem Page.unnamed_of_not_truthy {el : ν} {klass : Klass}
    (hget : page.getAttribute el = some klass) (htruthy : ¬ klass.truthy = true) :
    ∀ name, page.dataAc el = some name → name = "" := by
  intro name hname
  rw [Page.getAttribute_element (Page.isElement_of_getAttribute hget), hname] at hget
  obtain rfl := Option.some.inj hget
  simpa [Klass.truthy] using htruthy

variable [DecidableEq ν]

theorem Nearest.of_walk {el el' : ν} {klass klass' : Klass}
    (hget : page.getAttribute el = some klass) (hwalk : page.walk el klass = .found el' klass') :
    Nearest page el el' := by
  fun_induction Page.walk page el klass with
  | case1 el klass htruthy =>
      obtain ⟨rfl, rfl⟩ := WalkEnd.found.inj hwalk
      obtain ⟨name, _, hname, hsingle⟩ := Page.single_of_truthy hget htruthy
      exact .here (Page.isElement_of_getAttribute hget) hname hsingle.1
  | case2 => cases hwalk
  | case3 => cases hwalk
  | case4 => cases hwalk
  | case5 el klass htruthy parent hparent hbelow klass' hparentGet ih =>
      rw [not_or] at hbelow
      exact .above (Page.isElement_of_getAttribute hget) (Page.unnamed_of_not_truthy hget htruthy)
        hparent hbelow.1 hbelow.2 (ih hparentGet hwalk)

theorem Nearest.walk {el el' : ν} (hnearest : Nearest page el el') :
    ∃ klass klass', page.getAttribute el = some klass ∧
      page.walk el klass = .found el' klass' := by
  induction hnearest with
  | @here el name helement hnamed hne =>
      have htruthy : (Klass.string name).truthy = true := by simpa [Klass.truthy] using hne
      refine ⟨.string name, .string name, ?_, ?_⟩
      · rw [Page.getAttribute_element helement, hnamed]
        rfl
      · rw [Page.walk, if_pos htruthy]
  | @above el parent el' helement hunnamed hparent hbody hdocument _ ih =>
      obtain ⟨klass, klass', hget, hwalk⟩ := ih
      refine ⟨_, klass', Page.getAttribute_element helement, ?_⟩
      have htruthy : ¬ ((page.dataAc el).elim Klass.null .string).truthy = true := by
        cases hname : page.dataAc el with
        | none => simp [Klass.truthy]
        | some name => simp [Klass.truthy, hunnamed name hname]
      rw [Page.walk, if_neg htruthy]
      split
      next hnone =>
        rw [hparent] at hnone
        cases hnone
      next above habove =>
        rw [hparent] at habove
        obtain rfl := Option.some.inj habove
        rw [if_neg (not_or.mpr ⟨hbody, hdocument⟩), hget]
        exact hwalk

/-- The handler's walk names the nearest element. -/
theorem named_eq_some_iff {node el : ν} : page.named node = some el ↔ Touches page node el := by
  unfold Page.named Touches
  constructor
  · intro hnamed
    split at hnamed
    next => cases hnamed
    next first hfirst =>
      split at hnamed
      next => cases hnamed
      next klass hget =>
        split at hnamed
        next el' klass' hwalk =>
          obtain rfl := Option.some.inj hnamed
          exact ⟨first, hfirst, .of_walk hget hwalk⟩
        next => cases hnamed
        next => cases hnamed
  · rintro ⟨first, hfirst, hnearest⟩
    obtain ⟨klass, klass', hget, hwalk⟩ := hnearest.walk
    simp only [hfirst, hget, hwalk]

end

/-! ## The handlers and the machine -/

section

variable [DecidableEq ν] {page : Page ν} {s idle : TouchState ν}

/-- Ending a highlight leaves the timers and the count alone. -/
structure Kept (s s' : TouchState ν) : Prop where
  movecount : s'.movecount = s.movecount
  timers : s'.timers = s.timers
  armed : s'.armed = s.armed

theorem disactive_kept (hdisactive : page.disactive s = some idle) : Kept s idle := by
  unfold Page.disactive at hdisactive
  split at hdisactive
  next =>
    obtain rfl := Option.some.inj hdisactive
    exact ⟨rfl, rfl, rfl⟩
  next =>
    split at hdisactive
    next => cases hdisactive
    next =>
      obtain rfl := Option.some.inj hdisactive
      exact ⟨rfl, rfl, rfl⟩

theorem Linked.deactivate_kept (hs : Linked page s) :
    (page.deactivate s).target = none ∧ Kept s (page.deactivate s) := by
  obtain ⟨idle, hdisactive, hidle⟩ := hs.disactive
  rw [Page.deactivate, hdisactive]
  exact ⟨hidle.target, disactive_kept hdisactive⟩

/-- What a touch leaves: the element it names as the target, not moved and with a timer
armed for it, or no target. -/
structure Started (page : Page ν) (node : ν) (s s' : TouchState ν) : Prop where
  target : s'.target = page.named node
  movecount : (page.named node).isSome → s'.movecount = some 0
  timers : s'.timers = if (page.named node).isSome then s.timers ++ [s.armed] else s.timers
  armed : s'.armed = if (page.named node).isSome then s.armed + 1 else s.armed

theorem Started.of_idle {node : ν} {s' : TouchState ν} (hnamed : page.named node = none)
    (htarget : s'.target = none) (hkept : Kept s s') : Started page node s s' := by
  refine ⟨?_, ?_, ?_, ?_⟩
  all_goals rw [hnamed]
  · exact htarget
  · simp
  · exact hkept.timers
  · exact hkept.armed

theorem Linked.started (hs : Linked page s) (node : ν) :
    Started page node s (page.touchstart node s) := by
  obtain ⟨idle, hdisactive, hidle⟩ := hs.disactive
  have hkept := disactive_kept hdisactive
  have hquiet : ∀ klass, page.named node = none →
      Started page node s { idle with klass := klass } :=
    fun klass hnamed => .of_idle hnamed hidle.target ⟨hkept.movecount, hkept.timers, hkept.armed⟩
  unfold Page.touchstart
  rw [hdisactive]
  dsimp only
  -- every way out of the handler but the last names no element
  cases hfirst : page.parentIfText node with
  | none => exact hquiet idle.klass (by simp only [Page.named, hfirst])
  | some first =>
      dsimp only
      cases hget : page.getAttribute first with
      | none => exact hquiet idle.klass (by simp only [Page.named, hfirst, hget])
      | some klass =>
          dsimp only
          cases hwalk : page.walk first klass with
          | returned klass' => exact hquiet klass' (by simp only [Page.named, hfirst, hget, hwalk])
          | threw klass' => exact hquiet klass' (by simp only [Page.named, hfirst, hget, hwalk])
          | found el klass' =>
              have hnamed : page.named node = some el := by
                simp only [Page.named, hfirst, hget, hwalk]
              obtain ⟨hget', htruthy⟩ := Page.walk_found hget hwalk
              obtain ⟨name, rfl, hname, hsingle⟩ := Page.single_of_truthy hget' htruthy
              have hactive := activate_active hsingle hname idle
              refine ⟨?_, ?_, ?_, ?_⟩
              all_goals rw [hnamed]
              · exact hactive.target
              · exact fun _ => hactive.movecount
              · rw [← hkept.timers, ← hkept.armed]
                exact hactive.timers
              · rw [← hkept.armed]
                exact hactive.armed

/-- The machine's state in the handlers' variables. -/
structure Tracks (s : TouchState ν) (light : Option (ν × Nat)) : Prop where
  target : s.target = light.map Prod.fst
  movecount : ∀ el moves, light = some (el, moves) → s.movecount = some moves

omit [DecidableEq ν] in
theorem Tracks.of_none (htarget : s.target = none) : Tracks s none :=
  ⟨htarget, by simp⟩

/-- Every step of the page is the machine's response. -/
theorem Tracks.step {light : Option (ν × Nat)} {event : TouchEvent ν} {output : Unit}
    {next : TouchState ν} (hs : Linked page s) (htracks : Tracks s light)
    (hstep : Step page s event output next) : Tracks next (page.respond light event) := by
  cases hstep with
  | touchstart node =>
      have hstarted := hs.started node
      rw [Page.respond]
      refine ⟨?_, ?_⟩
      · rw [hstarted.target, Option.map_map]
        exact Option.map_id'.symm
      · intro el moves hlight
        obtain ⟨el', hnamed, heq⟩ := Option.map_eq_some_iff.mp hlight
        obtain ⟨_, rfl⟩ := Prod.mk.inj heq
        exact hstarted.movecount (by simp [hnamed])
  | touchend => exact .of_none hs.deactivate_kept.1
  | expiry _ => exact .of_none (hs.expire _).target
  | touchmove =>
      cases light with
      | none =>
          have hmove : page.touchmove s = s := by simp [Page.touchmove, htracks.target]
          rw [hmove]
          exact .of_none htracks.target
      | some lit =>
          obtain ⟨el, moves⟩ := lit
          have htarget : s.target = some el := htracks.target
          have hcount := htracks.movecount el moves rfl
          rw [Page.respond]
          by_cases handroid : page.isAndroid
          · by_cases hmoves : moves = 0
            · -- the first move on Android is only counted
              subst hmoves
              have hmove : page.touchmove s = { s with movecount := some 1 } := by
                simp [Page.touchmove, htarget, handroid, hcount]
              rw [if_pos ⟨handroid, rfl⟩, hmove]
              refine ⟨htarget, ?_⟩
              rintro _ _ ⟨⟩
              rfl
            · have hmove : page.touchmove s =
                  page.deactivate { s with movecount := some (moves + 1) } := by
                simp [Page.touchmove, htarget, handroid, hcount, Nat.pos_of_ne_zero hmoves]
              have hcounted : Linked page { s with movecount := some (moves + 1) } := hs
              rw [if_neg fun hboth => hmoves hboth.2, hmove]
              exact .of_none hcounted.deactivate_kept.1
          · have hmove : page.touchmove s = page.deactivate s := by
              simp [Page.touchmove, htarget, handroid]
            rw [if_neg fun hboth => handroid hboth.1, hmove]
            exact .of_none hs.deactivate_kept.1

/-- Every run of the page is a run of the machine. -/
theorem Tracks.run {light : Option (ν × Nat)} {last : TouchState ν}
    {events : List (Event (TouchState ν) (TouchEvent ν) Unit)}
    (hrun : Run (Step page) s events last) (hs : Linked page s) (htracks : Tracks s light) :
    Tracks last ((events.map Event.input).foldl page.respond light) := by
  induction hrun generalizing light with
  | nil s => exact htracks
  | cons hstep _ ih => exact ih ((hstep.effect hs).linked hs) (htracks.step hs hstep)

end

/-! ## What the machine remembers -/

section

variable [DecidableEq ν] (page : Page ν)

/-- The events are some, a touch that names the element, and so many moves. -/
def EndsWithTouch (inputs : List (TouchEvent ν)) (el : ν) (moves : Nat) : Prop :=
  ∃ pre node, inputs = pre ++ .touchstart node :: List.replicate moves .touchmove ∧
    Touches page node el ∧ moves ≤ page.outlasts

variable {page}

theorem foldl_respond_of_endsWithTouch {inputs : List (TouchEvent ν)} {el : ν} {moves : Nat}
    (hends : EndsWithTouch page inputs el moves) (light : Option (ν × Nat)) :
    inputs.foldl page.respond light = some (el, moves) := by
  obtain ⟨pre, node, rfl, htouches, hmoves⟩ := hends
  have hnamed := named_eq_some_iff.mpr htouches
  have hstart : page.respond (pre.foldl page.respond light) (.touchstart node) = some (el, 0) := by
    rw [Page.respond, hnamed]
    rfl
  rw [List.foldl_append, List.foldl_cons, hstart]
  unfold Page.outlasts at hmoves
  split at hmoves
  next handroid =>
    rcases Nat.le_one_iff_eq_zero_or_eq_one.mp hmoves with rfl | rfl
    · rfl
    · simp [Page.respond, handroid]
  next =>
    obtain rfl := Nat.le_zero.mp hmoves
    rfl

/-- What a highlight remembers: by induction on the events from the last one. -/
theorem endsWithTouch_of_foldl_respond {inputs : List (TouchEvent ν)} {el : ν} {moves : Nat}
    (hfold : inputs.foldl page.respond none = some (el, moves)) :
    EndsWithTouch page inputs el moves := by
  induction inputs using List.reverseRecOn generalizing el moves with
  | nil => cases hfold
  | append_singleton inputs event ih =>
      rw [List.foldl_append, List.foldl_cons, List.foldl_nil] at hfold
      cases event with
      | touchstart node =>
          obtain ⟨el', hnamed, heq⟩ := Option.map_eq_some_iff.mp hfold
          obtain ⟨rfl, rfl⟩ := Prod.mk.inj heq
          exact ⟨inputs, node, rfl, named_eq_some_iff.mp hnamed, Nat.zero_le _⟩
      | touchend => simp [Page.respond] at hfold
      | expiry timer => simp [Page.respond] at hfold
      | touchmove =>
          cases hlight : inputs.foldl page.respond none with
          | none =>
              rw [hlight] at hfold
              cases hfold
          | some lit =>
              obtain ⟨el', moves'⟩ := lit
              rw [hlight, Page.respond] at hfold
              split at hfold
              next hlast =>
                obtain ⟨handroid, rfl⟩ := hlast
                obtain ⟨rfl, rfl⟩ := Prod.mk.inj (Option.some.inj hfold)
                obtain ⟨pre, node, rfl, htouches, _⟩ := ih hlight
                have houtlasts : page.outlasts = 1 := if_pos handroid
                exact ⟨pre, node, by simp, htouches, Nat.le_of_eq houtlasts.symm⟩
              next => cases hfold

end

section

variable [DecidableEq ν]

/-- A touch that begins a highlight. -/
def Page.arms (page : Page ν) : TouchEvent ν → Bool
  | .touchstart node => (page.named node).isSome
  | .touchmove | .touchend | .expiry _ => false

/-- The timers after the given events: one was armed for each touch that began a highlight,
those that have not expired are pending, and none has expired twice. -/
structure TimersOf (page : Page ν) (done : List (TouchEvent ν)) (s : TouchState ν) : Prop where
  armed : s.armed = done.countP page.arms
  pending : s.timers = (List.range s.armed).filter fun timer => .expiry timer ∉ done
  once : ∀ timer, done.count (.expiry timer) ≤ 1
  expired_lt : ∀ timer, .expiry timer ∈ done → timer < s.armed

variable {page : Page ν} {done : List (TouchEvent ν)} {s next : TouchState ν}

section

variable {event : TouchEvent ν} (hexpiry : ∀ timer, event ≠ .expiry timer)

include hexpiry

omit [DecidableEq ν] in
theorem expiry_mem_append (timer : Nat) :
    .expiry timer ∈ done ++ [event] ↔ .expiry timer ∈ done := by
  simp [(hexpiry timer).symm]

theorem expiry_count_append (timer : Nat) :
    (done ++ [event]).count (.expiry timer) = done.count (.expiry timer) := by
  rw [List.count_append, List.count_singleton]
  simp [hexpiry timer]

/-- An event that neither arms a timer nor is an expiry. -/
theorem TimersOf.kept (htimers : TimersOf page done s) (harms : page.arms event = false)
    (hnext : next.timers = s.timers) (harmed : next.armed = s.armed) :
    TimersOf page (done ++ [event]) next := by
  refine ⟨?_, ?_, ?_, ?_⟩
  · simp [harmed, htimers.armed, harms]
  · rw [hnext, harmed, htimers.pending]
    simp only [expiry_mem_append hexpiry]
  · intro timer
    rw [expiry_count_append hexpiry]
    exact htimers.once timer
  · intro timer hdone
    rw [harmed]
    exact htimers.expired_lt timer ((expiry_mem_append hexpiry timer).mp hdone)

/-- A touch that begins a highlight. -/
theorem TimersOf.begun (htimers : TimersOf page done s) (harms : page.arms event = true)
    (hnext : next.timers = s.timers ++ [s.armed]) (harmed : next.armed = s.armed + 1) :
    TimersOf page (done ++ [event]) next := by
  -- the number of the new timer is none that has expired
  have hfresh : .expiry s.armed ∉ done :=
    fun hdone => Nat.lt_irrefl _ (htimers.expired_lt s.armed hdone)
  refine ⟨?_, ?_, ?_, ?_⟩
  · simp [harmed, htimers.armed, harms]
  · rw [hnext, harmed, List.range_succ, List.filter_append, htimers.pending]
    simp only [expiry_mem_append hexpiry]
    simp [hfresh]
  · intro timer
    rw [expiry_count_append hexpiry]
    exact htimers.once timer
  · intro timer hdone
    rw [harmed]
    exact Nat.lt_succ_of_lt (htimers.expired_lt timer ((expiry_mem_append hexpiry timer).mp hdone))

end

/-- The expiry of a pending timer. -/
theorem TimersOf.expired (htimers : TimersOf page done s) {timer : Nat}
    (hpending : timer ∈ s.timers) (hnext : next.timers = s.timers.erase timer)
    (harmed : next.armed = s.armed) :
    TimersOf page (done ++ [.expiry timer]) next := by
  have hmem := hpending
  rw [htimers.pending, List.mem_filter, List.mem_range, decide_eq_true_eq] at hmem
  refine ⟨?_, ?_, ?_, ?_⟩
  · simp [harmed, htimers.armed, Page.arms]
  · have hnodup : s.timers.Nodup := by
      rw [htimers.pending]
      exact List.nodup_range.filter _
    rw [hnext, harmed, hnodup.erase_eq_filter, htimers.pending, List.filter_filter]
    congr 1
    funext other
    rw [Bool.eq_iff_iff]
    simp [and_comm]
  · intro other
    rw [List.count_append, List.count_singleton]
    by_cases hother : other = timer
    · subst hother
      rw [List.count_eq_zero_of_not_mem hmem.2]
      simp
    · simpa [hother, Ne.symm hother] using htimers.once other
  · intro other hdone
    rw [harmed]
    rcases List.mem_append.mp hdone with hdone | hdone
    · exact htimers.expired_lt other hdone
    · obtain ⟨rfl⟩ := List.mem_singleton.mp hdone
      exact hmem.1

theorem Linked.touchmove_timers (hs : Linked page s) :
    (page.touchmove s).timers = s.timers ∧ (page.touchmove s).armed = s.armed := by
  unfold Page.touchmove
  split
  next => exact ⟨rfl, rfl⟩
  next =>
    split
    next =>
      split
      next => exact ⟨rfl, rfl⟩
      next count _ =>
        have hcounted : Linked page { s with movecount := some (count + 1) } := hs
        have hkept := hcounted.deactivate_kept.2
        dsimp only
        split
        next => exact ⟨hkept.timers, hkept.armed⟩
        next => exact ⟨rfl, rfl⟩
    next => exact ⟨hs.deactivate_kept.2.timers, hs.deactivate_kept.2.armed⟩

theorem TimersOf.step {event : TouchEvent ν} {output : Unit} (hs : Linked page s)
    (htimers : TimersOf page done s) (hstep : Step page s event output next) :
    TimersOf page (done ++ [event]) next := by
  cases hstep with
  | touchstart node =>
      have hstarted := hs.started node
      have htimers' := hstarted.timers
      have harmed' := hstarted.armed
      cases hnamed : (page.named node).isSome with
      | false =>
          simp only [hnamed, Bool.false_eq_true, if_false] at htimers' harmed'
          exact htimers.kept (by simp) hnamed htimers' harmed'
      | true =>
          simp only [hnamed, if_true] at htimers' harmed'
          exact htimers.begun (by simp) hnamed htimers' harmed'
  | touchmove => exact htimers.kept (by simp) rfl hs.touchmove_timers.1 hs.touchmove_timers.2
  | touchend =>
      have hkept := hs.deactivate_kept.2
      exact htimers.kept (by simp) rfl hkept.timers hkept.armed
  | @expiry timer hpending =>
      have herased : Linked page { s with timers := s.timers.erase timer } := hs
      have hkept := herased.deactivate_kept.2
      exact htimers.expired hpending hkept.timers hkept.armed

theorem TimersOf.run {events : List (Event (TouchState ν) (TouchEvent ν) Unit)}
    {last : TouchState ν} (hrun : Run (Step page) s events last) (hs : Linked page s)
    (htimers : TimersOf page done s) : TimersOf page (done ++ events.map Event.input) last := by
  induction hrun generalizing done with
  | nil s => simpa using htimers
  | cons hstep _ ih =>
      have htail := ih ((hstep.effect hs).linked hs) (htimers.step hs hstep)
      rwa [List.append_assoc] at htail

/-- After any run from the loaded page the timers are as the events say: each touch that
names an element has armed one, no other event arms or disarms any, and each is
pending until it expires, once. -/
theorem run_timersOf (page : Page ν) (initial : ν → List String)
    {events : List (Event (TouchState ν) (TouchEvent ν) Unit)} {last : TouchState ν}
    (hrun : Run (Step page) (.loaded initial) events last) :
    TimersOf page (events.map Event.input) last := by
  have hstart : TimersOf page [] (.loaded initial) := ⟨rfl, rfl, by simp, by simp⟩
  exact hstart.run hrun (.loaded page initial)

end

/-- The timers after a tap on the first box. -/
theorem run_timersOf_tap :
    TimersOf (demoPage true) [.touchstart .first, .touchend] ((demoPage true).touchend
      ((demoPage true).touchstart .first (.loaded DemoNode.classes))) :=
  run_timersOf (demoPage true) DemoNode.classes
    (.cons (.touchstart _ _) (.cons (.touchend _) (.nil _)))

end McoWeb.Touch
