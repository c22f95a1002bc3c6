import McoWeb.Touch.Highlight

/-! # Timers and highlights

A touch arms a timer to end its highlight, and no event disarms it. While the highlight
of a later touch is on, the timers of earlier touches can still expire, and each of
them ends the highlight that is on.
-/

namespace McoWeb.Touch

open Foundation

variable {ν : Type}

/-- The element is the target and carries the class that it names. -/
def On (page : Page ν) (s : TouchState ν) (el : ν) : Prop :=
  s.target = some el ∧ Highlighted page s el

/-- Every timer that can expire was armed before the next one. -/
def Bounded (s : TouchState ν) : Prop := ∀ timer ∈ s.timers, timer < s.armed

/-- None of the inputs is to end the highlight of the touch that armed the timer `own`. -/
structure Unended [DecidableEq ν] (isAndroid : Bool) (own : Nat) (inputs : List (TouchEvent ν)) :
    Prop where
  touchstart : ∀ node, .touchstart node ∉ inputs
  touchend : .touchend ∉ inputs
  expiry : .expiry own ∉ inputs
  touchmove : inputs.count .touchmove ≤ if isAndroid then 1 else 0

/-- The highlight of the touch that armed the timer `own` is on, after some moves. -/
structure Lit (page : Page ν) (own : Nat) (el : ν) (moves : Nat) (s : TouchState ν) : Prop where
  on : On page s el
  movecount : s.movecount = some moves
  timers : ∀ timer ∈ s.timers, timer ≤ own

section

variable {page : Page ν} {el : ν} {s s' next : TouchState ν}

theorem Bounded.idle (hs : Bounded s) (hidle : Idle page s s') : Bounded s' := by
  intro timer hmem
  rw [hidle.armed]
  exact hs timer (hidle.timers timer hmem)

theorem Bounded.active {name : String} (hs : Bounded s) (hactive : Active page el name s s') :
    Bounded s' := by
  intro timer hmem
  rw [hactive.timers] at hmem
  rw [hactive.armed]
  rcases List.mem_append.mp hmem with hmem | hmem
  · exact Nat.lt_succ_of_lt (hs timer hmem)
  · rw [List.mem_singleton.mp hmem]
    exact Nat.lt_succ_self _

theorem Bounded.effect (hs : Bounded s) {event : TouchEvent ν}
    (heffect : Effect page s event next) : Bounded next := by
  cases heffect with
  | kept => exact hs
  | ended hidle => exact hs.idle hidle
  | begun hidle hactive => exact (hs.idle hidle).active hactive

theorem Active.lit {name : String} (hs : Bounded s) (hactive : Active page el name s s') :
    Lit page s.armed el 0 s' := by
  refine ⟨⟨hactive.target, name, hactive.named, ?_⟩, hactive.movecount, ?_⟩
  · simp [hactive.classes]
  · have hbounded := hs.active hactive
    intro timer hmem
    have hlt := hbounded timer hmem
    rw [hactive.armed] at hlt
    exact Nat.le_of_lt_succ hlt

/-- A touch that has a target when it is over has begun its highlight. -/
theorem Effect.lit {node : ν} (hs : Bounded s) (heffect : Effect page s (.touchstart node) next)
    (htarget : next.target = some el) : Lit page s.armed el 0 next := by
  cases heffect with
  | ended hidle =>
      rw [hidle.target] at htarget
      cases htarget
  | @begun _ el' name idle _ hidle hactive =>
      rw [hactive.target] at htarget
      obtain rfl := Option.some.inj htarget
      rw [← hidle.armed]
      exact hactive.lit (hs.idle hidle)

end

variable [DecidableEq ν] {page : Page ν} {el : ν} {own moves : Nat} {s last : TouchState ν}

/-- The first move on Android is counted and nothing else. -/
theorem Lit.touchmove (hs : Lit page own el 0 s) (handroid : page.isAndroid = true) :
    Lit page own el 1 (page.touchmove s) := by
  have hmove : page.touchmove s = { s with movecount := some 1 } := by
    simp [Page.touchmove, hs.on.1, handroid, hs.movecount]
  rw [hmove]
  exact ⟨hs.on, rfl, hs.timers⟩

/-- A run that does not end a highlight, and in which no earlier timer expires, leaves
it on. -/
theorem Lit.run {events : List (Event (TouchState ν) (TouchEvent ν) Unit)}
    (hrun : Run (Step page) s events last) (hs : Lit page own el moves s)
    (hstart : ∀ node, .touchstart node ∉ events.map Event.input)
    (hend : .touchend ∉ events.map Event.input)
    (hmoves : (events.map Event.input).count .touchmove + moves ≤ if page.isAndroid then 1 else 0)
    (hexpiry : ∀ timer ≤ own, .expiry timer ∉ events.map Event.input) :
    (∀ e ∈ events, On page e.before el) ∧ On page last el := by
  induction hrun generalizing moves with
  | nil s => exact ⟨by simp, hs.on⟩
  | @cons s next last input output events hstep hrest ih =>
      simp only [List.map_cons, List.mem_cons, not_or] at hstart hend hexpiry
      rw [List.map_cons] at hmoves
      cases hstep with
      | touchstart node => exact absurd rfl (hstart node).1
      | touchend => exact absurd rfl hend.1
      | expiry hpending => exact absurd rfl (hexpiry _ (hs.timers _ hpending)).1
      | touchmove =>
          rw [List.count_cons_self] at hmoves
          split at hmoves
          next handroid =>
            obtain rfl : moves = 0 := by omega
            obtain ⟨htail, hlast⟩ := ih (hs.touchmove handroid) (fun node => (hstart node).2)
              hend.2 (by rw [if_pos handroid]; omega) (fun timer hle => (hexpiry timer hle).2)
            exact ⟨List.forall_mem_cons.mpr ⟨hs.on, htail⟩, hlast⟩
          next => omega

/-- An expiry leaves no highlight on. -/
theorem Step.expiry_not_on {timer : Nat} {output : Unit} {next : TouchState ν}
    (hs : Linked page s) (hstep : Step page s (.expiry timer) output next) :
    ¬ On page next el := by
  cases hstep with
  | expiry =>
      intro hon
      have hnone := (hs.expire timer).target
      rw [hon.1] at hnone
      cases hnone

/-! ## A tap on the demo page -/

/-- The state after a tap on the first box. -/
def demoTapped (isAndroid : Bool) : TouchState DemoNode :=
  (demoPage isAndroid).touchend
    ((demoPage isAndroid).touchstart .first (.loaded DemoNode.classes))

theorem demoTapped_run (isAndroid : Bool) :
    ∃ events, Run (Step (demoPage isAndroid)) (.loaded DemoNode.classes) events
        (demoTapped isAndroid) ∧
      events.map Event.input = [.touchstart .first, .touchend] :=
  ⟨_, .cons (.touchstart _ _) (.cons (.touchend _) (.nil _)), rfl⟩

/-- The timer of the tap outlasts it. -/
theorem demoTapped_pending (isAndroid : Bool) :
    (demoTapped isAndroid).target = none ∧ (demoTapped isAndroid).timers = [0] ∧
      (demoTapped isAndroid).armed = 1 := by
  rw [demoTapped, @touchstart_named _ _ _ _ "clickstat" rfl rfl (by decide)]
  exact ⟨rfl, rfl, rfl⟩

theorem demoPage_second {isAndroid : Bool} {s : TouchState DemoNode} (htarget : s.target = none) :
    ((demoPage isAndroid).touchstart .second s).target = some .second ∧
      ((demoPage isAndroid).touchstart .second s).timers = s.timers ++ [s.armed] := by
  rw [@touchstart_named _ _ _ _ "clickstatbbb" rfl rfl (by decide), Page.disactive, htarget]
  exact ⟨rfl, rfl⟩

/-! ## The highlight of a later touch -/

/-- The highlight that a touch begins is on until an event that is to end it, exactly
where no timer of an earlier touch expires before. -/
theorem highlight_on_iff_no_earlier_expiry (page : Page ν) (initial : ν → List String)
    {earlier : List (Event (TouchState ν) (TouchEvent ν) Unit)}
    (hearlier : Run (Step page) (.loaded initial) earlier s) {node : ν}
    (htouch : (page.touchstart node s).target = some el)
    {events : List (Event (TouchState ν) (TouchEvent ν) Unit)}
    (hrun : Run (Step page) (page.touchstart node s) events last)
    (hunended : Unended page.isAndroid s.armed (events.map Event.input)) :
    (∀ e ∈ events, On page e.before el) ∧ On page last el ↔
      ∀ e ∈ events, ∀ timer < s.armed, e.input ≠ .expiry timer := by
  obtain ⟨_, hlinked, hbounded⟩ := hearlier.invariant (fun s => Linked page s ∧ Bounded s)
    (fun _ _ _ _ hs hstep =>
      have heffect := hstep.effect hs.1
      ⟨heffect.linked hs.1, hs.2.effect heffect⟩)
    ⟨.loaded page initial, by simp [Bounded, TouchState.loaded]⟩
  have heffect := hlinked.touchstart node
  constructor
  · rintro ⟨hbefore, hlast⟩ e he timer _ hinput
    have hstates := (heffect.linked hlinked).run hrun
    obtain ⟨next, hstep, hnext⟩ := hrun.exists_next_of (On page · el) hbefore hlast e he
    rw [hinput] at hstep
    exact hstep.expiry_not_on (hstates.1 e he) hnext
  · intro hexpiry
    have hlit := heffect.lit hbounded htouch
    refine hlit.run hrun hunended.touchstart hunended.touchend hunended.touchmove ?_
    intro timer hle hmem
    rcases Nat.lt_or_eq_of_le hle with hlt | rfl
    · obtain ⟨e, he, hinput⟩ := List.mem_map.mp hmem
      exact hexpiry e he timer hlt hinput
    · exact hunended.expiry hmem

/-- The second box is touched after a tap on the first one, and the timer of the tap ends
its highlight. -/
theorem earlier_expiry_ends_highlight :
    ∃ (earlier events : List (Event (TouchState DemoNode) (TouchEvent DemoNode) Unit))
      (s last : TouchState DemoNode),
      Run (Step (demoPage false)) (.loaded DemoNode.classes) earlier s ∧
        earlier.map Event.input = [.touchstart .first, .touchend] ∧
        ((demoPage false).touchstart .second s).target = some .second ∧
        Run (Step (demoPage false)) ((demoPage false).touchstart .second s) events last ∧
        events.map Event.input = [.expiry 0] ∧
        Unended false s.armed (events.map Event.input) ∧
        ¬ On (demoPage false) last .second := by
  obtain ⟨earlier, hearlier, hinputs⟩ := demoTapped_run false
  obtain ⟨htarget, htimers, harmed⟩ := demoTapped_pending false
  obtain ⟨hsecond, harmedTimers⟩ := @demoPage_second false _ htarget
  have hpending : 0 ∈ ((demoPage false).touchstart .second (demoTapped false)).timers := by
    simp [harmedTimers, htimers]
  refine ⟨earlier, _, _, _, hearlier, hinputs, hsecond, .cons (.expiry _ hpending) (.nil _), rfl,
    ?_, ?_⟩
  · rw [harmed]
    exact ⟨by simp, by simp, by simp, by simp⟩
  · have hlinked := ((Linked.loaded (demoPage false) DemoNode.classes).run hearlier).2
    have htouched := (hlinked.touchstart .second).linked hlinked
    exact Step.expiry_not_on htouched (.expiry _ hpending)

/-- On Android the highlight of the second box outlasts a move while the timer of the tap
is pending. -/
theorem highlight_on_demo :
    On (demoPage true) ((demoPage true).touchmove
      ((demoPage true).touchstart .second (demoTapped true))) .second := by
  obtain ⟨earlier, hearlier, -⟩ := demoTapped_run true
  have hsecond := (@demoPage_second true _ (demoTapped_pending true).1).1
  have hon := highlight_on_iff_no_earlier_expiry (demoPage true) DemoNode.classes hearlier
    hsecond (.cons (.touchmove _) (.nil _))
    ⟨by simp, by simp, by simp, by simp [demoPage]⟩
  exact (hon.mpr (by simp)).2

end McoWeb.Touch
