import McoWeb.Touch.Handlers

/-! # What an event does

While the value of `klass` is the class that the target names, an event leaves the
highlight alone, ends it, or ends it and begins another; and it keeps the value of
`klass` so. Only a move leaves the highlight alone, and with a target only the first
one on Android.
-/

namespace McoWeb.Touch

section

variable {ν : Type}

/-- `klass` is what the target names. -/
def Linked (page : Page ν) (s : TouchState ν) : Prop :=
  ∀ el, s.target = some el →
    ∃ name, SingleClass name ∧ page.dataAc el = some name ∧ s.klass = .string name

/-- What ending a highlight does to a state. -/
structure Idle (page : Page ν) (s s' : TouchState ν) : Prop where
  target : s'.target = none
  timers : ∀ timer ∈ s'.timers, timer ∈ s.timers
  armed : s'.armed = s.armed
  classes : ∀ el c, c ∈ s'.classes el ↔
    c ∈ s.classes el ∧ ¬ (s.target = some el ∧ page.dataAc el = some c)

/-- What beginning a highlight does to a state without a target. -/
structure Active (page : Page ν) (el : ν) (name : String) (s s' : TouchState ν) : Prop where
  target : s'.target = some el
  klass : s'.klass = .string name
  movecount : s'.movecount = some 0
  timers : s'.timers = s.timers ++ [s.armed]
  armed : s'.armed = s.armed + 1
  single : SingleClass name
  named : page.dataAc el = some name
  classes : ∀ other c, c ∈ s'.classes other ↔ c ∈ s.classes other ∨ other = el ∧ c = name

/-- What an event can do. -/
inductive Effect (page : Page ν) (s : TouchState ν) :
    TouchEvent ν → TouchState ν → Prop
  | kept (movecount : Option Nat) : s.target = none ∨ page.isAndroid = true →
      Effect page s .touchmove { s with movecount := movecount }
  | ended {event : TouchEvent ν} {next : TouchState ν} : Idle page s next →
      Effect page s event next
  | begun {node el : ν} {name : String} {idle next : TouchState ν} : Idle page s idle →
      Active page el name idle next → Effect page s (.touchstart node) next

variable {page : Page ν} {s s' next : TouchState ν}

theorem Linked.loaded (page : Page ν) (classes : ν → List String) :
    Linked page (.loaded classes) := by
  rintro el ⟨⟩

theorem Linked.of_idle (htarget : s.target = none) : Linked page s := by
  intro el hel
  rw [htarget] at hel
  cases hel

theorem Active.linked {el : ν} {name : String} (hactive : Active page el name s s') :
    Linked page s' := by
  intro other hother
  rw [hactive.target] at hother
  obtain rfl := Option.some.inj hother
  exact ⟨name, hactive.single, hactive.named, hactive.klass⟩

theorem Effect.linked {event : TouchEvent ν} (hs : Linked page s)
    (heffect : Effect page s event next) : Linked page next := by
  cases heffect with
  | kept => exact hs
  | ended hidle => exact .of_idle hidle.target
  | begun _ hactive => exact hactive.linked

end

variable {ν : Type} [DecidableEq ν] {page : Page ν} {s next : TouchState ν}

theorem Linked.disactive (hs : Linked page s) :
    ∃ idle, page.disactive s = some idle ∧ Idle page s idle := by
  unfold Page.disactive
  split
  next htarget => exact ⟨_, rfl, rfl, fun _ => id, rfl, by simp [htarget]⟩
  next el htarget =>
    obtain ⟨name, hsingle, hname, hklass⟩ := hs el htarget
    obtain ⟨names, hremove, hnames⟩ := page.zepto.removeClass_single hsingle (s.classes el)
    rw [hklass, hremove]
    refine ⟨_, rfl, rfl, fun _ => id, rfl, ?_⟩
    intro other c
    by_cases hother : other = el
    · subst hother
      simp [htarget, hname, hnames, eq_comm]
    · simp [htarget, Function.update_of_ne hother, Ne.symm hother]

theorem Linked.deactivate (hs : Linked page s) : Idle page s (page.deactivate s) := by
  obtain ⟨idle, hdisactive, hidle⟩ := hs.disactive
  rwa [Page.deactivate, hdisactive, Option.getD_some]

theorem Linked.expire (hs : Linked page s) (timer : Nat) :
    Idle page s (page.expire timer s) := by
  have herased : Linked page { s with timers := s.timers.erase timer } := hs
  have hidle := herased.deactivate
  exact ⟨hidle.target, fun _ hmem => List.mem_of_mem_erase (hidle.timers _ hmem), hidle.armed,
    hidle.classes⟩

theorem activate_active {el : ν} {name : String} (hsingle : SingleClass name)
    (hnamed : page.dataAc el = some name) (s : TouchState ν) :
    Active page el name s
      (page.activate el { s with klass := .string name, movecount := some 0 }) := by
  obtain ⟨names, hadd, hnames⟩ := page.zepto.addClass_single hsingle (s.classes el)
  rw [Page.activate, hadd]
  refine ⟨rfl, rfl, rfl, rfl, rfl, hsingle, hnamed, ?_⟩
  intro other c
  by_cases hother : other = el
  · subst hother
    simp [hnames]
  · simp [hother]

/-- A touch ends the highlight there is, and then begins one or leaves. -/
theorem Linked.touchstart (hs : Linked page s) (node : ν) :
    Effect page s (.touchstart node) (page.touchstart node s) := by
  obtain ⟨idle, hdisactive, hidle⟩ := hs.disactive
  have hquiet : ∀ klass, Effect page s (.touchstart node) { idle with klass := klass } :=
    fun _ => .ended ⟨hidle.target, hidle.timers, hidle.armed, hidle.classes⟩
  unfold Page.touchstart
  rw [hdisactive]
  dsimp only
  split
  next => exact hquiet idle.klass
  next el _ =>
    split
    next => exact hquiet idle.klass
    next klass hget =>
      split
      next klass' _ => exact hquiet klass'
      next klass' _ => exact hquiet klass'
      next el' klass' hwalk =>
        obtain ⟨hget', htruthy⟩ := Page.walk_found hget hwalk
        obtain ⟨name, rfl, hname, hsingle⟩ := Page.single_of_truthy hget' htruthy
        exact .begun hidle (activate_active hsingle hname idle)

/-- A touch on an element that names a class does not walk. -/
theorem touchstart_named {el : ν} {name : String} (helement : page.isElement el = true)
    (hname : page.dataAc el = some name) (hne : name ≠ "") (s : TouchState ν) :
    page.touchstart el s =
      match page.disactive s with
      | none => s
      | some s => page.activate el { s with klass := .string name, movecount := some 0 } := by
  have hparent : page.parentIfText el = some el := by simp [Page.parentIfText, helement]
  have hget : page.getAttribute el = some (.string name) := by
    simp [Page.getAttribute, helement, hname]
  have hwalk : page.walk el (.string name) = .found el (.string name) := by
    rw [Page.walk, if_pos (by simpa [Klass.truthy] using hne)]
  unfold Page.touchstart
  cases page.disactive s with
  | none => rfl
  | some idle => simp only [hparent, hget, hwalk]

theorem Linked.touchmove (hs : Linked page s) :
    Effect page s .touchmove (page.touchmove s) := by
  unfold Page.touchmove
  split
  next htarget => exact .kept s.movecount (.inl htarget)
  next =>
    split
    next handroid =>
      split
      next => exact .kept s.movecount (.inr handroid)
      next count _ =>
        dsimp only
        split
        next =>
          have hcounted : Linked page { s with movecount := some (count + 1) } := hs
          have hidle := hcounted.deactivate
          exact .ended ⟨hidle.target, hidle.timers, hidle.armed, hidle.classes⟩
        next => exact .kept (some (count + 1)) (.inr handroid)
    next => exact .ended hs.deactivate

/-- Every step has one of the effects. -/
theorem Step.effect {event : TouchEvent ν} {output : Unit} (hs : Linked page s)
    (hstep : Step page s event output next) : Effect page s event next := by
  cases hstep with
  | touchstart node => exact hs.touchstart node
  | touchmove => exact hs.touchmove
  | touchend => exact .ended hs.deactivate
  | expiry _ => exact .ended (hs.expire _)

theorem Linked.run {events : List (Foundation.Event (TouchState ν) (TouchEvent ν) Unit)}
    {last : TouchState ν} (hs : Linked page s) (hrun : Foundation.Run (Step page) s events last) :
    (∀ e ∈ events, Linked page e.before) ∧ Linked page last :=
  hrun.invariant (Linked page) (fun _ _ _ _ hs hstep => (hstep.effect hs).linked hs) hs

end McoWeb.Touch
