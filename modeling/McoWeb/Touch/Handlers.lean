import McoWeb.Foundation.Run
import McoWeb.Touch.Page

/-! # The touch handlers

A highlight is a class added to the target of a touch. It is taken away by the next
touch event, or by a timer that the touch arms and nothing disarms. A handler that
an exception leaves has done what stands before the exception.
-/

namespace McoWeb.Touch

/-- The variables of the script, the class list of every node, and the timers that have
not expired, numbered in the order they were armed. `movecount` is `none` while it
is no number. -/
structure TouchState (ν : Type) where
  klass : Klass
  movecount : Option Nat
  target : Option ν
  classes : ν → List String
  timers : List Nat
  armed : Nat

/-- The page as it is loaded. -/
def TouchState.loaded {ν : Type} (classes : ν → List String) : TouchState ν where
  klass := .undefined
  movecount := none
  target := none
  classes := classes
  timers := []
  armed := 0

namespace Page

variable {ν : Type} [DecidableEq ν] (page : Page ν)

/-- `target && target.removeClass(klass); target = null`, `none` where the library throws. -/
def disactive (s : TouchState ν) : Option (TouchState ν) :=
  match s.target with
  | none => some { s with target := none }
  | some el =>
      match page.zepto.removeClass (s.classes el) s.klass with
      | none => none
      | some names => some { s with classes := Function.update s.classes el names, target := none }

/-- `target = $(el).addClass(klass); setTimeout(disactive, 500)`. -/
def activate (el : ν) (s : TouchState ν) : TouchState ν :=
  match page.zepto.addClass (s.classes el) s.klass with
  | none => s
  | some names =>
      { s with
        classes := Function.update s.classes el names
        target := some el
        timers := s.timers ++ [s.armed]
        armed := s.armed + 1 }

/-- The `touchstart` handler; `node` is `e.touches[0].target`. -/
def touchstart (node : ν) (s : TouchState ν) : TouchState ν :=
  match page.disactive s with
  | none => s
  | some s =>
      match page.parentIfText node with
      | none => s
      | some el =>
          match page.getAttribute el with
          | none => s
          | some klass =>
              match page.walk el klass with
              | .returned klass | .threw klass => { s with klass := klass }
              | .found el klass => page.activate el { s with klass := klass, movecount := some 0 }

/-- A handler that calls `disactive` and nothing behind it. -/
def deactivate (s : TouchState ν) : TouchState ν := (page.disactive s).getD s

/-- The `touchmove` handler. On Android it is `movecount++ > 0 && disactive()`. -/
def touchmove (s : TouchState ν) : TouchState ν :=
  match s.target with
  | none => s
  | some _ =>
      if page.isAndroid then
        match s.movecount with
        | none => s
        | some count =>
            let s := { s with movecount := some (count + 1) }
            if count > 0 then page.deactivate s else s
      else page.deactivate s

/-- The `touchend` handler. -/
def touchend (s : TouchState ν) : TouchState ν := page.deactivate s

/-- A timer expires and calls `disactive`. -/
def expire (timer : Nat) (s : TouchState ν) : TouchState ν :=
  page.deactivate { s with timers := s.timers.erase timer }

end Page

/-- What can happen on the page. -/
inductive TouchEvent (ν : Type)
  | touchstart (node : ν)
  | touchmove
  | touchend
  | expiry (timer : Nat)
deriving DecidableEq

/-- The page takes one event at a time, and of the timers those that are armed. -/
inductive Step {ν : Type} [DecidableEq ν] (page : Page ν) :
    TouchState ν → TouchEvent ν → Unit → TouchState ν → Prop
  | touchstart (s : TouchState ν) (node : ν) :
      Step page s (.touchstart node) () (page.touchstart node s)
  | touchmove (s : TouchState ν) : Step page s .touchmove () (page.touchmove s)
  | touchend (s : TouchState ν) : Step page s .touchend () (page.touchend s)
  | expiry (s : TouchState ν) {timer : Nat} (hpending : timer ∈ s.timers) :
      Step page s (.expiry timer) () (page.expire timer s)

end McoWeb.Touch
