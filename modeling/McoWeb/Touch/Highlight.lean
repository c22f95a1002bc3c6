import McoWeb.Touch.Effects

/-! # One highlight at most

Between events every element has the classes it was loaded with, and the target
its highlight class besides. The class is kept apart from the target, in a variable
that each touch overwrites, but no touch does so while there is a target.
-/

namespace McoWeb.Touch

open Foundation

variable {ν : Type}

/-- The element carries the class that it names. -/
def Highlighted (page : Page ν) (s : TouchState ν) (el : ν) : Prop :=
  ∃ name, page.dataAc el = some name ∧ name ∈ s.classes el

/-- The element has no highlight, and nothing but the classes it was loaded with. -/
structure Unmarked (page : Page ν) (initial : ν → List String) (s : TouchState ν) (el : ν) :
    Prop where
  dark : ¬ Highlighted page s el
  classes : ∀ c, c ∈ s.classes el ↔ c ∈ initial el

/-- No element is loaded with the class that it names. -/
def Fresh (page : Page ν) (initial : ν → List String) : Prop :=
  ∀ el name, page.dataAc el = some name → name ∉ initial el

/-- There is no target and no highlight, or the target has the one highlight, which is
the class it names. -/
def AtMostOne (page : Page ν) (initial : ν → List String) (s : TouchState ν) : Prop :=
  (s.target = none ∧ ∀ el, Unmarked page initial s el) ∨
    ∃ el name, s.target = some el ∧ page.dataAc el = some name ∧
      (∀ c, c ∈ s.classes el ↔ c ∈ initial el ∨ c = name) ∧
      ∀ other, other ≠ el → Unmarked page initial s other

/-- Every element has the classes it was loaded with, and the target the one it names. -/
structure Consistent (page : Page ν) (initial : ν → List String) (s : TouchState ν) : Prop where
  linked : Linked page s
  classes : ∀ el c, c ∈ s.classes el ↔
    c ∈ initial el ∨ s.target = some el ∧ page.dataAc el = some c

variable {page : Page ν} {initial : ν → List String} {s s' next : TouchState ν}

theorem Consistent.loaded (page : Page ν) (initial : ν → List String) :
    Consistent page initial (.loaded initial) := by
  refine ⟨.loaded page initial, ?_⟩
  intro el c
  simp [TouchState.loaded]

theorem Consistent.idle (hfresh : Fresh page initial) (hs : Consistent page initial s)
    (hidle : Idle page s s') : Consistent page initial s' := by
  refine ⟨.of_idle hidle.target, ?_⟩
  intro el c
  have hloaded := hfresh el c
  rw [hidle.classes, hs.classes, hidle.target]
  grind

theorem Consistent.active {el : ν} {name : String} (hs : Consistent page initial s)
    (htarget : s.target = none) (hactive : Active page el name s s') :
    Consistent page initial s' := by
  refine ⟨hactive.linked, ?_⟩
  intro other c
  have hnamed := hactive.named
  rw [hactive.classes, hs.classes, htarget, hactive.target]
  grind

theorem Consistent.effect (hfresh : Fresh page initial) (hs : Consistent page initial s)
    {event : TouchEvent ν} (heffect : Effect page s event next) :
    Consistent page initial next := by
  cases heffect with
  | kept => exact ⟨hs.linked, hs.classes⟩
  | ended hidle => exact hs.idle hfresh hidle
  | begun hidle hactive => exact (hs.idle hfresh hidle).active hidle.target hactive

/-- A consistent state has one highlight at most. -/
theorem Consistent.atMostOne (hfresh : Fresh page initial) (hs : Consistent page initial s) :
    AtMostOne page initial s := by
  have hunmarked : ∀ el, s.target ≠ some el → Unmarked page initial s el := by
    intro el hel
    have hclasses : ∀ c, c ∈ s.classes el ↔ c ∈ initial el := by
      intro c
      simp [hs.classes, hel]
    refine ⟨?_, hclasses⟩
    rintro ⟨name, hname, hmem⟩
    exact hfresh el name hname ((hclasses name).mp hmem)
  cases htarget : s.target with
  | none =>
      left
      refine ⟨htarget, fun el => hunmarked el ?_⟩
      simp [htarget]
  | some el =>
      right
      obtain ⟨name, _, hname, _⟩ := hs.linked el htarget
      refine ⟨el, name, htarget, hname, ?_, fun other hother => hunmarked other ?_⟩
      · intro c
        simp [hs.classes, htarget, hname, eq_comm]
      · rw [htarget]
        exact fun heq => hother (Option.some.inj heq).symm

/-- In every state between events there is no target and no highlight, or one target
with the highlight it names and no other highlight. -/
theorem run_atMostOne [DecidableEq ν] (page : Page ν) (initial : ν → List String)
    (hfresh : Fresh page initial) {events : List (Event (TouchState ν) (TouchEvent ν) Unit)}
    {last : TouchState ν} (hrun : Run (Step page) (.loaded initial) events last) :
    (∀ e ∈ events, AtMostOne page initial e.before) ∧ AtMostOne page initial last := by
  obtain ⟨hbefore, hlast⟩ := hrun.invariant (Consistent page initial)
    (fun _ _ _ _ hs hstep => hs.effect hfresh (hstep.effect hs.linked)) (.loaded page initial)
  exact ⟨fun e he => (hbefore e he).atMostOne hfresh, hlast.atMostOne hfresh⟩

theorem demoPage_fresh (isAndroid : Bool) : Fresh (demoPage isAndroid) DemoNode.classes := by
  intro el name hname
  change el.dataAc = some name at hname
  cases el <;> cases hname <;> decide

/-- A touch on a text, a move, and a touch on the other box while the first box is
highlighted. -/
theorem run_atMostOne_demo :
    let page := demoPage true
    let touched := page.touchstart .firstText (.loaded DemoNode.classes)
    let moved := page.touchmove touched
    let events : List (Event (TouchState DemoNode) (TouchEvent DemoNode) Unit) :=
      [⟨.loaded DemoNode.classes, .touchstart .firstText, ()⟩, ⟨touched, .touchmove, ()⟩,
        ⟨moved, .touchstart .second, ()⟩]
    (∀ e ∈ events, AtMostOne page DemoNode.classes e.before) ∧
      AtMostOne page DemoNode.classes (page.touchstart .second moved) := by
  intro page touched moved events
  exact run_atMostOne page DemoNode.classes (demoPage_fresh true)
    (.cons (.touchstart _ _) (.cons (.touchmove _) (.cons (.touchstart _ _) (.nil _))))

end McoWeb.Touch
