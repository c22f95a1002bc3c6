import Mathlib.Data.List.Basic

/-! # The page

The document as the touch handlers of the demo page see it, and the two functions
they call of the library, which the page loads from elsewhere. A walk from a node
towards the body looks for the first element that names a highlight class.
-/

namespace McoWeb.Touch

/-- What the variable `klass` can hold. -/
inductive Klass
  | undefined
  | null
  | string (name : String)
deriving DecidableEq

/-- Whether `klass` counts as true in a condition. -/
def Klass.truthy : Klass → Bool
  | string name => name ≠ ""
  | _ => false

/-- The characters that `\s` matches. -/
def isSpace (c : Char) : Bool :=
  [9, 10, 11, 12, 13, 32, 160, 0x1680, 0x2028, 0x2029, 0x202f, 0x205f, 0x3000, 0xfeff].contains
      c.toNat || 0x2000 ≤ c.toNat && c.toNat ≤ 0x200a

/-- A single class name. -/
def SingleClass (name : String) : Prop := name ≠ "" ∧ name.toList.all fun c => !isSpace c

instance (name : String) : Decidable (SingleClass name) := inferInstanceAs (Decidable (_ ∧ _))

/-- The class functions of the library on the class list of one element, `none` where
they throw. Of a single class name they add and remove just that. -/
structure Zepto where
  addClass : List String → Klass → Option (List String)
  removeClass : List String → Klass → Option (List String)
  addClass_single : ∀ {name : String}, SingleClass name → ∀ names, ∃ names',
    addClass names (.string name) = some names' ∧ ∀ c, c ∈ names' ↔ c ∈ names ∨ c = name
  removeClass_single : ∀ {name : String}, SingleClass name → ∀ names, ∃ names',
    removeClass names (.string name) = some names' ∧ ∀ c, c ∈ names' ↔ c ∈ names ∧ c ≠ name

/-- The document with its constants. Of the nodes only elements have a `tagName` and
a `getAttribute`. -/
structure Page (ν : Type) where
  isAndroid : Bool
  zepto : Zepto
  isElement : ν → Bool
  parentNode : ν → Option ν
  dataAc : ν → Option String
  document : ν
  body : ν
  depth : ν → Nat
  depth_lt : ∀ {node parent : ν}, parentNode node = some parent → depth parent < depth node
  dataAc_single : ∀ {el : ν} {name : String}, dataAc el = some name → name = "" ∨ SingleClass name

/-- How a walk ends, with the last value of `klass`: at an element that names a class, at
the body or the document, or in an exception. -/
inductive WalkEnd (ν : Type)
  | found (el : ν) (klass : Klass)
  | returned (klass : Klass)
  | threw (klass : Klass)

namespace Page

variable {ν : Type} (page : Page ν)

/-- `node.getAttribute('data-ac')`, `none` where there is no such method. -/
def getAttribute (node : ν) : Option Klass :=
  if page.isElement node then
    some (match page.dataAc node with
      | some name => .string name
      | none => .null)
  else none

def parentIfText (node : ν) : Option ν :=
  if page.isElement node then some node else page.parentNode node

/-- `while (el && !klass)`. -/
def walk [DecidableEq ν] (el : ν) (klass : Klass) : WalkEnd ν :=
  if klass.truthy then .found el klass
  else
    match _hparent : page.parentNode el with
    | none => .threw klass
    | some parent =>
        if parent = page.body ∨ parent = page.document then .returned klass
        else
          match page.getAttribute parent with
          | none => .threw klass
          | some klass => walk parent klass
termination_by page.depth el
decreasing_by exact page.depth_lt ‹_›

variable {page}

theorem single_of_truthy {el : ν} {klass : Klass} (hget : page.getAttribute el = some klass)
    (htruthy : klass.truthy = true) :
    ∃ name, klass = .string name ∧ page.dataAc el = some name ∧ SingleClass name := by
  unfold getAttribute at hget
  split at hget
  next =>
    obtain rfl := Option.some.inj hget
    split at htruthy
    next name hname =>
      refine ⟨name, rfl, hname, (page.dataAc_single hname).resolve_left ?_⟩
      simpa [Klass.truthy] using htruthy
    next => cases htruthy
  next => cases hget

/-- A walk that finds a class finds it on the element it stops at. -/
theorem walk_found [DecidableEq ν] {el el' : ν} {klass klass' : Klass}
    (hget : page.getAttribute el = some klass) (hwalk : page.walk el klass = .found el' klass') :
    page.getAttribute el' = some klass' ∧ klass'.truthy = true := by
  fun_induction walk page el klass with
  | case1 el klass htruthy =>
      obtain ⟨rfl, rfl⟩ := WalkEnd.found.inj hwalk
      exact ⟨hget, htruthy⟩
  | case2 => cases hwalk
  | case3 => cases hwalk
  | case4 => cases hwalk
  | case5 el klass _ parent _ _ klass' hparent ih => exact ih hparent hwalk

end Page

/-! ## The page of the demo -/

/-- The two boxes of the demo page, their texts, and what is above them. -/
inductive DemoNode
  | document
  | html
  | body
  | first
  | firstText
  | second
  | secondText
deriving DecidableEq

namespace DemoNode

def parent : DemoNode → Option DemoNode
  | document => none
  | html => some document
  | body => some html
  | first | second => some body
  | firstText => some first
  | secondText => some second

def depth : DemoNode → Nat
  | document => 0
  | html => 1
  | body => 2
  | first | second => 3
  | firstText | secondText => 4

def dataAc : DemoNode → Option String
  | first => some "clickstat"
  | second => some "clickstatbbb"
  | _ => none

/-- The class lists that the boxes are loaded with. -/
def classes : DemoNode → List String
  | first | second => ["aaa"]
  | _ => []

theorem depth_parent {node above : DemoNode} (hparent : node.parent = some above) :
    above.depth < node.depth := by
  cases node <;> cases hparent <;> decide

theorem dataAc_single {el : DemoNode} {name : String} (hname : el.dataAc = some name) :
    name = "" ∨ SingleClass name := by
  right
  cases el <;> cases hname <;> decide

end DemoNode

/-- The class functions on one name, with what the library does where there is none. -/
def demoZepto : Zepto where
  addClass names klass :=
    match klass with
    | .string name => some (if name ∈ names then names else names ++ [name])
    | _ => none
  removeClass names klass :=
    match klass with
    | .undefined => some []
    | .null => none
    | .string name => some (names.filter (· ≠ name))
  addClass_single := by
    intro name _ names
    refine ⟨_, rfl, fun c => ?_⟩
    split
    next hmem => exact ⟨.inl, fun h => h.elim id fun heq => heq ▸ hmem⟩
    next => simp
  removeClass_single := by
    intro name _ names
    refine ⟨_, rfl, fun c => ?_⟩
    simp

def demoPage (isAndroid : Bool) : Page DemoNode where
  isAndroid := isAndroid
  zepto := demoZepto
  isElement
    | .document | .firstText | .secondText => false
    | _ => true
  parentNode := DemoNode.parent
  dataAc := DemoNode.dataAc
  document := .document
  body := .body
  depth := DemoNode.depth
  depth_lt := DemoNode.depth_parent
  dataAc_single := DemoNode.dataAc_single

end McoWeb.Touch
