import Mathlib.Data.List.Basic

/-! # Values and the macros on them

A symbol table is a finite tree of arrays. The macros on a value take a member of their
argument, which is a value, a pointer to one (`_P`) or a pointer to a pointer (`_PP`), and
dereference it so many times and no more. A member of a pointer is a fault.
-/

namespace McoWeb.Taint

/-- A string: its length, which is an `int`, and its buffer with a zero byte behind so many
bytes. -/
@[ext] structure ZString where
  len : Nat
  val : List UInt8
  terminated : val[len]? = some 0
  len_le : len ≤ 2147483647

mutual

/-- A `zval` with a payload that is no matter here unless it is a string or an array. -/
inductive Zval (κ α : Type)
  | other (payload : α)
  | string (str : ZString)
  | array (elements : Elements κ α)

/-- The elements of an array with their keys, in order. -/
inductive Elements (κ α : Type)
  | nil
  | cons (key : κ) (zval : Zval κ α) (rest : Elements κ α)

end

inductive ZType
  | isOther
  | isString
  | isArray
deriving DecidableEq

/-- What a program can do that has no meaning. -/
inductive TaintFault
  | notPointer
  | notStruct
  | notString
  | notArray
  | overflow
  | outside
  | unterminated
deriving DecidableEq

variable {κ α : Type}

def Zval.type : Zval κ α → ZType
  | other _ => .isOther
  | string _ => .isString
  | array _ => .isArray

/-- A C expression that, dereferenced `level` times, is the value. -/
structure Operand (κ α : Type) where
  level : Nat
  zval : Zval κ α

namespace Operand

/-- `*operand`. -/
def deref : Operand κ α → Except TaintFault (Operand κ α)
  | ⟨level + 1, zval⟩ => .ok ⟨level, zval⟩
  | ⟨0, _⟩ => .error .notPointer

/-- The operand of a member access. -/
def struct : Operand κ α → Except TaintFault (Zval κ α)
  | ⟨0, zval⟩ => .ok zval
  | ⟨_ + 1, _⟩ => .error .notStruct

end Operand

/-- `Z_TYPE(zval)`. -/
def zType (zval : Operand κ α) : Except TaintFault ZType := do
  let struct ← zval.struct
  return struct.type

/-- The member `str` of the value, of which a program reads or writes a member. -/
def zStr (zval : Operand κ α) : Except TaintFault ZString := do
  let struct ← zval.struct
  match struct with
  | .string str => return str
  | _ => throw .notString

def zTypeP (operand : Operand κ α) : Except TaintFault ZType := do
  let zval ← operand.deref
  zType zval

def zTypePP (operand : Operand κ α) : Except TaintFault ZType := do
  let zvalP ← operand.deref
  zTypeP zvalP

def zStrP (operand : Operand κ α) : Except TaintFault ZString := do
  let zval ← operand.deref
  zStr zval

def zStrvalP (operand : Operand κ α) : Except TaintFault (List UInt8) := do
  let str ← zStrP operand
  return str.val

def zStrlenP (operand : Operand κ α) : Except TaintFault Nat := do
  let str ← zStrP operand
  return str.len

def zStrlenPP (operand : Operand κ α) : Except TaintFault Nat := do
  let zvalP ← operand.deref
  zStrlenP zvalP

/-- A string with this buffer. -/
def ZString.setVal (str : ZString) (val : List UInt8) : Except TaintFault ZString :=
  if hterminated : val[str.len]? = some 0 then .ok ⟨str.len, val, hterminated, str.len_le⟩
  else .error .unterminated

/-- `Z_STRVAL_P(operand) = val`. -/
def setZStrvalP (operand : Operand κ α) (val : List UInt8) : Except TaintFault (Zval κ α) := do
  let str ← zStrP operand
  let str ← str.setVal val
  return .string str

/-- The sum of two `int` values that are not negative. -/
def addInt (a b : Nat) : Except TaintFault Nat :=
  if a + b ≤ 2147483647 then .ok (a + b) else .error .overflow

/-- The result of an access to a buffer. -/
def inBuffer {β : Type} (result : Option β) : Except TaintFault β :=
  match result with
  | some b => .ok b
  | none => .error .outside

theorem ZString.setVal_ok {str : ZString} {val : List UInt8}
    (hkept : val.take (str.len + 1) = str.val.take (str.len + 1)) :
    ∃ str', str.setVal val = .ok str' ∧ str'.len = str.len ∧ str'.val = val := by
  have hterminated : val[str.len]? = some 0 := by
    calc val[str.len]?
        = (val.take (str.len + 1))[str.len]? :=
          (List.getElem?_take_of_lt (Nat.lt_succ_self _)).symm
      _ = (str.val.take (str.len + 1))[str.len]? := by rw [hkept]
      _ = str.val[str.len]? := List.getElem?_take_of_lt (Nat.lt_succ_self _)
      _ = some 0 := str.terminated
  exact ⟨_, dif_pos hterminated, rfl, rfl⟩

theorem ZString.setVal_self (str : ZString) : str.setVal str.val = .ok str :=
  dif_pos str.terminated

theorem ZString.len_lt (str : ZString) : str.len < str.val.length :=
  (List.getElem?_eq_some_iff.mp str.terminated).choose

theorem setZStrvalP_string (str : ZString) (val : List UInt8) :
    setZStrvalP (⟨1, .string str⟩ : Operand κ α) val =
      (str.setVal val).bind fun str => .ok (.string str) :=
  rfl

end McoWeb.Taint
