import McoWeb.Foundation.Buffers
import McoWeb.Foundation.Bytes
import McoWeb.Taint.Values

/-! # Marking the strings of a symbol table

The traversal of a symbol table, which goes into each array and gives each string a larger
buffer with a mark behind the terminator. In the branch for strings the source passes
`ppzval`, a pointer to a pointer, to macros that dereference their argument once.
-/

namespace McoWeb.Taint

open Foundation

variable {κ α : Type}

/-- `PHP_TAINT_MAGIC_LENGTH`, which is `sizeof(unsigned)`. -/
def magicLength : Nat := 4

def magicPossible : Nat := 0x6A8FCE84

def magicUntaint : Nat := 0x2C5E7F2D

/-- `PHP_TAINT_MARK(zv, mark)`. -/
def phpTaintMark (zv : Operand κ α) (mark : Nat) : Except TaintFault (Zval κ α) := do
  let val ← zStrvalP zv
  let len ← zStrlenP zv
  let val ← inBuffer (store (toWord magicLength mark) (len + 1) val)
  setZStrvalP zv val

/-- The word behind the terminator. -/
def magicOf (zv : Operand κ α) : Except TaintFault Nat := do
  let val ← zStrvalP zv
  let len ← zStrlenP zv
  let bytes ← inBuffer (load magicLength (len + 1) val)
  return ofWord bytes

/-- `PHP_TAINT_POSSIBLE(zv)`. -/
def phpTaintPossible (zv : Operand κ α) : Except TaintFault Bool := do
  let magic ← magicOf zv
  return magic = magicPossible

/-- `PHP_TAINT_UNTAINT(zv)`. -/
def phpTaintUntaint (zv : Operand κ α) : Except TaintFault Bool := do
  let magic ← magicOf zv
  return magic = magicUntaint

section

variable (alloc : Realloc UInt8)
  (operandOf : Operand κ α → Except TaintFault (Operand κ α))

/-- What the branch for strings does, where `operandOf ppzval` is the argument of its
macros with `_P`. -/
def markString (ppzval : Operand κ α) : Except TaintFault (Zval κ α) := do
  let operand ← operandOf ppzval
  let val ← zStrvalP operand
  let len ← zStrlenPP ppzval
  let size ← addInt len 1
  let zval ← setZStrvalP operand (alloc.realloc val (size + magicLength))
  phpTaintMark ⟨1, zval⟩ magicPossible

/-- An element that is no array. -/
def markScalar (ppzval : Operand κ α) : Except TaintFault (Zval κ α) := do
  let operand ← operandOf ppzval
  let type ← zTypeP operand
  if .isString = type then markString alloc operandOf ppzval else return ppzval.zval

mutual

/-- The function on a symbol table, with that argument in the branch for strings. -/
def markStrings : Zval κ α → Except TaintFault (Zval κ α)
  | .array elements => do
      let elements ← markElements elements
      return .array elements
  | .other _ | .string _ => throw .notArray

/-- The loop. Behind the last element, and only there, there is no current element. -/
def markElements : Elements κ α → Except TaintFault (Elements κ α)
  | .nil => return .nil
  | .cons key zval rest => do
      let ppzval : Operand κ α := ⟨2, zval⟩
      let type ← zTypePP ppzval
      let zval ← if type = .isArray then markStrings zval else markScalar alloc operandOf ppzval
      let rest ← markElements rest
      return .cons key zval rest

end

end

/-- `php_taint_mark_strings`, with `Z_TYPE_P(ppzval)` and `Z_STRVAL_P(ppzval)` as they
stand. -/
def phpTaintMarkStrings (alloc : Realloc UInt8) (symbolTable : Zval κ α) :
    Except TaintFault (Zval κ α) :=
  markStrings alloc .ok symbolTable

/-- The function with `*ppzval` in their place. -/
def markStringsDereferenced (alloc : Realloc UInt8) (symbolTable : Zval κ α) :
    Except TaintFault (Zval κ α) :=
  markStrings alloc Operand.deref symbolTable

end McoWeb.Taint
