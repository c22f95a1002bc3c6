import McoWeb.Foundation.Bytes

/-! # Script values

The values a script passes to the cache, by their active type, with the type
codes of `zend.h`, and their printable form. Strings have an `int` length. An
object stands for its class and properties, which is what serialization sees of
it.
-/

namespace McoWeb.Cache

open Foundation

/-- A string of the engine: any bytes, an `int` length, and a terminator behind. -/
structure PhpString where
  bytes : List UInt8
  length_lt : bytes.length < 2 ^ 31
deriving DecidableEq

namespace PhpString

def length (s : PhpString) : Nat := s.bytes.length

theorem length_lt_size (s : PhpString) : s.length < 2 ^ 32 :=
  Nat.lt_trans s.length_lt (by decide)

def empty : PhpString := ⟨[], by decide⟩

@[ext] theorem ext {s t : PhpString} (hbytes : s.bytes = t.bytes) : s = t := by
  cases s
  cases t
  cases hbytes
  rfl

end PhpString

/-- The key of an array element. -/
inductive HashKey
  | string (key : PhpString)
  | long (idx : Int64)
deriving DecidableEq

/-- The member of the value union that a decoder fills in for a type byte the
engine does not know. -/
inductive ZvalueMember
  | lval (lval : Int64)
  | dval (dval : UInt64)
  | str (str : PhpString)
deriving DecidableEq

/-- `zval`: the ten types of `zend.h`, and any other type byte. A double is its
64 bits. -/
inductive Zval
  | null
  | long (lval : Int64)
  | double (dval : UInt64)
  | bool (lval : Int64)
  | array (ht : List (HashKey × Zval))
  | object (ce : PhpString) (properties : List (HashKey × Zval))
  | string (str : PhpString)
  | resource (handle : Int64)
  | constant (name : PhpString)
  | constantArray (ht : List (HashKey × Zval))
  | other (type : UInt8) (unlisted : 10 ≤ type) (member : ZvalueMember)

namespace Zval

/-- `Z_TYPE_P`: `IS_NULL` to `IS_CONSTANT_ARRAY` are 0 to 9. -/
def type : Zval → UInt8
  | null => 0
  | long _ => 1
  | double _ => 2
  | bool _ => 3
  | array _ => 4
  | object _ _ => 5
  | string _ => 6
  | resource _ => 7
  | constant _ => 8
  | constantArray _ => 9
  | other type _ _ => type

/-- `Z_TYPE_P(ret) = type; Z_LVAL_P(ret) = lval`, for the integer types. -/
def ofLval (type : UInt8) (lval : Int64) : Zval :=
  if unlisted : 10 ≤ type then .other type unlisted (.lval lval)
  else if type = 3 then .bool lval
  else .long lval

/-- `Z_TYPE_P(ret) = type; Z_DVAL_P(ret) = dval`. -/
def ofDval (type : UInt8) (dval : UInt64) : Zval :=
  if unlisted : 10 ≤ type then .other type unlisted (.dval dval) else .double dval

/-- `ZVAL_STRINGL(ret, …)` followed by `Z_TYPE_P(ret) = type`. -/
def ofStr (type : UInt8) (str : PhpString) : Zval :=
  if unlisted : 10 ≤ type then .other type unlisted (.str str)
  else if type = 8 then .constant str
  else .string str

/-- `Z_TYPE_P(value) == IS_ARRAY`. -/
def isArray : Zval → Bool
  | array _ => true
  | _ => false

/-- `Z_ARRVAL_P`, in the order of the array. -/
def arrval : Zval → List (HashKey × Zval)
  | array ht => ht
  | _ => []

end Zval

theorem unsignedDecimal_length_lt (n : UInt64) : (unsignedDecimal n.toNat).length < 2 ^ 31 := by
  have hlt : n.toNat < 10 ^ 20 := Nat.lt_trans n.toNat_lt (by decide)
  have hlen := length_unsignedDecimal_le (by decide) hlt
  omega

theorem signedDecimal_length_lt (i : Int64) : (signedDecimal i.toInt).length < 2 ^ 31 := by
  have hhigh := i.toInt_lt
  have hlow := i.le_toInt
  have hlt : i.toInt.natAbs < 10 ^ 20 := by omega
  have hlen := length_signedDecimal_le (by decide) hlt
  omega

/-- What the engine supplies. -/
structure Engine where
  /-- The printable form of values printed through the locale, a handler or the
  constant table. -/
  otherPrintable : Zval → PhpString
  /-- The `l` conversion of a method argument; `none` refuses the argument. -/
  parseLong : Zval → Option Int64
  /-- The array that `add_assoc_zval_ex` calls build, one for each entry. -/
  assoc : List (PhpString × Zval) → List (HashKey × Zval)
  /-- What `%d` reads where the call passes no argument for it. -/
  missingArgument : Int32

namespace Engine

/-- The printable form of a value. -/
def printable (engine : Engine) : Zval → PhpString
  | .null => .empty
  | .bool lval => if lval = 0 then .empty else ⟨[0x31], by decide⟩
  | .long lval => ⟨signedDecimal lval.toInt, signedDecimal_length_lt lval⟩
  | .array _ => ⟨[0x41, 0x72, 0x72, 0x61, 0x79], by decide⟩
  | .string str => str
  | value => engine.otherPrintable value

/-- `zend_make_printable_zval(expr, copy, use_copy)`: the copy after the call and
`use_copy`. A string leaves the copy as it was. -/
def makePrintable (engine : Engine) (expr : Zval) (copy : PhpString) : PhpString × Bool :=
  match expr with
  | .string _ => (copy, false)
  | value => (engine.printable value, true)

/-- The key text of a script value on the two-way branch most callers use: a
string is taken as it is, anything else goes through the copy. -/
def keyText (engine : Engine) (value : Zval) (copy : PhpString) : PhpString :=
  match value with
  | .string str => str
  | value => (engine.makePrintable value copy).1

/-- The copy is only read where it was filled. -/
theorem keyText_eq_printable (engine : Engine) (value : Zval) (copy : PhpString) :
    engine.keyText value copy = engine.printable value := by
  cases value <;> rfl

end Engine

end McoWeb.Cache
