import McoWeb.Taint.MarkStrings

/-! # What the marking reaches

With its arguments dereferenced once more, the traversal marks every string at every
depth and changes nothing else. As it stands it has no meaning at the first element that
is no array.
-/

namespace McoWeb.Taint

open Foundation

/-- A string and the same string with a mark. -/
structure MarkedString (κ α : Type) (str str' : ZString) : Prop where
  len : str'.len = str.len
  kept : str'.val.take (str.len + 1) = str.val.take (str.len + 1)
  inside : str'.len + 1 + magicLength ≤ str'.val.length
  possible : phpTaintPossible (⟨1, .string str'⟩ : Operand κ α) = .ok true
  untaint : phpTaintUntaint (⟨1, .string str'⟩ : Operand κ α) = .ok false

mutual

/-- A value and the same value with every string marked. -/
inductive Marked {κ α : Type} : Zval κ α → Zval κ α → Prop
  | other (payload : α) : Marked (.other payload) (.other payload)
  | string {str str' : ZString} : MarkedString κ α str str' → Marked (.string str) (.string str')
  | array {elements elements' : Elements κ α} : MarkedElements elements elements' →
      Marked (.array elements) (.array elements')

inductive MarkedElements {κ α : Type} : Elements κ α → Elements κ α → Prop
  | nil : MarkedElements .nil .nil
  | cons {zval zval' : Zval κ α} {rest rest' : Elements κ α} (key : κ) : Marked zval zval' →
      MarkedElements rest rest' → MarkedElements (.cons key zval rest) (.cons key zval' rest')

end

variable {κ α : Type}

/-- The function marks every string of the table, changes nothing else, and nothing at all
when it runs again. -/
def MarksAll (mark : Zval κ α → Except TaintFault (Zval κ α)) (symbolTable : Zval κ α) : Prop :=
  ∃ marked, mark symbolTable = .ok marked ∧ Marked symbolTable marked ∧ mark marked = .ok marked

mutual

/-- There is nothing but arrays in a value. -/
def Zval.OnlyArrays : Zval κ α → Prop
  | .other _ => False
  | .string _ => False
  | .array elements => elements.OnlyArrays

def Elements.OnlyArrays : Elements κ α → Prop
  | .nil => True
  | .cons _ zval rest => zval.OnlyArrays ∧ rest.OnlyArrays

end

mutual

/-- No string in a value is of the greatest length there is. -/
def Zval.Extensible : Zval κ α → Prop
  | .other _ => True
  | .string str => str.len < 2147483647
  | .array elements => elements.Extensible

def Elements.Extensible : Elements κ α → Prop
  | .nil => True
  | .cons _ zval rest => zval.Extensible ∧ rest.Extensible

end

variable {alloc : Realloc UInt8} {operandOf : Operand κ α → Except TaintFault (Operand κ α)}

/-! ## One string -/

/-- A string that has no room but for the mark, and has it. -/
structure Tight (str : ZString) (mark : Nat) : Prop where
  length : str.val.length = str.len + 1 + magicLength
  mark : load magicLength (str.len + 1) str.val = some (toWord magicLength mark)

/-- The word behind the terminator of a string with a mark is the mark. -/
theorem Tight.magicOf {str : ZString} {mark : Nat} (hstr : Tight str mark)
    (hmark : mark < 256 ^ magicLength) :
    magicOf (⟨1, .string str⟩ : Operand κ α) = .ok mark := by
  change (inBuffer (load magicLength (str.len + 1) str.val)).bind
    (fun bytes => .ok (ofWord bytes)) = .ok mark
  rw [hstr.mark]
  change Except.ok (ofWord (toWord magicLength mark)) = .ok mark
  rw [ofWord_toWord_of_lt hmark]

theorem phpTaintMark_string (str : ZString) (mark : Nat) :
    phpTaintMark (⟨1, .string str⟩ : Operand κ α) mark =
      (inBuffer (store (toWord magicLength mark) (str.len + 1) str.val)).bind fun val =>
        (str.setVal val).bind fun str => .ok (.string str) :=
  rfl

/-- A mark with room for it is written behind the terminator. -/
theorem phpTaintMark_ok {str : ZString} (hlength : str.val.length = str.len + 1 + magicLength)
    (mark : Nat) :
    ∃ str', phpTaintMark (⟨1, .string str⟩ : Operand κ α) mark = .ok (.string str') ∧
      str'.len = str.len ∧ str'.val.take (str.len + 1) = str.val.take (str.len + 1) ∧
      Tight str' mark := by
  have hword := length_toWord magicLength mark
  obtain ⟨stored, hstore, hstored, htake, hload⟩ :=
    @store_of_le _ str.val (toWord magicLength mark) (str.len + 1) (by omega)
  obtain ⟨str', hset, hlen, hval⟩ := str.setVal_ok htake
  refine ⟨str', ?_, hlen, by rw [hval, htake], ?_⟩
  · rw [phpTaintMark_string, hstore]
    change (str.setVal stored).bind _ = _
    rw [hset]
    rfl
  · rw [hword] at hload
    refine ⟨?_, ?_⟩
    · rw [hval, hlen, hstored, hlength]
    · rw [hval, hlen, hload]

/-- Writing the mark that is there changes nothing. -/
theorem Tight.phpTaintMark {str : ZString} {mark : Nat} (hstr : Tight str mark) :
    phpTaintMark (⟨1, .string str⟩ : Operand κ α) mark = .ok (.string str) := by
  rw [phpTaintMark_string, store_of_load hstr.mark]
  change (str.setVal str.val).bind _ = _
  rw [str.setVal_self]
  rfl

theorem markScalar_string {str : ZString} (hlen : str.len < 2147483647) :
    markScalar alloc Operand.deref (⟨2, .string str⟩ : Operand κ α) =
      (str.setVal (alloc.realloc str.val (str.len + 1 + magicLength))).bind fun str =>
        phpTaintMark ⟨1, .string str⟩ magicPossible := by
  have hsize : addInt str.len 1 = .ok (str.len + 1) := if_pos hlen
  change (addInt str.len 1).bind (fun size =>
    (setZStrvalP (⟨1, .string str⟩ : Operand κ α)
      (alloc.realloc str.val (size + magicLength))).bind fun zval =>
        phpTaintMark ⟨1, zval⟩ magicPossible) = _
  rw [hsize]
  change (setZStrvalP _ _).bind _ = _
  rw [setZStrvalP_string]
  cases str.setVal _ <;> rfl

/-- A string comes out marked, and a string that is marked comes out as it is. -/
theorem markScalar_marked {str : ZString} (hlen : str.len < 2147483647) :
    ∃ str', markScalar alloc Operand.deref (⟨2, .string str⟩ : Operand κ α) =
        .ok (.string str') ∧
      MarkedString κ α str str' ∧
      markScalar alloc Operand.deref (⟨2, .string str'⟩ : Operand κ α) = .ok (.string str') := by
  have hkept : (alloc.realloc str.val (str.len + 1 + magicLength)).take (str.len + 1) =
      str.val.take (str.len + 1) :=
    alloc.take_of_le (Nat.le_add_right _ _) str.len_lt
  obtain ⟨grown, hgrown, hgrownLen, hgrownVal⟩ := str.setVal_ok hkept
  have hlength : grown.val.length = grown.len + 1 + magicLength := by
    rw [hgrownVal, alloc.length_realloc, hgrownLen]
  obtain ⟨str', hmark, hlen', htake, htight⟩ := @phpTaintMark_ok κ α _ hlength magicPossible
  have hsame : str'.len = str.len := hlen'.trans hgrownLen
  have hmagic : magicOf (⟨1, .string str'⟩ : Operand κ α) = .ok magicPossible :=
    htight.magicOf (by decide)
  refine ⟨str', ?_, ⟨hsame, ?_, htight.length.ge, ?_, ?_⟩, ?_⟩
  · rw [markScalar_string hlen, hgrown]
    exact hmark
  · rw [← hgrownLen, htake, hgrownVal, hgrownLen, hkept]
  · rw [phpTaintPossible, hmagic]
    rfl
  · rw [phpTaintUntaint, hmagic]
    rfl
  · have hroom : alloc.realloc str'.val (str'.len + 1 + magicLength) = str'.val := by
      rw [← htight.length, alloc.realloc_length]
    rw [markScalar_string (hsame ▸ hlen), hroom, str'.setVal_self]
    exact htight.phpTaintMark

/-! ## The tree -/

/-- What the loop does with one element. -/
def markElement (alloc : Realloc UInt8)
    (operandOf : Operand κ α → Except TaintFault (Operand κ α)) (zval : Zval κ α) :
    Except TaintFault (Zval κ α) :=
  if zval.type = .isArray then markStrings alloc operandOf zval
  else markScalar alloc operandOf ⟨2, zval⟩

theorem markElements_cons (key : κ) (zval : Zval κ α) (rest : Elements κ α) :
    markElements alloc operandOf (.cons key zval rest) =
      (markElement alloc operandOf zval).bind fun zval =>
        (markElements alloc operandOf rest).bind fun rest => .ok (.cons key zval rest) := by
  cases zval <;> rfl

theorem markElements_cons_ok {key : κ} {zval zval' : Zval κ α} {rest rest' : Elements κ α}
    (hzval : markElement alloc operandOf zval = .ok zval')
    (hrest : markElements alloc operandOf rest = .ok rest') :
    markElements alloc operandOf (.cons key zval rest) = .ok (.cons key zval' rest') := by
  rw [markElements_cons, hzval]
  change (markElements alloc operandOf rest).bind _ = _
  rw [hrest]
  rfl

theorem markElement_array (elements : Elements κ α) :
    markElement alloc operandOf (.array elements) =
      (markElements alloc operandOf elements).bind fun elements => .ok (.array elements) :=
  rfl

theorem markElement_array_ok {elements elements' : Elements κ α}
    (helements : markElements alloc operandOf elements = .ok elements') :
    markElement alloc operandOf (.array elements) = .ok (.array elements') := by
  rw [markElement_array, helements]
  rfl

mutual

theorem markElement_marked : ∀ zval : Zval κ α, zval.Extensible →
    ∃ zval', markElement alloc Operand.deref zval = .ok zval' ∧ Marked zval zval' ∧
      markElement alloc Operand.deref zval' = .ok zval'
  | .other payload, _ => ⟨.other payload, rfl, .other payload, rfl⟩
  | .string _, hextensible => by
      obtain ⟨str', hmark, hmarked, hagain⟩ := markScalar_marked hextensible
      exact ⟨.string str', hmark, .string hmarked, hagain⟩
  | .array elements, hextensible => by
      obtain ⟨elements', hmark, hmarked, hagain⟩ := markElements_marked elements hextensible
      exact ⟨.array elements', markElement_array_ok hmark, .array hmarked,
        markElement_array_ok hagain⟩

theorem markElements_marked : ∀ elements : Elements κ α, elements.Extensible →
    ∃ elements', markElements alloc Operand.deref elements = .ok elements' ∧
      MarkedElements elements elements' ∧
      markElements alloc Operand.deref elements' = .ok elements'
  | .nil, _ => ⟨.nil, rfl, .nil, rfl⟩
  | .cons key zval rest, ⟨hzval, hrest⟩ => by
      obtain ⟨zval', hmark, hmarked, hagain⟩ := markElement_marked zval hzval
      obtain ⟨rest', hmarkRest, hmarkedRest, hagainRest⟩ := markElements_marked rest hrest
      exact ⟨.cons key zval' rest', markElements_cons_ok hmark hmarkRest,
        .cons key hmarked hmarkedRest, markElements_cons_ok hagain hagainRest⟩

end

/-- With that argument every string of the table is marked, at every depth. -/
theorem markStringsDereferenced_marksAll (alloc : Realloc UInt8) {elements : Elements κ α}
    (hextensible : elements.Extensible) :
    MarksAll (markStringsDereferenced alloc) (.array elements) := by
  obtain ⟨zval, hmark, hmarked, hagain⟩ :=
    @markElement_marked _ _ alloc (.array elements) hextensible
  cases hmarked with
  | array hmarked => exact ⟨_, hmark, .array hmarked, hagain⟩

/-! ## The branch as it stands -/

theorem exists_of_bind_ok {β γ : Type} {first : Except TaintFault β}
    {second : β → Except TaintFault γ} {c : γ} (hbind : first.bind second = .ok c) :
    ∃ b, first = .ok b ∧ second b = .ok c := by
  cases first with
  | error => cases hbind
  | ok b => exact ⟨b, rfl, hbind⟩

/-- The member `type` is taken of a pointer. -/
theorem markScalar_notStruct (zval : Zval κ α) :
    markScalar alloc .ok ⟨2, zval⟩ = .error .notStruct :=
  rfl

mutual

theorem markElement_onlyArrays : ∀ zval : Zval κ α, zval.OnlyArrays →
    markElement alloc operandOf zval = .ok zval ∧ Marked zval zval
  | .array elements, honly => by
      obtain ⟨hmark, hmarked⟩ := markElements_onlyArrays elements honly
      exact ⟨markElement_array_ok hmark, .array hmarked⟩

theorem markElements_onlyArrays : ∀ elements : Elements κ α, elements.OnlyArrays →
    markElements alloc operandOf elements = .ok elements ∧ MarkedElements elements elements
  | .nil, _ => ⟨rfl, .nil⟩
  | .cons key zval rest, ⟨hzval, hrest⟩ => by
      obtain ⟨hmark, hmarked⟩ := markElement_onlyArrays zval hzval
      obtain ⟨hmarkRest, hmarkedRest⟩ := markElements_onlyArrays rest hrest
      exact ⟨markElements_cons_ok hmark hmarkRest, .cons key hmarked hmarkedRest⟩

end

mutual

theorem onlyArrays_of_markElement : ∀ (zval : Zval κ α) {zval' : Zval κ α},
    markElement alloc .ok zval = .ok zval' → zval.OnlyArrays
  | .other payload, _, hmark => by
      have hfault := hmark.symm.trans (markScalar_notStruct (.other payload))
      cases hfault
  | .string str, _, hmark => by
      have hfault := hmark.symm.trans (markScalar_notStruct (.string str))
      cases hfault
  | .array elements, _, hmark => by
      rw [markElement_array] at hmark
      obtain ⟨_, helements, _⟩ := exists_of_bind_ok hmark
      exact onlyArrays_of_markElements elements helements

theorem onlyArrays_of_markElements : ∀ (elements : Elements κ α) {elements' : Elements κ α},
    markElements alloc .ok elements = .ok elements' → elements.OnlyArrays
  | .nil, _, _ => trivial
  | .cons _ zval rest, _, hmark => by
      rw [markElements_cons] at hmark
      obtain ⟨_, hzval, hmark⟩ := exists_of_bind_ok hmark
      obtain ⟨_, hrest, _⟩ := exists_of_bind_ok hmark
      exact ⟨onlyArrays_of_markElement zval hzval, onlyArrays_of_markElements rest hrest⟩

end

/-- Every string of a table is marked, and nothing else changed, exactly where the table
has no element at any depth but arrays. -/
theorem phpTaintMarkStrings_marksAll_iff (alloc : Realloc UInt8) (elements : Elements κ α) :
    MarksAll (phpTaintMarkStrings alloc) (.array elements) ↔ elements.OnlyArrays := by
  constructor
  · rintro ⟨_, hmark, _⟩
    exact onlyArrays_of_markElement (.array elements) hmark
  · intro honly
    obtain ⟨hmark, hmarked⟩ := markElement_onlyArrays (.array elements) honly
    exact ⟨_, hmark, hmarked, hmark⟩

/-- A table with the empty string in it. -/
def emptyStringTable : Zval String Unit :=
  .array (.cons "a" (.string ⟨0, [0], rfl, by decide⟩) .nil)

/-- The one string of a table is not marked. -/
theorem phpTaintMarkStrings_misses_string :
    ¬ MarksAll (phpTaintMarkStrings (.filled 0)) emptyStringTable := by
  rintro ⟨_, hmark, _⟩
  cases hmark

end McoWeb.Taint
