import McoWeb.Cache.GetImpl
import McoWeb.Cache.StoreArguments

/-! # Storing an array

Storing an array is storing its elements one by one. An element is found again
by asking for its key where the text it is stored under is the key's printable
form, which is signed for the readers and unsigned for the writer.
-/

namespace McoWeb.Cache

open Foundation Storage

/-- An array key as a script value. -/
def HashKey.zval : HashKey → Zval
  | .string key => .string key
  | .long idx => .long idx

/-- The elements of an array with the texts they are stored under. -/
def Zval.elements (kvs : Zval) : List (PhpString × Zval) :=
  kvs.arrval.map fun e => (e.1.text, e.2)

/-- No element has a negative integer key. -/
def NoNegativeIndex (ht : List (HashKey × Zval)) : Prop :=
  ∀ idx value, (HashKey.long idx, value) ∈ ht → 0 ≤ idx.toInt

theorem toUInt64_toNat_of_nonneg (idx : Int64) (hnonneg : 0 ≤ idx.toInt) :
    idx.toUInt64.toNat = idx.toInt.natAbs := by
  have hclamp := Int64.toNat_toUInt64_of_le (Int64.le_iff_toInt_le.mpr hnonneg)
  rw [hclamp, Int64.toNatClampNeg]
  omega

/-- The writer's text of an integer key is its printable form if it is not
negative. -/
theorem HashKey.text_long_iff (engine : Engine) (idx : Int64) :
    (HashKey.long idx).text = engine.printable (.long idx) ↔ 0 ≤ idx.toInt := by
  rw [← unsignedDecimal_eq_signedDecimal_iff (toUInt64_toNat_of_nonneg idx)]
  constructor
  · intro htext
    exact congrArg PhpString.bytes htext
  · intro hdigits
    exact PhpString.ext hdigits

namespace Yac

variable {σ : Type} (yac : Yac σ) (w : World σ) (pfx : PhpString) (kvs : Zval)
  (ttl add : Int32)

/-- The elements that are come to when they are stored one by one: each whose predecessors
were all stored. -/
def reached : List (HashKey × Zval) → World σ → List (HashKey × Zval)
  | [], _ => []
  | element :: rest, w =>
      element ::
        match yac.yacAddImpl w pfx element.1.text element.2 ttl add with
        | (ret, w) => if ret ≠ 0 then reached rest w else []

/-- The elements that are come to are those that any sequence of single stores in order
consists of. -/
theorem StoresInOrder.inputs_eq {ht : List (HashKey × Zval)} {w last : World σ}
    {events : List (Event (World σ) (PhpString × Zval) Int32)} {allStored : Prop}
    (hstores : yac.StoresInOrder pfx ttl add w (ht.map fun e => (e.1.text, e.2)) events
      allStored last) :
    events.map Event.input = (yac.reached pfx ttl add ht w).map fun e => (e.1.text, e.2) := by
  induction ht generalizing w events allStored with
  | nil => exact List.prefix_nil.mp hstores.stops.in_order
  | cons element rest ih =>
      obtain ⟨hrun, hstops, _⟩ := hstores
      cases hrun with
      | nil => exact absurd (hstops.complete (by simp)) (by simp)
      | @cons _ next _ input ret events hstore hrest =>
          obtain ⟨_, hinputs, hfail, hpass⟩ := hstops.of_cons
          obtain ⟨rfl, rfl⟩ := List.cons.inj hinputs
          have hadd : yac.yacAddImpl w pfx element.1.text element.2 ttl add = (ret, next) := hstore
          rw [List.map_cons, reached, hadd, List.map_cons]
          by_cases hret : ret = 0
          · simp [hfail hret, hret]
          · simp only [ne_eq, hret, not_false_eq_true, if_true]
            rw [ih ⟨hrest, hpass hret, Iff.rfl⟩]

/-- The array is stored element by element, and each element that is come to is found again
under its key. -/
structure StoresElements : Prop where
  in_order : ∃ events, yac.StoresInOrder pfx ttl add w kvs.elements events
      ((yac.yacAddMultiImpl w pfx kvs ttl add).1 = 1)
      (yac.yacAddMultiImpl w pfx kvs ttl add).2 ∧
    events.map Event.input =
      (yac.reached pfx ttl add kvs.arrval w).map fun e => (e.1.text, e.2)
  ret : (yac.yacAddMultiImpl w pfx kvs ttl add).1 = 0 ∨
    (yac.yacAddMultiImpl w pfx kvs ttl add).1 = 1
  reader_key : ∀ e ∈ yac.reached pfx ttl add kvs.arrval w, ∀ copy,
    e.1.text = yac.engine.keyText e.1.zval copy
  found_again : ∀ e ∈ yac.reached pfx ttl add kvs.arrval w, ¬ KeyTooLong pfx e.1.text →
    ∀ (w' : World σ) (copy : PhpString) (key : HashKey),
      (yac.yacGetMultiImpl w' pfx copy (.array [(key, e.1.zval)])).2.requests =
        w'.requests ++ [.find (storageKey pfx e.1.text)]

theorem yacGetMultiImpl_one (copy : PhpString) (key : HashKey) (value : Zval)
    (haccepted : ¬ KeyTooLong pfx (yac.engine.keyText value copy)) :
    (yac.yacGetMultiImpl w pfx copy (.array [(key, value)])).2.requests =
      w.requests ++ [.find (storageKey pfx (yac.engine.keyText value copy))] :=
  yac.yacGetImpl_requests w haccepted

/-- An array is stored as its elements in order, up to the first that fails, and those that
are come to are found again under their keys, exactly when none of these has a negative
integer key. -/
theorem yacAddMultiImpl_storesElements_iff :
    yac.StoresElements w pfx kvs ttl add ↔
      NoNegativeIndex (yac.reached pfx ttl add kvs.arrval w) := by
  constructor
  · intro hstores idx value hmem
    have hkey := hstores.reader_key _ hmem .empty
    rw [Engine.keyText_eq_printable] at hkey
    exact (HashKey.text_long_iff yac.engine idx).mp hkey
  · intro hnonneg
    have hkey : ∀ e ∈ yac.reached pfx ttl add kvs.arrval w, ∀ copy,
        e.1.text = yac.engine.keyText e.1.zval copy := by
      rintro ⟨key, value⟩ hmem copy
      cases key with
      | string key => rfl
      | long idx =>
          rw [Engine.keyText_eq_printable]
          exact (HashKey.text_long_iff yac.engine idx).mpr (hnonneg idx value hmem)
    refine ⟨?_, ?_, hkey, ?_⟩
    · obtain ⟨events, hevents⟩ := yac.yacAddElements_storesInOrder pfx ttl add kvs.arrval w
      exact ⟨events, hevents, hevents.inputs_eq⟩
    · exact yac.yacAddElements_ret pfx ttl add kvs.arrval w
    · intro e hmem haccepted w' copy key
      rw [hkey e hmem copy] at haccepted ⊢
      exact yac.yacGetMultiImpl_one w' pfx copy key e.1.zval haccepted

end Yac

/-- An array with the one key -1. -/
def minusOne : Zval := .array [(.long (-1), .null)]

/-- The element under -1 is stored as `18446744073709551615`, which asking for -1
does not look up. -/
theorem yacAddMultiImpl_negative :
    (∃ data flag, (plainYac.yacAddMultiImpl freshWorld .empty minusOne 0 0).2.requests =
      [.update ⟨⟨[49, 56, 52, 52, 54, 55, 52, 52, 48, 55, 51, 55, 48, 57, 53, 53, 49, 54, 49, 53],
        by decide⟩, data, flag, 0, 0⟩]) ∧
    (plainYac.yacGetMultiImpl freshWorld .empty .empty
        (.array [(.long 0, .long (-1))])).2.requests = [.find ⟨[45, 49], by decide⟩] ∧
    ¬ plainYac.StoresElements freshWorld .empty minusOne 0 0 := by
  refine ⟨⟨_, _, rfl⟩, rfl, ?_⟩
  intro hstores
  have hkey := hstores.reader_key (.long (-1), .null) List.mem_cons_self .empty
  exact absurd (congrArg PhpString.bytes hkey) (by decide)

end McoWeb.Cache
