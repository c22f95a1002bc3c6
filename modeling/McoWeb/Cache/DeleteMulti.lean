import McoWeb.Cache.DeleteImpl
import McoWeb.Cache.StoreArguments

/-! # Deleting a list of keys

The list delete should be the single-key delete of every element, and so delete
whatever the list lookup of the same array asks for. It is for the elements that
are printed. Of a string element it passes on the length in the place of the
string, which does no harm only where the string is not read.
-/

namespace McoWeb.Cache

open Foundation Storage

namespace Yac

variable {σ : Type} (yac : Yac σ) (pfx copy : PhpString) (ttl : Int32)

/-- The key texts of an array's elements. -/
def texts (ht : List (HashKey × Zval)) : List PhpString :=
  ht.map fun element => yac.engine.printable element.2

/-- The texts that are not too long under a prefix, as they are addressed. -/
def addressed (pfx : PhpString) (keys : List PhpString) : List Key :=
  (keys.filter fun key => ¬ KeyTooLong pfx key).map (storageKey pfx)

/-- The single-key delete of each key in order. -/
def deleteEach (keys : List PhpString) (w : World σ) : Except (World σ) (World σ) :=
  keys.foldlM (fun w key => yac.yacDeleteImpl w pfx (.string key) ttl) w

/-- An element whose string, if it is one, is never read. -/
def NotRead (pfx : PhpString) (value : Zval) : Prop :=
  ∀ str, value = .string str → KeyTooLong pfx str ∨ (pfx.length = 0 ∧ str.length = 0)

/-- Deleting a list is deleting each of its elements: the same calls of the store in the same
order, one for each text that is not too long, among them every key that a lookup of
the list asks for. -/
structure DeletesEach (w : World σ) (ht : List (HashKey × Zval)) : Prop where
  each : yac.yacDeleteMultiImpl w pfx copy (.array ht) ttl =
    yac.deleteEach pfx ttl (yac.texts ht) w
  deletes : ∃ next, yac.yacDeleteMultiImpl w pfx copy (.array ht) ttl = .ok next ∧
    next.requests =
      w.requests ++ (addressed pfx (yac.texts ht)).map fun key => .delete key ttl
  lookups : ∀ (w' : World σ) (copy' : PhpString),
    (yac.yacGetMultiImpl w' pfx copy' (.array ht)).2.requests =
      w'.requests ++ (addressed pfx (yac.texts ht)).map .find

variable {yac pfx copy ttl}

theorem addressed_cons_of_too_long {key : PhpString} {rest : List PhpString}
    (hlong : KeyTooLong pfx key) : addressed pfx (key :: rest) = addressed pfx rest := by
  simp [addressed, hlong]

theorem addressed_cons {key : PhpString} {rest : List PhpString}
    (haccepted : ¬ KeyTooLong pfx key) :
    addressed pfx (key :: rest) = storageKey pfx key :: addressed pfx rest := by
  simp [addressed, haccepted]

theorem yacGetElements_requests (ht : List (HashKey × Zval)) (w : World σ) :
    (yac.yacGetElements pfx copy ht w).2.requests =
      w.requests ++ (addressed pfx (yac.texts ht)).map .find := by
  induction ht generalizing w with
  | nil => simp [yacGetElements, texts, addressed]
  | cons element rest ih =>
      obtain ⟨key, value⟩ := element
      have htexts : yac.texts ((key, value) :: rest) =
          yac.engine.printable value :: yac.texts rest := rfl
      simp only [yacGetElements, ih, htexts, yac.engine.keyText_eq_printable]
      by_cases hlong : KeyTooLong pfx (yac.engine.printable value)
      · rw [addressed_cons_of_too_long hlong, yacGetImpl, if_pos hlong, World.warn_requests]
      · rw [addressed_cons hlong, yacGetImpl_requests _ _ hlong, List.map_cons, List.append_assoc]
        rfl

theorem yacDeleteImpl_too_long (yac : Yac σ) (w : World σ) (ttl : Int32) (key : KeyPointer)
    (hlong : KeyTooLong pfx key.measured) :
    yac.yacDeleteImpl w pfx key ttl = .ok (w.warn (keyTooLongText "Key " pfx)) := by
  unfold yacDeleteImpl
  exact if_pos hlong

theorem deleteEach_cons (key : PhpString) (rest : List PhpString) {w next : World σ}
    (hdelete : yac.yacDeleteImpl w pfx (.string key) ttl = .ok next) :
    yac.deleteEach pfx ttl (key :: rest) w = yac.deleteEach pfx ttl rest next := by
  rw [deleteEach, List.foldlM_cons, hdelete]
  rfl

theorem deleteEach_requests (keys : List PhpString) (w : World σ) :
    ∃ next, yac.deleteEach pfx ttl keys w = .ok next ∧
      next.requests = w.requests ++ (addressed pfx keys).map fun key => .delete key ttl := by
  induction keys generalizing w with
  | nil => exact ⟨w, rfl, by simp [addressed]⟩
  | cons key rest ih =>
      by_cases hlong : KeyTooLong pfx key
      · have hdelete := yac.yacDeleteImpl_too_long w ttl (.string key) hlong
        rw [deleteEach_cons key rest hdelete, addressed_cons_of_too_long hlong]
        exact ih _
      · rw [deleteEach_cons key rest (yac.yacDeleteImpl_string w ttl hlong), addressed_cons hlong]
        obtain ⟨next, hnext, hrequests⟩ := ih (yac.yacStorageDelete w (storageKey pfx key) ttl)
        refine ⟨next, hnext, ?_⟩
        rw [hrequests, List.map_cons, yacStorageDelete, List.append_assoc]
        rfl

/-- What the loop passes on for an element. -/
def passedKey (yac : Yac σ) (copy : PhpString) : Zval → KeyPointer
  | .string str => .lengthTwice str
  | value => .string (yac.engine.makePrintable value copy).1

theorem yacDeleteElements_cons (key : HashKey) (value : Zval) (rest : List (HashKey × Zval))
    (w : World σ) :
    yac.yacDeleteElements pfx copy ttl ((key, value) :: rest) w =
      match yac.yacDeleteImpl w pfx (yac.passedKey copy value) ttl with
      | .error w => .error w
      | .ok w => yac.yacDeleteElements pfx copy ttl rest w := by
  cases value <;> rfl

/-- Where the string is not read, the call is that of the single-key delete. -/
theorem yacDeleteImpl_passedKey {value : Zval} (hnotRead : NotRead pfx value) (w : World σ) :
    yac.yacDeleteImpl w pfx (yac.passedKey copy value) ttl =
      yac.yacDeleteImpl w pfx (.string (yac.engine.printable value)) ttl := by
  cases value with
  | string str =>
      rcases hnotRead str rfl with hlong | hempty
      · have htwice := yac.yacDeleteImpl_too_long w ttl (.lengthTwice str) hlong
        have hstring := yac.yacDeleteImpl_too_long w ttl (.string str) hlong
        exact htwice.trans hstring.symm
      · obtain rfl : str = .empty := PhpString.ext (List.length_eq_zero_iff.mp hempty.2)
        simp only [passedKey, Engine.printable, yacDeleteImpl, KeyPointer.measured, if_pos hempty]
        rfl
  | _ => rfl

/-- Anywhere else, it reads through a length. -/
theorem yacDeleteImpl_passedKey_error {value : Zval} (hread : ¬ NotRead pfx value) (w : World σ) :
    yac.yacDeleteImpl w pfx (yac.passedKey copy value) ttl = .error w := by
  cases value with
  | string str =>
      simp only [NotRead, Zval.string.injEq, forall_eq', not_or] at hread
      have hmeasured : ¬ KeyTooLong pfx (KeyPointer.lengthTwice str).measured := hread.1
      simp only [passedKey, yacDeleteImpl, if_neg hmeasured, if_neg hread.2]
  | _ =>
      refine absurd ?_ hread
      rintro _ ⟨⟩

theorem yacDeleteElements_of_notRead {ht : List (HashKey × Zval)}
    (hnotRead : ∀ element ∈ ht, NotRead pfx element.2) (w : World σ) :
    yac.yacDeleteElements pfx copy ttl ht w = yac.deleteEach pfx ttl (yac.texts ht) w := by
  induction ht generalizing w with
  | nil => rfl
  | cons element rest ih =>
      obtain ⟨key, value⟩ := element
      obtain ⟨hvalue, hrest⟩ := List.forall_mem_cons.mp hnotRead
      rw [yacDeleteElements_cons, yacDeleteImpl_passedKey hvalue]
      change _ = yac.deleteEach pfx ttl (yac.engine.printable value :: yac.texts rest) w
      cases hdelete : yac.yacDeleteImpl w pfx (.string (yac.engine.printable value)) ttl with
      | error w' =>
          rw [deleteEach, List.foldlM_cons, hdelete]
          rfl
      | ok next =>
          rw [deleteEach_cons _ _ hdelete]
          exact ih hrest next

theorem yacDeleteElements_notRead {ht : List (HashKey × Zval)} {w next : World σ}
    (hdelete : yac.yacDeleteElements pfx copy ttl ht w = .ok next) :
    ∀ element ∈ ht, NotRead pfx element.2 := by
  induction ht generalizing w with
  | nil => simp
  | cons element rest ih =>
      obtain ⟨key, value⟩ := element
      rw [yacDeleteElements_cons] at hdelete
      refine List.forall_mem_cons.mpr ?_
      by_cases hvalue : NotRead pfx value
      · refine ⟨hvalue, ?_⟩
        split at hdelete
        next => cases hdelete
        next => exact ih hdelete
      · rw [yacDeleteImpl_passedKey_error hvalue] at hdelete
        cases hdelete

variable (yac pfx copy ttl)

/-- Deleting a list is deleting each of its elements exactly when every string among
them is too long under the prefix, or it and the prefix are empty. -/
theorem yacDeleteMultiImpl_deletesEach_iff (w : World σ) (ht : List (HashKey × Zval)) :
    yac.DeletesEach pfx copy ttl w ht ↔
      ∀ element ∈ ht, ∀ str, element.2 = .string str →
        KeyTooLong pfx str ∨ (pfx.length = 0 ∧ str.length = 0) := by
  constructor
  · intro heach
    obtain ⟨next, hdelete, _⟩ := heach.deletes
    exact yacDeleteElements_notRead hdelete
  · intro hnotRead
    have heach : yac.yacDeleteMultiImpl w pfx copy (.array ht) ttl =
        yac.deleteEach pfx ttl (yac.texts ht) w := yacDeleteElements_of_notRead hnotRead w
    refine ⟨heach, ?_, fun w' copy' => ?_⟩
    · rw [heach]
      exact deleteEach_requests (yac.texts ht) w
    · exact yacGetElements_requests ht w'

end Yac

/-- The array of the string `a` is not deleted without a prefix. -/
theorem yacDeleteMultiImpl_reads_length :
    ¬ ∀ (yac : Yac Unit) (pfx copy : PhpString) (ttl : Int32) (w : World Unit)
      (ht : List (HashKey × Zval)), yac.DeletesEach pfx copy ttl w ht := by
  intro hall
  obtain ⟨next, hdelete, _⟩ :=
    (hall plainYac .empty .empty 0 freshWorld [(.long 0, .string ⟨[0x61], by decide⟩)]).deletes
  have herror : plainYac.yacDeleteMultiImpl freshWorld .empty .empty
      (.array [(.long 0, .string ⟨[0x61], by decide⟩)]) 0 = .error freshWorld := by
    rfl
  rw [herror] at hdelete
  cases hdelete

end McoWeb.Cache
