import McoWeb.Cache.Methods
import McoWeb.Cache.MultiStore

/-! # What the methods do

`add` and `set` make the same call but for the add flag, and only `add` reports
its outcome. `add`, `set` and `delete` reach their single-key function with the
printable form of the key argument; `get` does so for no type.
-/

namespace McoWeb.Cache

open Foundation Storage

namespace AddCall

/-- The single stores a call stands for. -/
def elements : AddCall → List (PhpString × Zval)
  | single key value _ _ => [(key, value)]
  | multi kvs _ _ => kvs.elements

def ttl : AddCall → Int32
  | single _ _ ttl _ => ttl
  | multi _ ttl _ => ttl

def add : AddCall → Int32
  | single _ _ _ add => add
  | multi _ _ add => add

/-- The call with another add flag. -/
def withAdd (flag : Int32) : AddCall → AddCall
  | single key value ttl _ => .single key value ttl flag
  | multi kvs ttl _ => .multi kvs ttl flag

end AddCall

namespace StoreArgs

variable (args : StoreArgs) (engine : Engine)

/-- `set` dispatches as `add` does, with the other flag. -/
theorem setCall_eq (copy copy' : PhpString) :
    args.setCall engine copy' = (args.addCall engine copy).withAdd 0 := by
  unfold setCall addCall
  split
  next => rfl
  next =>
    rw [Engine.keyText_eq_printable, Engine.keyText_eq_printable]
    rfl

theorem addCall_add (copy : PhpString) : (args.addCall engine copy).add = 1 := by
  unfold addCall
  split <;> rfl

/-- Next to a key that is not an array the call is a single store under the printable
key. -/
theorem addCall_single {args : StoreArgs} {value : Zval} (hkey : ¬ args.keys.isArray)
    (hvalue : args.value = some value) (copy : PhpString) :
    args.addCall engine copy =
      .single (engine.printable args.keys) value args.ttl.toInt32 1 := by
  rw [addCall, dif_neg hkey, Engine.keyText_eq_printable]
  simp only [hvalue, Option.get_some]

end StoreArgs

namespace Yac

variable {σ : Type} (yac : Yac σ)

theorem yacAddImpl_entered (w : World σ) (pfx key : PhpString) (value : Zval)
    (ttl add : Int32) : (yac.yacAddImpl w pfx key value ttl add).2.entered = w.entered := by
  have houtcome := yacAddImpl_outcome yac w pfx key value ttl add
  generalize yac.yacAddImpl w pfx key value ttl add = result at houtcome
  cases houtcome <;> rfl

variable {yac} in
theorem StoresInOrder.entered {pfx : PhpString} {ttl add : Int32} {w last : World σ}
    {elements : List (PhpString × Zval)}
    {events : List (Event (World σ) (PhpString × Zval) Int32)} {allStored : Prop}
    (hstores : yac.StoresInOrder pfx ttl add w elements events allStored last) :
    last.entered = w.entered := by
  refine (hstores.run.invariant (fun s => s.entered = w.entered) ?_ rfl).2
  intro s element ret next hentered hstep
  have hsame := yac.yacAddImpl_entered s pfx element.1 element.2 ttl add
  rw [show yac.yacAddImpl s pfx element.1 element.2 ttl add = (ret, next) from hstep] at hsame
  exact hsame.trans hentered

/-- A call from a method is its single stores in order, and its result is whether
all of them were made. -/
theorem invokeAdd_storesInOrder (w : World σ) (pfx : PhpString) (call : AddCall) :
    ∃ events, yac.StoresInOrder pfx call.ttl call.add (w.enter (.add pfx call)) call.elements
      events ((yac.invokeAdd w pfx call).1 ≠ 0) (yac.invokeAdd w pfx call).2 := by
  cases call with
  | single key value ttl add =>
      obtain ⟨ret, next, hstore⟩ : ∃ ret next, yac.SingleStore pfx ttl add
          (w.enter (.add pfx (.single key value ttl add))) (key, value) ret next := ⟨_, _, rfl⟩
      have hinvoke : yac.invokeAdd w pfx (.single key value ttl add) = (ret, next) := hstore
      rw [hinvoke]
      refine ⟨_, .cons hstore (.nil next), ?_, by simp⟩
      by_cases hret : ret = 0
      · exact .fail _ (key, value) [] hret
      · exact .pass _ (key, value) hret .nil
  | multi kvs ttl add =>
      let start := w.enter (.add pfx (.multi kvs ttl add))
      obtain ⟨events, hrun, hstops, hall⟩ :=
        yac.yacAddElements_storesInOrder pfx ttl add kvs.arrval start
      have hret := yac.yacAddElements_ret pfx ttl add kvs.arrval start
      refine ⟨events, hrun, hstops, ?_⟩
      -- the loop returns 0 or 1 and nothing else
      rw [← hall]
      change (yac.yacAddElements pfx ttl add kvs.arrval start).1 ≠ 0 ↔ _
      rcases hret with hret | hret <;> rw [hret] <;> decide

theorem invokeAdd_entered (w : World σ) (pfx : PhpString) (call : AddCall) :
    (yac.invokeAdd w pfx call).2.entered = w.entered ++ [.add pfx call] := by
  obtain ⟨events, hstores⟩ := yac.invokeAdd_storesInOrder w pfx call
  exact hstores.entered

/-! ## `add` and `set` -/

section

variable (w : World σ) (this : Option PhpString) (args : List Zval) (locals : Locals)

/-- Called alike, `add` and `set` make the same call but for the add flag. -/
def SameCalls : Prop :=
  ∃ call : AddCall, call.add = 1 ∧
    (yac.yacAdd w this args locals).2.entered =
      w.entered ++ [.add (this.getD .empty) call] ∧
    (yac.yacSet w this args locals).2.entered =
      w.entered ++ [.add (this.getD .empty) (call.withAdd 0)]

/-- A method makes one call and returns true or false, true exactly when every single
store of the call was made. -/
def Reports (pfx : PhpString) (result : Zval × World σ) : Prop :=
  ∃ call events, yac.StoresInOrder pfx call.ttl call.add (w.enter (.add pfx call))
      call.elements events (result.1 = .bool 1) result.2 ∧
    (result.1 = .bool 1 ∨ result.1 = .bool 0)

/-- `set` is `add` without the flag, and both report their outcome. -/
structure SetMatchesAdd : Prop where
  same_calls : yac.SameCalls w this args locals
  add_reports : yac.Reports w (this.getD .empty) (yac.yacAdd w this args locals)
  set_reports : yac.Reports w (this.getD .empty) (yac.yacSet w this args locals)

variable {yac w this args locals} {parsed : StoreArgs}

theorem yacAdd_accepted (henable : yac.enable = true)
    (hargs : parseAddArgs yac.engine args = .ok parsed) (w : World σ)
    (this : Option PhpString) (locals : Locals) :
    yac.yacAdd w this args locals =
      (.bool (if (yac.invokeAdd w (this.getD .empty)
          (parsed.addCall yac.engine locals.copy)).1 ≠ 0 then 1 else 0),
        (yac.invokeAdd w (this.getD .empty) (parsed.addCall yac.engine locals.copy)).2) := by
  simp only [yacAdd, henable, hargs, Bool.true_eq_false, if_false]

theorem yacSet_accepted (henable : yac.enable = true)
    (hargs : parseAddArgs yac.engine args = .ok parsed) (w : World σ)
    (this : Option PhpString) (locals : Locals) :
    yac.yacSet w this args locals =
      (.null, (yac.invokeAdd w (this.getD .empty)
        (parsed.setCall yac.engine locals.copy)).2) := by
  simp only [yacSet, henable, parseSetArgs_eq, hargs, Bool.true_eq_false, if_false]

theorem sameCalls_accepted (henable : yac.enable = true)
    (hargs : parseAddArgs yac.engine args = .ok parsed) :
    yac.SameCalls w this args locals := by
  refine ⟨parsed.addCall yac.engine locals.copy, parsed.addCall_add _ _, ?_, ?_⟩
  · rw [yacAdd_accepted henable hargs]
    exact yac.invokeAdd_entered w _ _
  · rw [yacSet_accepted henable hargs, parsed.setCall_eq _ locals.copy]
    exact yac.invokeAdd_entered w _ _

theorem yacAdd_reports (henable : yac.enable = true)
    (hargs : parseAddArgs yac.engine args = .ok parsed) :
    yac.Reports w (this.getD .empty) (yac.yacAdd w this args locals) := by
  rw [yacAdd_accepted henable hargs]
  obtain ⟨events, hrun, hstops, hall⟩ :=
    yac.invokeAdd_storesInOrder w (this.getD .empty) (parsed.addCall yac.engine locals.copy)
  refine ⟨_, events, ⟨hrun, hstops, ?_⟩, ?_⟩
  · rw [← hall]
    split
    next hret => simp [hret]
    next hret => simp [hret]
  · split
    next => exact .inl rfl
    next => exact .inr rfl

/-- Whenever the arguments are accepted, `add` and `set` make the same calls but for
the flag and `add` reports the outcome; `set` never does. -/
theorem yacSet_matches_never (henable : yac.enable = true)
    (hargs : parseAddArgs yac.engine args = .ok parsed) :
    yac.SameCalls w this args locals ∧
      yac.Reports w (this.getD .empty) (yac.yacAdd w this args locals) ∧
      ¬ yac.SetMatchesAdd w this args locals := by
  refine ⟨sameCalls_accepted henable hargs, yacAdd_reports henable hargs, ?_⟩
  intro hmatches
  obtain ⟨_, _, _, hret⟩ := hmatches.set_reports
  rw [yacSet_accepted henable hargs] at hret
  rcases hret with hret | hret <;> cases hret

end

/-! ## The key argument -/

section

variable (w : World σ) (this : Option PhpString) (key : Zval)

/-- The argument lists of `add` and `set` with this key, and the value and ttl in them. -/
def StoresWith (args : List Zval) (value : Zval) (ttl : Int64) : Prop :=
  args = [key, value] ∧ ttl = 0 ∨
    ∃ given, args = [key, value, given] ∧ yac.engine.parseLong given = some ttl

/-- A storing method reaches its single-key function once, with the printable key, the value
and ttl given, and its add flag. -/
def StoreReaches
    (method : World σ → Option PhpString → List Zval → Locals → Zval × World σ)
    (add : Int32) : Prop :=
  ∀ args value ttl locals, yac.StoresWith key args value ttl →
    (method w this args locals).2.entered = w.entered ++
      [.add (this.getD .empty) (.single (yac.engine.printable key) value ttl.toInt32 add)]

/-- `get` reaches its single-key function once, with the printable key, and returns
the value it gave, or false. -/
def GetReaches : Prop :=
  ∀ args locals, args = [key] ∨ (∃ cas, args = [key, cas]) →
    (yac.yacGet w this args locals).2.entered =
        w.entered ++ [.get (this.getD .empty) (.single (yac.engine.printable key))] ∧
      (yac.yacGet w this args locals).1 =
        (yac.invokeGet w (this.getD .empty) locals.copy
          (.single (yac.engine.printable key))).1.getD (.bool 0)

/-- `delete` reaches its single-key function once, with the printable key and the time
given. -/
def DeleteReaches : Prop :=
  ∀ args time locals,
    args = [key] ∧ time = 0 ∨
      (∃ given, args = [key, given] ∧ yac.engine.parseLong given = some time) →
    ∃ ret next, yac.yacDelete w this args locals = .ok (ret, next) ∧
      next.entered = w.entered ++
        [.delete (this.getD .empty) (.single (yac.engine.printable key) time.toInt32)]

/-- All four methods address the entry of the printable key. -/
structure MethodsAgree : Prop where
  add : yac.StoreReaches w this key yac.yacAdd 1
  set : yac.StoreReaches w this key yac.yacSet 0
  get : yac.GetReaches w this key
  delete : yac.DeleteReaches w this key

variable {yac key}

theorem parseAddArgs_of_storesWith (hkey : ¬ key.isArray) {args : List Zval} {value : Zval}
    {ttl : Int64} (hargs : yac.StoresWith key args value ttl) :
    ∃ parsed, parseAddArgs yac.engine args = .ok parsed ∧ parsed.keys = key ∧
      parsed.value = some value ∧ parsed.ttl = ttl := by
  rcases hargs with ⟨rfl, rfl⟩ | ⟨given, rfl, hlong⟩
  · exact ⟨_, dif_neg hkey, rfl, rfl, rfl⟩
  · simp only [parseAddArgs, hlong]
    exact ⟨_, rfl, rfl, rfl, rfl⟩

theorem yacAdd_storeReaches (henable : yac.enable = true) (hkey : ¬ key.isArray) :
    yac.StoreReaches w this key yac.yacAdd 1 := by
  intro args value ttl locals hargs
  obtain ⟨parsed, hparse, rfl, hvalue, rfl⟩ := parseAddArgs_of_storesWith hkey hargs
  rw [yacAdd_accepted henable hparse, StoreArgs.addCall_single _ hkey hvalue]
  exact yac.invokeAdd_entered w _ _

theorem yacSet_storeReaches (henable : yac.enable = true) (hkey : ¬ key.isArray) :
    yac.StoreReaches w this key yac.yacSet 0 := by
  intro args value ttl locals hargs
  obtain ⟨parsed, hparse, rfl, hvalue, rfl⟩ := parseAddArgs_of_storesWith hkey hargs
  rw [yacSet_accepted henable hparse, parsed.setCall_eq _ locals.copy,
    StoreArgs.addCall_single _ hkey hvalue]
  exact yac.invokeAdd_entered w _ _

theorem yacDeleteImpl_single (w : World σ) (pfx key : PhpString) (ttl : Int32) :
    ∃ next, yac.yacDeleteImpl w pfx (.string key) ttl = .ok next ∧
      next.entered = w.entered := by
  by_cases hlong : KeyTooLong pfx key
  · exact ⟨_, if_pos hlong, rfl⟩
  · exact ⟨_, yac.yacDeleteImpl_string w ttl hlong, rfl⟩

theorem deleteReaches_of_not_array (henable : yac.enable = true) (hkey : ¬ key.isArray) :
    yac.DeleteReaches w this key := by
  intro args time locals hargs
  have hparse : parseTime yac.engine args = some (key, time) := by
    rcases hargs with ⟨rfl, rfl⟩ | ⟨given, rfl, hlong⟩
    · rfl
    · rw [parseTime, hlong]
      rfl
  obtain ⟨next, hdelete, hentered⟩ := yac.yacDeleteImpl_single
    (w.enter (.delete (this.getD .empty) (.single (yac.engine.printable key) time.toInt32)))
    (this.getD .empty) (yac.engine.printable key) time.toInt32
  refine ⟨.bool 1, next, ?_, hentered⟩
  simp only [yacDelete, henable, hparse, Bool.true_eq_false, if_false, if_neg hkey,
    Engine.keyText_eq_printable, invokeDelete, hdelete]

/-- A string key is looked up under whatever the unset copy holds. -/
theorem yacGet_string (henable : yac.enable = true) (str : PhpString) (locals : Locals) :
    (yac.yacGet w this [.string str] locals).2.entered =
      w.entered ++ [.get (this.getD .empty) (.single locals.copy)] := by
  simp only [yacGet, henable, Bool.true_eq_false, if_false]
  exact yac.yacGetImpl_entered (w.enter (.get (this.getD .empty) (.single locals.copy)))
    (this.getD .empty) locals.copy

/-- A key of another type is not looked up, and the result is whatever the unset
variable holds. -/
theorem yacGet_other (henable : yac.enable = true) (hkey : ¬ key.isArray)
    (hstring : ∀ str, key ≠ .string str) (locals : Locals) :
    yac.yacGet w this [key] locals = (locals.ret.getD (.bool 0), w) := by
  cases key with
  | array ht => exact absurd rfl hkey
  | string str => exact absurd rfl (hstring str)
  | _ => simp only [yacGet, henable, Bool.true_eq_false, if_false]

theorem exists_other_string (str : PhpString) : ∃ other : PhpString, other ≠ str := by
  by_cases hempty : str = .empty
  · exact ⟨⟨[0x31], by decide⟩, by rw [hempty]; decide⟩
  · exact ⟨.empty, fun heq => hempty heq.symm⟩

/-- For every key argument that is not an array `add`, `set` and `delete` reach the
entry of the printable key, and `get` does not. -/
theorem methods_agree_never (henable : yac.enable = true) (hkey : ¬ key.isArray) :
    yac.StoreReaches w this key yac.yacAdd 1 ∧ yac.StoreReaches w this key yac.yacSet 0 ∧
      yac.DeleteReaches w this key ∧ ¬ yac.MethodsAgree w this key := by
  refine ⟨yacAdd_storeReaches w this henable hkey, yacSet_storeReaches w this henable hkey,
    deleteReaches_of_not_array w this henable hkey, ?_⟩
  intro hagree
  by_cases hstring : ∃ str, key = .string str
  · obtain ⟨str, rfl⟩ := hstring
    -- the looked-up text is the unset copy, which may differ from any key
    obtain ⟨other, hother⟩ := exists_other_string str
    have hget := (hagree.get [.string str] ⟨other, none⟩ (.inl rfl)).1
    rw [yacGet_string w this henable] at hget
    simp only [List.append_cancel_left_eq, List.cons.injEq, ImplCall.get.injEq,
      GetCall.single.injEq, true_and, and_true] at hget
    exact hother hget
  · have hother : ∀ str, key ≠ .string str := fun str heq => hstring ⟨str, heq⟩
    have hget := (hagree.get [key] ⟨.empty, none⟩ (.inl rfl)).1
    rw [yacGet_other w this henable hkey hother] at hget
    simp at hget

end

end Yac

/-- Unset locals that happen to hold the empty string and the integer 5. -/
def someLocals : Locals := ⟨.empty, some (.long 5)⟩

theorem yacSet_matches_never_stored :
    plainYac.SameCalls freshWorld none [.long 7, .null] someLocals ∧
      plainYac.Reports freshWorld .empty
        (plainYac.yacAdd freshWorld none [.long 7, .null] someLocals) ∧
      ¬ plainYac.SetMatchesAdd freshWorld none [.long 7, .null] someLocals :=
  Yac.yacSet_matches_never rfl rfl

/-- The store takes the value, `add` returns true and `set` returns null. -/
theorem yacSet_returns_null :
    (plainYac.yacAdd freshWorld none [.long 7, .null] someLocals).1 = .bool 1 ∧
      (plainYac.yacSet freshWorld none [.long 7, .null] someLocals).1 = .null ∧
      ¬ plainYac.SetMatchesAdd freshWorld none [.long 7, .null] someLocals := by
  refine ⟨rfl, rfl, ?_⟩
  intro hmatches
  obtain ⟨_, _, _, hret⟩ := hmatches.set_reports
  rcases hret with hret | hret <;> cases hret

theorem methods_agree_never_long :
    plainYac.StoreReaches freshWorld none (.long 7) plainYac.yacAdd 1 ∧
      plainYac.StoreReaches freshWorld none (.long 7) plainYac.yacSet 0 ∧
      plainYac.DeleteReaches freshWorld none (.long 7) ∧
      ¬ plainYac.MethodsAgree freshWorld none (.long 7) :=
  Yac.methods_agree_never freshWorld none rfl (by decide)

/-- The integer key 7 is not looked up and the unset result is returned; the string
key `7` is looked up under the unset copy. -/
theorem yacGet_misses_key :
    (plainYac.yacGet freshWorld none [.long 7] someLocals).2.entered = [] ∧
      (plainYac.yacGet freshWorld none [.long 7] someLocals).1 = .long 5 ∧
      (plainYac.yacGet freshWorld none [.string ⟨[0x37], by decide⟩] someLocals).2.entered =
        [.get .empty (.single .empty)] ∧
      ¬ plainYac.MethodsAgree freshWorld none (.long 7) := by
  refine ⟨rfl, rfl, rfl, ?_⟩
  intro hagree
  have hget := (hagree.get [.long 7] someLocals (.inl rfl)).1
  exact absurd (congrArg List.length hget) (by decide)

end McoWeb.Cache
