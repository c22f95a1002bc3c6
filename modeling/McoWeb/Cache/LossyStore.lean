import McoWeb.Cache.DeleteMulti
import McoWeb.Cache.Threshold
import McoWeb.Foundation.LossyMap

/-! # A cache over a store that forgets

The store may refuse an update, drop entries at any time and miss what it holds;
all it promises is to be a lossy map of entries. The single-key functions
make a lossy map of values of it: whatever was lost, a lookup returns what was
stored last under the address it forms, or nothing.
-/

namespace McoWeb.Cache

open Foundation Storage

/-- What a cache needs of its store: seen through the entries it holds, it is a lossy
map from addresses to entries. Lookups need to keep this only where they are
safe. -/
structure LossyStore {σ : Type} (store : Store σ) (contents : σ → Key → Option Fetched)
    (safe : σ → Key → Prop) : Prop where
  update : ∀ (call : UpdateCall) (hsize : call.data.length < 2 ^ 24) (s : σ),
    LossyStep (contents s)
      (if (store.update call s).1 ≠ 0 then .put call.key ⟨call.data, call.flag, hsize⟩ else .idle)
      (contents (store.update call s).2)
  find : ∀ (key : Key) (s : σ), safe s key →
    LossyStep (contents s) ((store.find key s).1.elim .idle (.answer key))
      (contents (store.find key s).2)
  delete : ∀ (key : Key) (ttl : Int32) (s : σ),
    LossyStep (contents s) (if ttl = 0 then .remove key else .idle)
      (contents (store.delete key ttl s))

/-- A call of one of the three single-key functions. -/
inductive SingleCall
  | add (pfx key : PhpString) (value : Zval) (ttl add : Int32)
  | get (pfx key : PhpString)
  | delete (pfx key : PhpString) (ttl : Int32)

/-- The address that a call may write. -/
def SingleCall.writes : SingleCall → Option Key
  | .add pfx key _ _ _ | .delete pfx key _ => some (storageKey pfx key)
  | .get _ _ => none

/-- What the call returns. -/
inductive SingleAnswer
  | added (ret : Int32)
  | got (value : Option Zval)
  | deleted

namespace Yac

variable {σ : Type} (yac : Yac σ)

/-- A single-key call as a step of the store's state, in a world that may have seen
anything before. -/
inductive SingleStep : σ → SingleCall → SingleAnswer → σ → Prop
  | add (w : World σ) (pfx key : PhpString) (value : Zval) (ttl add : Int32) :
      SingleStep w.store (.add pfx key value ttl add)
        (.added (yac.yacAddImpl w pfx key value ttl add).1)
        (yac.yacAddImpl w pfx key value ttl add).2.store
  | get (w : World σ) (pfx key : PhpString) :
      SingleStep w.store (.get pfx key) (.got (yac.yacGetImpl w pfx key).1)
        (yac.yacGetImpl w pfx key).2.store
  | delete (w : World σ) (pfx key : PhpString) (ttl : Int32) {next : World σ}
      (hdelete : yac.yacDeleteImpl w pfx (.string key) ttl = .ok next) :
      SingleStep w.store (.delete pfx key ttl) .deleted next.store

/-- What a reader gets for a value stored under the threshold. -/
def readBack (value : Zval) : Zval :=
  if overLimit yac.compressThreshold (yac.payloadLength value) then value.uncompressed else value

/-- The serializer restores the value. -/
def Restores (value : Zval) : Prop :=
  ∀ bytes, yac.serializer.pack value = some bytes → yac.serializer.unpack bytes = some value

/-- What an entry is read as. -/
def decoded (s : σ) (found : Fetched) : Option Zval :=
  (yac.decodeEntry ⟨s, [], [], []⟩ found).1

/-- A call as an event of the map from addresses to values. -/
def observe : SingleCall → SingleAnswer → MapEvent Key Zval
  | .add pfx key value _ _, .added ret =>
      if ret ≠ 0 then .put (storageKey pfx key) (yac.readBack value) else .idle
  | .get pfx key, .got value => value.elim .idle (.answer (storageKey pfx key))
  | .delete pfx key ttl, .deleted =>
      if ¬ KeyTooLong pfx key ∧ ttl = 0 then .remove (storageKey pfx key) else .idle
  | _, _ => .idle

/-- The serializer restores what is stored, and lookups are made where they are
safe. -/
def Admissible (safe : σ → Key → Prop) (s : σ) : SingleCall → Prop
  | .add _ _ value _ _ => yac.Restores value
  | .get pfx key => KeyTooLong pfx key ∨ safe s (storageKey pfx key)
  | .delete _ _ _ => True

theorem writes_of_observe {call : SingleCall} {answer : SingleAnswer} {address : Key}
    (hwrites : (yac.observe call answer).Writes address) : call.writes = some address := by
  unfold observe at hwrites
  split at hwrites
  next pfx key value ttl add ret =>
    split at hwrites
    next => exact congrArg some hwrites
    next => exact hwrites.elim
  next pfx key value => cases value <;> exact hwrites.elim
  next pfx key ttl =>
    split at hwrites
    next => exact congrArg some hwrites
    next => exact hwrites.elim
  next => exact hwrites.elim

theorem decodeEntry_store (w : World σ) (found : Fetched) :
    (yac.decodeEntry w found).2.store = w.store := by
  rcases yac.decodeEntry_world w found with hworld | ⟨warning, hworld⟩
  · rw [hworld]
  · rw [hworld]
    rfl

theorem decodeEntry_answer (w w' : World σ) (found : Fetched) :
    (yac.decodeEntry w found).1 = (yac.decodeEntry w' found).1 := by
  have hunpack : ∀ data, (yac.unpackData w data).1 = (yac.unpackData w' data).1 := by
    intro data
    unfold unpackData
    split <;> rfl
  unfold decodeEntry
  dsimp only
  repeat' split
  all_goals first | rfl | exact hunpack _

/-- What an entry is read as does not depend on the store. -/
theorem decoded_congr (s s' : σ) : yac.decoded s = yac.decoded s' := by
  funext found
  exact yac.decodeEntry_answer _ _ found

/-- What a single-key call does to the store: nothing, or the one call of it that the
answer is made of. -/
inductive SingleEffect (s : σ) : SingleCall → SingleAnswer → σ → Prop
  | notStored {pfx key : PhpString} {value : Zval} {ttl add : Int32} :
      SingleEffect s (.add pfx key value ttl add) (.added 0) s
  | update {pfx key : PhpString} {value : Zval} {ttl add : Int32} {stored : UpdateCall}
      (hkey : stored.key = storageKey pfx key)
      (hencodes : yac.Encodes value stored.data stored.flag) :
      SingleEffect s (.add pfx key value ttl add) (.added (yac.store.update stored s).1)
        (yac.store.update stored s).2
  | notFound {pfx key : PhpString} (hlong : KeyTooLong pfx key) :
      SingleEffect s (.get pfx key) (.got none) s
  | find {pfx key : PhpString} (haccepted : ¬ KeyTooLong pfx key) :
      SingleEffect s (.get pfx key)
        (.got ((yac.store.find (storageKey pfx key) s).1.bind (yac.decoded s)))
        (yac.store.find (storageKey pfx key) s).2
  | notDeleted {pfx key : PhpString} {ttl : Int32} (hlong : KeyTooLong pfx key) :
      SingleEffect s (.delete pfx key ttl) .deleted s
  | delete {pfx key : PhpString} {ttl : Int32} (haccepted : ¬ KeyTooLong pfx key) :
      SingleEffect s (.delete pfx key ttl) .deleted
        (yac.store.delete (storageKey pfx key) ttl s)

theorem yacGetImpl_effect (w : World σ) {pfx key : PhpString} (haccepted : ¬ KeyTooLong pfx key) :
    (yac.yacGetImpl w pfx key).1 =
        (yac.store.find (storageKey pfx key) w.store).1.bind (yac.decoded w.store) ∧
      (yac.yacGetImpl w pfx key).2.store = (yac.store.find (storageKey pfx key) w.store).2 := by
  rw [yacGetImpl, if_neg haccepted]
  cases hfind : (yac.store.find (storageKey pfx key) w.store).1 with
  | none =>
      simp only [yacStorageFind, hfind]
      exact ⟨rfl, trivial⟩
  | some found =>
      simp only [yacStorageFind, hfind]
      exact ⟨yac.decodeEntry_answer _ _ found, yac.decodeEntry_store _ found⟩

theorem SingleStep.effect {s next : σ} {call : SingleCall} {answer : SingleAnswer}
    (hstep : yac.SingleStep s call answer next) : yac.SingleEffect s call answer next := by
  cases hstep with
  | add w pfx key value ttl add =>
      have houtcome := yacAddImpl_outcome yac w pfx key value ttl add
      generalize yac.yacAddImpl w pfx key value ttl add = result at houtcome
      cases houtcome with
      | refused warning => exact .notStored
      | @scalar data flag _ _ hencodes =>
          exact @SingleEffect.update _ _ _ _ _ _ _ _
            ⟨storageKey pfx key, data, flag, add, ttl⟩ rfl hencodes
      | @sized data flag _ _ hencodes =>
          exact @SingleEffect.update _ _ _ _ _ _ _ _
            ⟨storageKey pfx key, data, flag, ttl, add⟩ rfl hencodes
  | get w pfx key =>
      by_cases hlong : KeyTooLong pfx key
      · rw [yacGetImpl, if_pos hlong]
        exact .notFound hlong
      · obtain ⟨hanswer, hstore⟩ := yac.yacGetImpl_effect w hlong
        rw [hanswer, hstore]
        exact .find hlong
  | delete w pfx key ttl hdelete =>
      by_cases hlong : KeyTooLong pfx key
      · rw [yacDeleteImpl_too_long yac w ttl (.string key) hlong] at hdelete
        obtain rfl := Except.ok.inj hdelete
        exact .notDeleted hlong
      · rw [yac.yacDeleteImpl_string w ttl hlong] at hdelete
        obtain rfl := Except.ok.inj hdelete
        exact .delete hlong

/-- A lookup that returns something was made under an accepted key. -/
theorem singleStep_got_accepted {s next : σ} {pfx key : PhpString} {value : Zval}
    (hstep : yac.SingleStep s (.get pfx key) (.got (some value)) next) :
    ¬ KeyTooLong pfx key := by
  have heffect := hstep.effect
  generalize hanswer : SingleAnswer.got (some value) = answer at heffect
  cases heffect with
  | notFound => cases hanswer
  | find haccepted => exact haccepted

variable {yac}

theorem readBack_of_plain {value : Zval} (hplain : ¬ value.IsConstant) :
    yac.readBack value = value := Zval.ite_uncompressed hplain _

/-- Every entry of a value is read as the value, but for compressed constants. -/
theorem decoded_of_encodes (hlz : yac.fastlz.Undoes) {value : Zval} (hser : yac.Restores value)
    {found : Fetched} (hencodes : yac.Encodes value found.data found.flag) (s : σ) :
    yac.decoded s found = some (yac.readBack value) := by
  have hplain : value.Data → yac.decoded s found = some value := by
    intro hdata
    rw [decoded, decodeEntry_of_encodes hlz hser hdata hencodes]
  have hsized : value.Sized → yac.decoded s found = some (yac.readBack value) := by
    intro hsized
    rw [decoded, decodeEntry_sized hlz hser hsized hencodes]
    rfl
  have hstorable := hencodes.storable
  cases value with
  | null => rw [hplain trivial, readBack_of_plain id]
  | bool lval => rw [hplain trivial, readBack_of_plain id]
  | long lval => rw [hplain trivial, readBack_of_plain id]
  | double dval => rw [hplain trivial, readBack_of_plain id]
  | string str => exact hsized trivial
  | constant name => exact hsized trivial
  | array ht => exact hsized trivial
  | constantArray ht => exact hsized trivial
  | object ce properties => exact hsized trivial
  | resource handle => exact hstorable.elim
  | other type unlisted member => exact hstorable.elim

variable (yac) in
/-- The entries of a store's state as the values they are read as. -/
def view (contents : σ → Key → Option Fetched) (s : σ) : Key → Option Zval :=
  readMap (yac.decoded s) (contents s)

section

variable {contents : σ → Key → Option Fetched} {safe : σ → Key → Prop}

variable (yac) in
/-- A step of the store's entries is a step of the values. -/
theorem view_step {s next : σ} {event : MapEvent Key Fetched}
    (hstep : LossyStep (contents s) event (contents next)) :
    LossyStep (yac.view contents s) (event.through (yac.decoded s)) (yac.view contents next) := by
  rw [view, view, yac.decoded_congr next s]
  exact hstep.through (yac.decoded s)

theorem view_idle (s : σ) : LossyStep (yac.view contents s) .idle (yac.view contents s) :=
  .of_within (.refl _)

/-- An update as an event of the values: a put of the value that its entry stands for. -/
theorem updateEvent_through (hlz : yac.fastlz.Undoes) {value : Zval} (hser : yac.Restores value)
    {stored : UpdateCall} (hencodes : yac.Encodes value stored.data stored.flag)
    (hsize : stored.data.length < 2 ^ 24) (s : σ) (ret : Int32) :
    (if ret ≠ 0 then MapEvent.put stored.key (⟨stored.data, stored.flag, hsize⟩ : Fetched)
        else .idle).through (yac.decoded s) =
      if ret ≠ 0 then .put stored.key (yac.readBack value) else .idle := by
  have hdecoded := @decoded_of_encodes σ yac hlz value hser ⟨stored.data, stored.flag, hsize⟩
    hencodes s
  split
  next => rw [MapEvent.through, hdecoded, Option.elim_some]
  next => rfl

/-- A deletion says the same of entries and values. -/
theorem deleteEvent_through (key : Key) (ttl : Int32) (s : σ) :
    (if ttl = 0 then MapEvent.remove key else .idle).through (yac.decoded s) =
      if ttl = 0 then .remove key else .idle := by
  split <;> rfl

theorem observe_delete {pfx key : PhpString} (haccepted : ¬ KeyTooLong pfx key) (ttl : Int32) :
    yac.observe (.delete pfx key ttl) .deleted =
      if ttl = 0 then .remove (storageKey pfx key) else .idle := by
  simp [observe, haccepted]

variable (hstore : LossyStore yac.store contents safe) (hlz : yac.fastlz.Undoes)

include hstore hlz

/-- Storing, looking up and deleting a key are steps of a lossy map of values. -/
theorem singleStep_lossy {s next : σ} {call : SingleCall} {answer : SingleAnswer}
    (hadmissible : yac.Admissible safe s call) (hstep : yac.SingleStep s call answer next) :
    LossyStep (yac.view contents s) (yac.observe call answer) (yac.view contents next) := by
  cases hstep.effect with
  | notStored => exact view_idle s
  | @update pfx key value ttl add stored hkey hencodes =>
      have hsize : stored.data.length < 2 ^ 24 :=
        Nat.lt_of_le_of_lt hencodes.length_le (by decide)
      have hstep := view_step yac (hstore.update stored hsize s)
      rw [updateEvent_through hlz hadmissible hencodes, hkey] at hstep
      exact hstep
  | notFound hlong => exact view_idle s
  | @find pfx key haccepted =>
      have hstep := view_step yac (hstore.find _ s (hadmissible.resolve_left haccepted))
      cases hfind : (yac.store.find (storageKey pfx key) s).1 with
      | none =>
          rw [hfind] at hstep
          exact hstep
      | some found =>
          rw [hfind] at hstep
          exact hstep
  | @notDeleted pfx key ttl hlong =>
      rw [observe, if_neg fun hcond => hcond.1 hlong]
      exact view_idle s
  | @delete pfx key ttl haccepted =>
      have hstep := view_step yac (hstore.delete (storageKey pfx key) ttl s)
      rw [deleteEvent_through] at hstep
      rw [observe_delete haccepted]
      exact hstep

/-- What a lookup of a run returns was put last, or was there and not written. -/
theorem lossyRun_answer {s last : σ} {events pre post : List (Event σ SingleCall SingleAnswer)}
    (hrun : Run yac.SingleStep s events last)
    (hadmissible : ∀ e ∈ events, yac.Admissible safe e.before e.input)
    {e : Event σ SingleCall SingleAnswer} {pfx key : PhpString} {value : Zval}
    (hevents : events = pre ++ e :: post) (hinput : e.input = .get pfx key)
    (houtput : e.output = .got (some value)) :
    LastPut (Run.mapEvents yac.observe pre) (storageKey pfx key) value ∨
      yac.view contents s (storageKey pfx key) = some value ∧
        Untouched (Run.mapEvents yac.observe pre) (storageKey pfx key) := by
  have hlossy : ∀ t call answer next,
      (yac.Admissible safe t call ∧ yac.SingleStep t call answer next) →
        LossyStep (yac.view contents t) (yac.observe call answer) (yac.view contents next) :=
    fun t call answer next hguard => singleStep_lossy hstore hlz hguard.1 hguard.2
  refine (hrun.guarded (yac.Admissible safe) hadmissible).answer_lastPut hlossy hevents ?_
  rw [hinput, houtput]
  rfl

/-- In any run of single-key calls over a lossy store, with whatever it loses in between,
a lookup that returns a value returns what was stored last under its address, or
what was there at the beginning if no call of the run has written the address. -/
theorem singleRun_lastPut {s last : σ} {events : List (Event σ SingleCall SingleAnswer)}
    (hrun : Run yac.SingleStep s events last)
    (hadmissible : ∀ e ∈ events, yac.Admissible safe e.before e.input) :
    ∀ (pre post : List (Event σ SingleCall SingleAnswer)) (e : Event σ SingleCall SingleAnswer)
      (pfx key : PhpString) (value : Zval), events = pre ++ e :: post →
      e.input = .get pfx key → e.output = .got (some value) →
      ¬ KeyTooLong pfx key ∧
        (LastPut (Run.mapEvents yac.observe pre) (storageKey pfx key) value ∨
          yac.view contents s (storageKey pfx key) = some value ∧
            Untouched (Run.mapEvents yac.observe pre) (storageKey pfx key)) := by
  intro pre post e pfx key value hevents hinput houtput
  refine ⟨?_, lossyRun_answer hstore hlz hrun hadmissible hevents hinput houtput⟩
  obtain ⟨next, hstep⟩ := hrun.exists_next e (by simp [hevents])
  rw [hinput, houtput] at hstep
  exact yac.singleStep_got_accepted hstep

end

end Yac

/-- A store in memory that loses nothing. -/
def memoryStore : Store (Key → Option Fetched) where
  update call m :=
    if hsize : call.data.length < 2 ^ 24 then
      (1, Function.update m call.key (some ⟨call.data, call.flag, hsize⟩))
    else (0, m)
  find key m := (m key, m)
  delete key ttl m := if ttl = 0 then Function.update m key none else m

theorem memoryStore_lossy : LossyStore memoryStore (fun m => m) (fun _ _ => True) where
  update call hsize m := by
    have hupdate : memoryStore.update call m =
        (1, Function.update m call.key (some ⟨call.data, call.flag, hsize⟩)) := dif_pos hsize
    rw [hupdate, if_pos (show (1 : Int32) ≠ 0 by decide)]
    exact .put m _ _
  find key m _ := by
    change LossyStep m ((m key).elim .idle (.answer key)) m
    cases hfind : m key with
    | none => exact .of_within (.refl m)
    | some found => exact .answer hfind (.refl m)
  delete key ttl m := by
    by_cases httl : ttl = 0
    · rw [if_pos httl, show memoryStore.delete key ttl m = _ from if_pos httl]
      exact .remove m key
    · rw [if_neg httl, show memoryStore.delete key ttl m = _ from if_neg httl]
      exact .of_within (.refl m)

/-- A module over the store in memory. -/
def memoryYac : Yac (Key → Option Fetched) :=
  ⟨true, 1024, plainYac.engine, plainYac.fastlz, plainYac.serializer, memoryStore⟩

theorem memoryYac_undoes : memoryYac.fastlz.Undoes := fun _ hne => absurd rfl hne

/-- A world around the store in memory. -/
def memoryWorld (m : Key → Option Fetched) : World (Key → Option Fetched) := ⟨m, [], [], []⟩

/-- The store in memory after the integer 7 was stored under the empty key. -/
def sevenStored : Key → Option Fetched :=
  (memoryYac.yacAddImpl (memoryWorld fun _ => none) .empty .empty (.long 7) 0 0).2.store

theorem memoryYac_restores (value : Zval) : memoryYac.Restores value := by
  intro bytes hpack
  cases hpack

/-- The integer is looked up twice after it was stored. -/
theorem singleRun_lastPut_seven :
    ∃ events last, Run memoryYac.SingleStep (fun _ => none) events last ∧
      events.map Event.output = [.added 1, .got (some (.long 7)), .got (some (.long 7))] ∧
      ¬ KeyTooLong .empty .empty ∧
        (LastPut (Run.mapEvents memoryYac.observe (events.take 2)) (storageKey .empty .empty)
            (.long 7) ∨
          memoryYac.view (fun m => m) (fun _ => none) (storageKey .empty .empty) =
              some (.long 7) ∧
            Untouched (Run.mapEvents memoryYac.observe (events.take 2))
              (storageKey .empty .empty)) := by
  have hadd := @Yac.SingleStep.add _ memoryYac (memoryWorld fun _ => none) .empty .empty (.long 7)
    0 0
  have hget := @Yac.SingleStep.get _ memoryYac (memoryWorld sevenStored) .empty .empty
  have hrun := Run.cons hadd (.cons hget (.cons hget (.nil _)))
  refine ⟨_, _, hrun, rfl, ?_⟩
  refine Yac.singleRun_lastPut memoryStore_lossy memoryYac_undoes hrun ?_ _ [] _ .empty .empty
    (.long 7) rfl rfl rfl
  intro e he
  simp only [List.mem_cons, List.not_mem_nil, or_false] at he
  rcases he with rfl | rfl | rfl
  · exact memoryYac_restores _
  · exact .inr trivial
  · exact .inr trivial

end McoWeb.Cache
