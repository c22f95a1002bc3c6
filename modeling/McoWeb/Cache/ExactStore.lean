import McoWeb.Cache.ArrayCalls

/-! # A cache over a store that forgets nothing

Where the store keeps what it accepts, the cache is a map: a lookup returns what was stored
last under its address, and nothing only where nothing is there. So an array that was
stored is read back as it was, whatever else is stored and deleted in between.
-/

namespace McoWeb.Cache

open Foundation Storage

/-- A store that keeps every entry until it is written or deleted. -/
structure ExactStore {σ : Type} (store : Store σ) (contents : σ → Key → Option Fetched) :
    Prop where
  update : ∀ (call : UpdateCall) (hsize : call.data.length < 2 ^ 24) (s : σ),
    contents (store.update call s).2 =
      (if (store.update call s).1 ≠ 0 then MapEvent.put call.key ⟨call.data, call.flag, hsize⟩
        else .idle).apply (contents s)
  find : ∀ (key : Key) (s : σ),
    (store.find key s).1 = contents s key ∧ contents (store.find key s).2 = contents s
  delete : ∀ (key : Key) (ttl : Int32) (s : σ),
    contents (store.delete key ttl s) =
      (if ttl = 0 then MapEvent.remove key else .idle).apply (contents s)

namespace Yac

variable {σ : Type} {yac : Yac σ} {contents : σ → Key → Option Fetched}

/-- The values that a call stores are restored by the serializer. -/
abbrev Restorable (yac : Yac σ) (e : Event σ SingleCall SingleAnswer) : Prop :=
  yac.Admissible (fun _ _ => True) e.before e.input

theorem view_apply {s next : σ} {event : MapEvent Key Fetched}
    (hcontents : contents next = event.apply (contents s)) :
    yac.view contents next = (event.through (yac.decoded s)).apply (yac.view contents s) := by
  rw [view, view, yac.decoded_congr next s, hcontents, MapEvent.readMap_apply]

/-- Looking something up changes no value. -/
theorem observe_get_apply (pfx key : PhpString) (value : Option Zval) (m : Key → Option Zval) :
    (yac.observe (.get pfx key) (.got value)).apply m = m := by
  cases value <;> rfl

variable (hstore : ExactStore yac.store contents) (hlz : yac.fastlz.Undoes)

include hstore hlz

/-- Storing, looking up and deleting a key are steps of a map of values. -/
theorem singleStep_exact {s next : σ} {call : SingleCall} {answer : SingleAnswer}
    (hrestorable : yac.Admissible (fun _ _ => True) s call)
    (hstep : yac.SingleStep s call answer next) :
    yac.view contents next = (yac.observe call answer).apply (yac.view contents s) := by
  cases hstep.effect with
  | notStored => rfl
  | @update pfx key value ttl add stored hkey hencodes =>
      have hsize : stored.data.length < 2 ^ 24 :=
        Nat.lt_of_le_of_lt hencodes.length_le (by decide)
      rw [view_apply (hstore.update stored hsize s),
        updateEvent_through hlz hrestorable hencodes, hkey]
      rfl
  | notFound hlong => rfl
  | find haccepted =>
      rw [observe_get_apply, view, yac.decoded_congr _ s, (hstore.find _ s).2]
      rfl
  | notDeleted hlong =>
      rw [observe, if_neg fun hcond => hcond.1 hlong]
      rfl
  | delete haccepted =>
      rw [view_apply (hstore.delete _ _ s), deleteEvent_through, observe_delete haccepted]

omit hlz in
/-- A lookup under an accepted key returns what is there. -/
theorem singleStep_got {s next : σ} {pfx key : PhpString} {answer : SingleAnswer}
    (hstep : yac.SingleStep s (.get pfx key) answer next) :
    answer = .got (if KeyTooLong pfx key then none
      else yac.view contents s (storageKey pfx key)) := by
  cases hstep.effect with
  | notFound hlong => rw [if_pos hlong]
  | find haccepted =>
      rw [if_neg haccepted, (hstore.find _ s).1]
      rfl

theorem singleRun_view {s last : σ} {events : List (Event σ SingleCall SingleAnswer)}
    (hrun : Run yac.SingleStep s events last) (hrestorable : ∀ e ∈ events, yac.Restorable e) :
    yac.view contents last = replay (yac.view contents s) (Run.mapEvents yac.observe events) :=
  (hrun.guarded (yac.Admissible fun _ _ => True) hrestorable).contents_replay
    fun _ _ _ _ hguard => singleStep_exact hstore hlz hguard.1 hguard.2

omit hlz in
/-- Lookups in a row return what is there. -/
theorem getRun_outputs {s last : σ} {events : List (Event σ SingleCall SingleAnswer)}
    {pfx : PhpString} (hrun : Run yac.SingleStep s events last) {texts : List PhpString}
    (hinputs : events.map Event.input = texts.map (.get pfx)) :
    events.map Event.output = texts.map fun text =>
      .got (if KeyTooLong pfx text then none else yac.view contents s (storageKey pfx text)) := by
  induction hrun generalizing texts with
  | nil s =>
      obtain rfl := List.map_eq_nil_iff.mp hinputs.symm
      rfl
  | @cons s next last input output events hstep _ ih =>
      obtain ⟨text, rest, rfl, hinput, hrest⟩ := List.map_eq_cons_iff.mp hinputs.symm
      obtain rfl : SingleCall.get pfx text = input := hinput
      have hview : yac.view contents next = yac.view contents s := by
        cases hstep.effect with
        | notFound => rfl
        | find =>
            rw [view, yac.decoded_congr _ s, (hstore.find _ s).2]
            rfl
      rw [List.map_cons, List.map_cons, singleStep_got hstore hstep, ih hrest.symm, hview]

omit hstore hlz

theorem untouched_of_writes {events : List (Event σ SingleCall SingleAnswer)} {address : Key}
    (hkept : ∀ e ∈ events, e.input.writes ≠ some address) :
    Untouched (Run.mapEvents yac.observe events) address := by
  intro event hevent hwrites
  obtain ⟨e, he, rfl⟩ := List.mem_map.mp hevent
  exact hkept e he (yac.writes_of_observe hwrites)

/-- Of elements with addresses of their own, stored one after the other, each is the last that
was put under its address. -/
theorem lastPut_of_stored {pfx : PhpString} {ttl add : Int32} {s last : σ}
    {events : List (Event σ SingleCall SingleAnswer)} (hrun : Run yac.SingleStep s events last)
    {elements : List (PhpString × Zval)}
    (hinputs : events.map Event.input =
      elements.map fun element => .add pfx element.1 element.2 ttl add)
    (hstored : ∀ e ∈ events, ¬ e.output.Failed)
    (hdistinct : (elements.map fun element => storageKey pfx element.1).Nodup)
    {element : PhpString × Zval} (helement : element ∈ elements) :
    LastPut (Run.mapEvents yac.observe events) (storageKey pfx element.1)
      (yac.readBack element.2) := by
  induction hrun generalizing elements with
  | nil s =>
      obtain rfl := List.map_eq_nil_iff.mp hinputs.symm
      cases helement
  | @cons s next last input output events hstep _ ih =>
      obtain ⟨first, rest, rfl, hinput, hrest⟩ := List.map_eq_cons_iff.mp hinputs.symm
      obtain rfl : SingleCall.add pfx first.1 first.2 ttl add = input := hinput
      obtain ⟨hown, hdistinct'⟩ := List.nodup_cons.mp hdistinct
      obtain ⟨hfirst, hothers⟩ := List.forall_mem_cons.mp hstored
      refine lastPut_cons.mpr ?_
      rcases List.mem_cons.mp helement with rfl | helement
      · refine .inr ⟨?_, untouched_of_writes fun e he => ?_⟩
        · cases hstep.effect with
          | notStored => exact absurd rfl hfirst
          | update => exact if_pos fun hret => hfirst (congrArg SingleAnswer.added hret)
        · have hmem : e.input ∈ events.map Event.input := List.mem_map_of_mem he
          rw [← hrest] at hmem
          obtain ⟨other, hother, heq⟩ := List.mem_map.mp hmem
          rw [← heq]
          exact fun hsame => hown (List.mem_map.mpr ⟨other, hother, Option.some.inj hsame⟩)
      · exact .inl (ih hrest.symm hothers hdistinct' helement)

variable (yac) in
/-- The addresses that a call may write. -/
def writes : ImplCall → List Key
  | .add pfx call => call.elements.map fun element => storageKey pfx element.1
  | .delete pfx call => (yac.named call).map (storageKey pfx)
  | .get _ _ => []

theorem Expands.writes {call : ImplCall} {answer : SingleAnswer}
    {chunk : List (Event σ SingleCall SingleAnswer)} (hexpands : yac.Expands call answer chunk) :
    ∀ e ∈ chunk, ∀ address, e.input.writes = some address → address ∈ yac.writes call := by
  intro e he address haddress
  have hinput : e.input ∈ chunk.map Event.input := List.mem_map_of_mem he
  cases hexpands with
  | add hstops _ =>
      obtain ⟨element, helement, heq⟩ := List.mem_map.mp (hstops.in_order.subset hinput)
      rw [← heq] at haddress
      exact List.mem_map.mpr ⟨element, helement, Option.some.inj haddress⟩
  | get hinputs _ =>
      rw [hinputs] at hinput
      obtain ⟨key, _, heq⟩ := List.mem_map.mp hinput
      rw [← heq] at haddress
      cases haddress
  | delete hinputs =>
      rw [hinputs] at hinput
      obtain ⟨key, hkey, heq⟩ := List.mem_map.mp hinput
      rw [← heq] at haddress
      exact List.mem_map.mpr ⟨key, hkey, Option.some.inj haddress⟩

/-- Readers print the keys of an array without negative ones as the writer does. -/
theorem texts_of_keys {kvs keys : Zval} (hnonneg : NoNegativeIndex kvs.arrval)
    (hkeys : keys.arrval.map Prod.snd = kvs.arrval.map fun element => element.1.zval) :
    yac.texts keys.arrval = kvs.elements.map Prod.fst := by
  have htexts : yac.texts keys.arrval =
      (keys.arrval.map Prod.snd).map yac.engine.printable := by
    rw [List.map_map]
    rfl
  rw [htexts, hkeys, List.map_map, Zval.elements, List.map_map]
  refine List.map_congr_left ?_
  rintro ⟨index, value⟩ hmem
  cases index with
  | string key => rfl
  | long idx => exact ((HashKey.text_long_iff yac.engine idx).mpr (hnonneg idx value hmem)).symm

end Yac

/-- The store in memory forgets nothing. -/
theorem memoryStore_exact : ExactStore memoryStore fun m => m where
  update call hsize m := by
    have hupdate : memoryStore.update call m =
        (1, Function.update m call.key (some ⟨call.data, call.flag, hsize⟩)) := dif_pos hsize
    rw [hupdate, if_pos (show (1 : Int32) ≠ 0 by decide)]
    rfl
  find key m := ⟨rfl, rfl⟩
  delete key ttl m := by
    by_cases httl : ttl = 0
    · rw [if_pos httl]
      exact if_pos httl
    · rw [if_neg httl]
      exact if_neg httl

/-- The store after an array of one element was stored, and another key after it. -/
def sevenThenC : World (Key → Option Fetched) :=
  (memoryYac.invokeAdd (memoryYac.invokeAdd (memoryWorld fun _ => none) .empty
    (.multi sevenUnderA 0 0)).2 .empty (.single textC (.long 1) 0 0)).2

end McoWeb.Cache
