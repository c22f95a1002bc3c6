import McoWeb.Cache.LossyStore
import McoWeb.Cache.MethodLaws

/-! # Calls with arrays

An array call is its single-key calls in order: a store stops at the first that
fails, a lookup collects one answer for each element, and a deletion that
completes deletes every element. So every run of calls, of whichever kind, is a
run of single-key calls, and what holds of those holds of the elements of an array.
-/

namespace McoWeb.Cache

open Foundation Storage

/-- The caller's ttl of a deletion. -/
def DeleteCall.ttl : DeleteCall → Int32
  | single _ ttl => ttl
  | multi _ ttl => ttl

/-- The single stores of a call, as single-key calls. -/
def AddCall.singles (pfx : PhpString) (call : AddCall) : List SingleCall :=
  call.elements.map fun element => .add pfx element.1 element.2 call.ttl call.add

/-- The store of one value failed. -/
def SingleAnswer.Failed (answer : SingleAnswer) : Prop := answer = .added 0

namespace Yac

variable {σ : Type} (yac : Yac σ)

/-- A call of an implementation function by a method, as a step of the world. -/
inductive ImplStep : World σ → ImplCall → SingleAnswer → World σ → Prop
  | add (w : World σ) (pfx : PhpString) (call : AddCall) :
      ImplStep w (.add pfx call) (.added (yac.invokeAdd w pfx call).1)
        (yac.invokeAdd w pfx call).2
  | get (w : World σ) (pfx copy : PhpString) (call : GetCall) :
      ImplStep w (.get pfx call) (.got (yac.invokeGet w pfx copy call).1)
        (yac.invokeGet w pfx copy call).2
  | delete (w : World σ) (pfx copy : PhpString) (call : DeleteCall) {next : World σ}
      (hdelete : yac.invokeDelete w pfx copy call = .ok next) :
      ImplStep w (.delete pfx call) .deleted next

/-- The keys that a lookup asks for. -/
def asked : GetCall → List PhpString
  | .single key => [key]
  | .multi keys => yac.texts keys.arrval

/-- The keys that a deletion names. -/
def named : DeleteCall → List PhpString
  | .single key _ => [key]
  | .multi keys _ => yac.texts keys.arrval

/-- The answer of a lookup, from the answers to its keys: an array has an entry for each,
false where nothing was found. -/
def assembled : GetCall → List (Option Zval) → Option Zval
  | .single _, values => values.head?.join
  | .multi keys, values =>
      some (.array (yac.engine.assoc
        ((yac.texts keys.arrval).zip (values.map fun value => value.getD (.bool 0)))))

/-- The single-key calls that a call stands for, with the answer it makes of theirs. -/
inductive Expands : ImplCall → SingleAnswer → List (Event σ SingleCall SingleAnswer) → Prop
  | add {pfx : PhpString} {call : AddCall} {ret : Int32}
      {events : List (Event σ SingleCall SingleAnswer)}
      (hstops : StopsAtFailure SingleAnswer.Failed (call.singles pfx) events)
      (hret : ret ≠ 0 ↔ ∀ e ∈ events, ¬ e.output.Failed) :
      Expands (.add pfx call) (.added ret) events
  | get {pfx : PhpString} {call : GetCall} {values : List (Option Zval)}
      {events : List (Event σ SingleCall SingleAnswer)}
      (hinputs : events.map Event.input = (yac.asked call).map (.get pfx))
      (houtputs : events.map Event.output = values.map .got) :
      Expands (.get pfx call) (.got (yac.assembled call values)) events
  | delete {pfx : PhpString} {call : DeleteCall}
      {events : List (Event σ SingleCall SingleAnswer)}
      (hinputs : events.map Event.input =
        (yac.named call).map fun key => .delete pfx key call.ttl) :
      Expands (.delete pfx call) .deleted events

variable {yac}

theorem invokeAdd_expands (w : World σ) (pfx : PhpString) (call : AddCall) :
    ∃ events, Run yac.SingleStep w.store events (yac.invokeAdd w pfx call).2.store ∧
      yac.Expands (.add pfx call) (.added (yac.invokeAdd w pfx call).1) events := by
  obtain ⟨events, hrun, hstops, hall⟩ := yac.invokeAdd_storesInOrder w pfx call
  have hstep : ∀ s element ret next, yac.SingleStore pfx call.ttl call.add s element ret next →
      yac.SingleStep s.store (.add pfx element.1 element.2 call.ttl call.add) (.added ret)
        next.store := by
    intro s element ret next hstore
    have hsingle := @SingleStep.add σ yac s pfx element.1 element.2 call.ttl call.add
    rwa [show yac.yacAddImpl s pfx element.1 element.2 call.ttl call.add = (ret, next)
      from hstore] at hsingle
  have hfailed : ∀ ret, SingleAnswer.Failed (.added ret) ↔ ret = 0 := by
    intro ret
    simp [SingleAnswer.Failed]
  refine ⟨_, hrun.simulate World.store _ _ hstep, .add (hstops.map _ _ hfailed) ?_⟩
  rw [hall, List.forall_mem_map]
  exact forall₂_congr fun e _ => not_congr (hfailed e.output).symm

theorem yacGetElements_expands (pfx copy : PhpString) (ht : List (HashKey × Zval))
    (w : World σ) :
    ∃ (events : List (Event σ SingleCall SingleAnswer)) (values : List (Option Zval)),
      Run yac.SingleStep w.store events (yac.yacGetElements pfx copy ht w).2.store ∧
        events.map Event.input = (yac.texts ht).map (.get pfx) ∧
        events.map Event.output = values.map .got ∧
        (yac.yacGetElements pfx copy ht w).1 =
          (yac.texts ht).zip (values.map fun value => value.getD (.bool 0)) := by
  induction ht generalizing w with
  | nil => exact ⟨[], [], .nil _, rfl, rfl, rfl⟩
  | cons element rest ih =>
      obtain ⟨index, value⟩ := element
      have hkey := yac.engine.keyText_eq_printable value copy
      obtain ⟨events, values, hrun, hinputs, houtputs, hentries⟩ :=
        ih (yac.yacGetImpl w pfx (yac.engine.keyText value copy)).2
      have hstep := @SingleStep.get σ yac w pfx (yac.engine.keyText value copy)
      refine ⟨_, (yac.yacGetImpl w pfx (yac.engine.keyText value copy)).1 :: values,
        .cons hstep hrun, ?_, ?_, ?_⟩
      · simp only [List.map_cons, hinputs, hkey]
        rfl
      · simp only [List.map_cons, houtputs]
      · simp only [yacGetElements, hentries]
        rw [hkey]
        rfl

theorem deleteEach_expands (pfx : PhpString) (ttl : Int32) (keys : List PhpString)
    {w next : World σ} (hdelete : yac.deleteEach pfx ttl keys w = .ok next) :
    ∃ events : List (Event σ SingleCall SingleAnswer),
      Run yac.SingleStep w.store events next.store ∧
        events.map Event.input = keys.map fun key => .delete pfx key ttl := by
  induction keys generalizing w with
  | nil =>
      obtain rfl := Except.ok.inj hdelete
      exact ⟨[], .nil _, rfl⟩
  | cons key rest ih =>
      obtain ⟨middle, hmiddle, _⟩ := yac.yacDeleteImpl_single w pfx key ttl
      rw [deleteEach_cons key rest hmiddle] at hdelete
      obtain ⟨events, hrun, hinputs⟩ := ih hdelete
      refine ⟨_, .cons (.delete w pfx key ttl hmiddle) hrun, ?_⟩
      simp only [List.map_cons, hinputs]

/-- Every call is the single-key calls it stands for. -/
theorem implStep_expands {w next : World σ} {call : ImplCall} {answer : SingleAnswer}
    (hstep : yac.ImplStep w call answer next) :
    ∃ events, Run yac.SingleStep w.store events next.store ∧ yac.Expands call answer events := by
  cases hstep with
  | add pfx call => exact invokeAdd_expands w pfx call
  | get pfx copy call =>
      cases call with
      | single key =>
          have hstep := @SingleStep.get σ yac (w.enter (.get pfx (.single key))) pfx key
          have hexpands := @Expands.get σ yac pfx (.single key)
            [(yac.invokeGet w pfx copy (.single key)).1]
            [⟨w.store, .get pfx key, .got (yac.invokeGet w pfx copy (.single key)).1⟩] rfl rfl
          exact ⟨_, .cons hstep (.nil _), hexpands⟩
      | multi keys =>
          obtain ⟨events, values, hrun, hinputs, houtputs, hentries⟩ :=
            yacGetElements_expands pfx copy keys.arrval (w.enter (.get pfx (.multi keys)))
          have hanswer : (yac.invokeGet w pfx copy (.multi keys)).1 =
              yac.assembled (.multi keys) values := by
            rw [assembled, ← hentries]
            rfl
          rw [hanswer]
          exact ⟨events, hrun, .get hinputs houtputs⟩
  | delete pfx copy call hdelete =>
      cases call with
      | single key ttl =>
          have hstep := @SingleStep.delete σ yac (w.enter (.delete pfx (.single key ttl))) pfx key
            ttl _ hdelete
          exact ⟨_, .cons hstep (.nil _), .delete rfl⟩
      | multi keys ttl =>
          have hnotRead := yacDeleteElements_notRead hdelete
          have heach := hdelete
          change yac.yacDeleteElements pfx copy ttl keys.arrval _ = _ at heach
          rw [yacDeleteElements_of_notRead hnotRead] at heach
          obtain ⟨events, hrun, hinputs⟩ := deleteEach_expands pfx ttl _ heach
          exact ⟨events, hrun, .delete hinputs⟩

/-- Every run of calls is a run of single-key calls, chunk by chunk. -/
theorem implRun_expands {w last : World σ} {events : List (Event (World σ) ImplCall SingleAnswer)}
    (hrun : Run yac.ImplStep w events last) :
    ∃ chunks, Run yac.SingleStep w.store chunks.flatten last.store ∧
      List.Forall₂ (fun e chunk => yac.Expands e.input e.output chunk) events chunks :=
  hrun.expand World.store (fun e chunk => yac.Expands e.input e.output chunk)
    fun _ _ _ _ hstep => implStep_expands hstep

/-- The values that a call stores are restored by the serializer. -/
def RestoresAll (yac : Yac σ) : ImplCall → Prop
  | .add _ call => ∀ element ∈ call.elements, yac.Restores element.2
  | .get _ _ | .delete _ _ => True

theorem Expands.admissible {safe : σ → Key → Prop} (hsafe : ∀ s key, safe s key)
    {call : ImplCall} {answer : SingleAnswer} {chunk : List (Event σ SingleCall SingleAnswer)}
    (hexpands : yac.Expands call answer chunk) (hrestores : yac.RestoresAll call) :
    ∀ e ∈ chunk, yac.Admissible safe e.before e.input := by
  intro e he
  have hinput : e.input ∈ chunk.map Event.input := List.mem_map_of_mem he
  cases hexpands with
  | @add pfx call ret _ hstops hret =>
      obtain ⟨element, helement, heq⟩ := List.mem_map.mp (hstops.in_order.subset hinput)
      rw [← heq]
      exact hrestores element helement
  | get hinputs houtputs =>
      rw [hinputs] at hinput
      obtain ⟨key, _, heq⟩ := List.mem_map.mp hinput
      rw [← heq]
      exact .inr (hsafe _ _)
  | delete hinputs =>
      rw [hinputs] at hinput
      obtain ⟨key, _, heq⟩ := List.mem_map.mp hinput
      rw [← heq]
      trivial

end Yac

/-- The keys `a` and `c`. -/
def textA : PhpString := ⟨[0x61], by decide⟩

def textC : PhpString := ⟨[0x63], by decide⟩

/-- The array of `a` with the integer 7. -/
def sevenUnderA : Zval := .array [(.string textA, .long 7)]

/-- The array of the keys `a` and `c`. -/
def keysAC : Zval := .array [(.long 0, .string textA), (.long 1, .string textC)]

end McoWeb.Cache
