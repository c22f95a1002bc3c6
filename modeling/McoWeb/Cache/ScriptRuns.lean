import McoWeb.Cache.Script

/-! # Runs of scripts

In any run of any scripts the store receives nothing but well-formed requests, each from
a call of its kind and under the prefix of the call's object, and nothing at all
while the cache is disabled. And what a script reads was stored after the last flush.
-/

namespace McoWeb.Cache

open Foundation Storage

variable {σ : Type}

/-- The call of an implementation function that a method makes under a prefix, with what the
method returns for its answer. -/
inductive Makes (pfx : PhpString) : ScriptCall → Zval → ImplCall → SingleAnswer → Prop
  | add {this : Option Nat} {args : List Zval} {locals : Locals} {call : AddCall} {ret : Int32} :
      Makes pfx (.add this args locals) (.bool (if ret ≠ 0 then 1 else 0)) (.add pfx call)
        (.added ret)
  | set {this : Option Nat} {args : List Zval} {locals : Locals} {call : AddCall} {ret : Int32} :
      Makes pfx (.set this args locals) .null (.add pfx call) (.added ret)
  | get {this : Option Nat} {args : List Zval} {locals : Locals} {call : GetCall}
      {value : Option Zval} :
      Makes pfx (.get this args locals) (value.getD (.bool 0)) (.get pfx call) (.got value)
  | delete {this : Option Nat} {args : List Zval} {locals : Locals} {call : DeleteCall} :
      Makes pfx (.delete this args locals) (.bool 1) (.delete pfx call) .deleted

/-- A call leaves the store alone and asks nothing of it. -/
structure Quiet (w w' : World σ) : Prop where
  store : w'.store = w.store
  requests : w'.requests = w.requests

theorem World.refuse_quiet (w : World σ) (warning : Option String) :
    Quiet w (w.refuse warning) := by
  cases warning <;> exact ⟨rfl, rfl⟩

namespace Script.Step

variable {yac : Yac σ} {host : Host σ} {s next : Script σ} {call : ScriptCall} {ret : Zval}

/-- Every call but a flush leaves the store alone, or makes one call of an implementation
function under the prefix of its object. -/
theorem quiet_or_makes (hstep : Step yac host s call ret next)
    (hflush : ∀ this, call ≠ .flush this) :
    Quiet s.world next.world ∨ ∃ impl answer, Makes (s.pfx call) call ret impl answer ∧
      yac.ImplStep s.world impl answer next.world := by
  cases hstep with
  | construct handle args => exact .inl ⟨rfl, rfl⟩
  | add args locals hthis =>
      unfold Yac.yacAdd
      split
      next => exact .inl ⟨rfl, rfl⟩
      next =>
        split
        next warning _ => exact .inl (s.world.refuse_quiet warning)
        next parsed _ =>
          exact .inr ⟨_, _, .add, .add s.world _ (parsed.addCall yac.engine locals.copy)⟩
  | set args locals hthis =>
      unfold Yac.yacSet
      split
      next => exact .inl ⟨rfl, rfl⟩
      next =>
        split
        next warning _ => exact .inl (s.world.refuse_quiet warning)
        next parsed _ =>
          exact .inr ⟨_, _, .set, .add s.world _ (parsed.setCall yac.engine locals.copy)⟩
  | get args locals hthis =>
      unfold Yac.yacGet
      split
      next => exact .inl ⟨rfl, rfl⟩
      next =>
        split
        next keys =>
          cases keys with
          | array ht =>
              dsimp only
              exact .inr ⟨_, _, .get, .get s.world _ locals.copy (.multi (.array ht))⟩
          | string str => exact .inr ⟨_, _, .get, .get s.world _ locals.copy (.single _)⟩
          | _ => exact .inl ⟨rfl, rfl⟩ -- no other type is looked up
        next keys cas =>
          cases keys with
          | array ht =>
              dsimp only
              exact .inr ⟨_, _, .get, .get s.world _ locals.copy (.multi (.array ht))⟩
          | string str => exact .inr ⟨_, _, .get, .get s.world _ locals.copy (.single _)⟩
          | _ => exact .inl ⟨rfl, rfl⟩
        next => exact .inl ⟨rfl, rfl⟩
  | delete args locals hthis hdelete =>
      unfold Yac.yacDelete at hdelete
      split at hdelete
      next =>
        obtain ⟨rfl, rfl⟩ := Prod.mk.inj (Except.ok.inj hdelete)
        exact .inl ⟨rfl, rfl⟩
      next =>
        split at hdelete
        next =>
          obtain ⟨rfl, rfl⟩ := Prod.mk.inj (Except.ok.inj hdelete)
          exact .inl ⟨rfl, rfl⟩
        next keys time _ =>
          dsimp only at hdelete
          split at hdelete
          next => cases hdelete
          next w hinvoke =>
            obtain ⟨rfl, rfl⟩ := Prod.mk.inj (Except.ok.inj hdelete)
            exact .inr ⟨_, _, .delete, .delete s.world _ locals.copy _ hinvoke⟩
  | flush hthis => exact absurd rfl (hflush _)
  | info hthis => exact .inl ⟨rfl, rfl⟩

/-- A disabled cache does nothing and answers false. -/
theorem disabled (henable : yac.enable = false) (hstep : Step yac host s call ret next) :
    next.world = s.world ∧ (ret = .bool 0 ∨ ∃ handle args, call = .construct handle args) := by
  cases hstep with
  | construct handle args => exact ⟨rfl, .inr ⟨handle, args, rfl⟩⟩
  | add args locals hthis =>
      rw [Yac.yacAdd, if_pos henable]
      exact ⟨rfl, .inl rfl⟩
  | set args locals hthis =>
      rw [Yac.yacSet, if_pos henable]
      exact ⟨rfl, .inl rfl⟩
  | get args locals hthis =>
      unfold Yac.yacGet
      rw [if_pos henable]
      exact ⟨rfl, .inl rfl⟩
  | delete args locals hthis hdelete =>
      simp only [Yac.yacDelete, henable, if_true, Except.ok.injEq, Prod.mk.injEq] at hdelete
      exact ⟨hdelete.2.symm, .inl hdelete.1.symm⟩
  | flush hthis =>
      rw [Yac.yacFlush, if_pos henable]
      exact ⟨rfl, .inl rfl⟩
  | info hthis =>
      rw [Yac.yacInfo, if_pos henable]
      exact ⟨rfl, .inl rfl⟩

theorem unique {next' : Script σ} (hstep : Step yac host s call ret next)
    (hstep' : Step yac host s call ret next') : next = next' := by
  cases hstep with
  | delete args locals hthis hdelete =>
      cases hstep' with
      | delete _ _ _ hdelete' =>
          rw [hdelete] at hdelete'
          rw [(Prod.mk.inj (Except.ok.inj hdelete')).2]
  | _ =>
      cases hstep'
      rfl

/-- The requests of a call are its own. -/
theorem asks (hstep : Step yac host s call ret next) :
    Asks (Allowed yac.compressThreshold (s.pfx call) call) s.world next.world := by
  by_cases hflush : ∀ this, call ≠ .flush this
  · rcases hstep.quiet_or_makes hflush with hquiet | ⟨impl, answer, hmakes, himpl⟩
    · exact .of_same hquiet.requests
    · generalize s.pfx call = pfx at hmakes ⊢
      generalize next.world = w at himpl ⊢
      cases hmakes with
      | add =>
          cases himpl with
          | add => exact yac.invokeAdd_asks _ _ _ fun _ hacceptable => hacceptable
      | set =>
          cases himpl with
          | add => exact yac.invokeAdd_asks _ _ _ fun _ hacceptable => hacceptable
      | get =>
          cases himpl with
          | get => exact yac.invokeGet_asks _ _ _ _ fun _ haddress => haddress
      | delete =>
          cases himpl with
          | delete pfx copy call hdelete =>
              exact Yac.invokeDelete_asks (fun _ _ haddress => haddress) hdelete
  · obtain ⟨this, hthis⟩ := not_forall.mp hflush
    obtain rfl := not_not.mp hthis
    cases hstep with
    | flush =>
        refine .of_same ?_
        unfold Yac.yacFlush
        split <;> rfl

end Script.Step

/-- What the calls of a run ask of the store is what they may ask, in order; and while the
cache is disabled none of them does anything. -/
theorem scriptRun_requests (yac : Yac σ) (host : Host σ) {s last : Script σ}
    {events : List (Event (Script σ) ScriptCall Zval)}
    (hrun : Run (Script.Step yac host) s events last) :
    (∃ chunks, last.world.requests = s.world.requests ++ chunks.flatten ∧
      List.Forall₂ (fun e chunk =>
        ∀ request ∈ chunk,
          Allowed yac.compressThreshold (e.before.pfx e.input) e.input request) events chunks) ∧
      (yac.enable = false → last.world = s.world ∧
        ∀ e ∈ events, e.output = .bool 0 ∨ ∃ handle args, e.input = .construct handle args) := by
  induction hrun with
  | nil s => exact ⟨⟨[], by simp, .nil⟩, by simp⟩
  | cons hstep _ ih =>
      obtain ⟨⟨chunks, hchunks, hall⟩, hdisabled⟩ := ih
      obtain ⟨new, hnew, hallowed⟩ := hstep.asks
      refine ⟨⟨new :: chunks, ?_, .cons hallowed hall⟩, fun henable => ?_⟩
      · rw [hchunks, hnew, List.flatten_cons, List.append_assoc]
      · obtain ⟨hworld, hfirst⟩ := hstep.disabled henable
        obtain ⟨hlast, hrest⟩ := hdisabled henable
        exact ⟨hlast.trans hworld, List.forall_mem_cons.mpr ⟨hfirst, hrest⟩⟩

/-- Around the store in memory: strings are the strings that there are, a flush clears the
store, and the figures are all zero. -/
def memoryHost : Host (Key → Option Fetched) where
  parseString
    | .string str => some str
    | _ => none
  flush _ := fun _ => none
  getInfo _ := ⟨0, 0, 0, 0, 0, 0, 0, 0, 0, 0⟩

/-- A script around the store in memory, with one object under the prefix `a`. -/
def memoryScript : Script (Key → Option Fetched) :=
  ⟨memoryWorld fun _ => none, fun handle => if handle = 0 then some textA else none⟩

theorem memoryScript_knows (w : World (Key → Option Fetched)) (handle : Nat)
    (hhandle : some 0 = some handle) :
    (({ memoryScript with world := w }).objects handle).isSome := by
  obtain rfl := Option.some.inj hhandle
  rfl

/-- A value is stored by the object and deleted by the function. -/
theorem scriptRun_requests_object :
    ∃ events last, Run (Script.Step memoryYac memoryHost) memoryScript events last ∧
      events.map Event.output = [.bool 1, .bool 1] ∧
      (∃ chunks, last.world.requests = [] ++ chunks.flatten ∧
        List.Forall₂ (fun e chunk =>
          ∀ request ∈ chunk,
            Allowed memoryYac.compressThreshold (e.before.pfx e.input) e.input request) events
          chunks) ∧
      (memoryYac.enable = false → last.world = memoryScript.world ∧
        ∀ e ∈ events, e.output = .bool 0 ∨ ∃ handle args, e.input = .construct handle args) := by
  have hadd := @Script.Step.add _ memoryYac memoryHost memoryScript (some 0)
    [.string textC, .long 7] someLocals (memoryScript_knows _)
  have hdelete := @Script.Step.delete _ memoryYac memoryHost
    { memoryScript with
      world := (memoryYac.yacAdd memoryScript.world (some textA) [.string textC, .long 7]
        someLocals).2 }
    none [.string textC] someLocals (by simp [Script.Knows]) _ _ rfl
  have hrun := Run.cons hadd (.cons hdelete (.nil _))
  exact ⟨_, _, hrun, rfl, scriptRun_requests memoryYac memoryHost hrun⟩

/-! ## After a flush -/

/-- The single-key calls that a completed call of a script comes to: none where it leaves the
store alone, and else those of the one call that it makes. -/
def Spells (yac : Yac σ) (host : Host σ) (e : Event (Script σ) ScriptCall Zval)
    (chunk : List (Event σ SingleCall SingleAnswer)) : Prop :=
  ∃ next, Script.Step yac host e.before e.input e.output next ∧
    (chunk = [] ∧ Quiet e.before.world next.world ∨
      ∃ impl answer, Makes (e.before.pfx e.input) e.input e.output impl answer ∧
        yac.ImplStep e.before.world impl answer next.world ∧ yac.Expands impl answer chunk)

theorem scriptStep_spells {yac : Yac σ} {host : Host σ} {s next : Script σ} {call : ScriptCall}
    {ret : Zval} (hflush : ∀ this, call ≠ .flush this)
    (hstep : Script.Step yac host s call ret next) :
    ∃ chunk, Run yac.SingleStep s.world.store chunk next.world.store ∧
      Spells yac host ⟨s, call, ret⟩ chunk := by
  rcases hstep.quiet_or_makes hflush with hquiet | ⟨impl, answer, hmakes, himpl⟩
  · refine ⟨[], ?_, next, hstep, .inl ⟨rfl, hquiet⟩⟩
    rw [hquiet.store]
    exact .nil _
  · obtain ⟨chunk, hrun, hexpands⟩ := Yac.implStep_expands himpl
    exact ⟨chunk, hrun, next, hstep, .inr ⟨impl, answer, hmakes, himpl, hexpands⟩⟩

/-- What the single-key calls of a run return as values was stored last under its address
in the run. -/
def ReturnsLastPut (yac : Yac σ) (calls : List (Event σ SingleCall SingleAnswer)) : Prop :=
  ∀ (pre post : List (Event σ SingleCall SingleAnswer)) (e : Event σ SingleCall SingleAnswer)
    (pfx key : PhpString) (value : Zval), calls = pre ++ e :: post → e.input = .get pfx key →
    e.output = .got (some value) →
    LastPut (Run.mapEvents yac.observe pre) (storageKey pfx key) value

/-- A run of a script that starts with an empty store and never flushes it is a run of
single-key calls in chunks, which return what was stored last. -/
theorem scriptRun_ofEmpty {yac : Yac σ} {host : Host σ} {contents : σ → Key → Option Fetched}
    {safe : σ → Key → Prop} (hstore : LossyStore yac.store contents safe)
    (hlz : yac.fastlz.Undoes) {s last : Script σ}
    (hempty : ∀ key, contents s.world.store key = none)
    {events : List (Event (Script σ) ScriptCall Zval)}
    (hrun : Run (Script.Step yac host) s events last)
    (hflush : ∀ e ∈ events, ∀ this, e.input ≠ .flush this) :
    ∃ chunks, Run yac.SingleStep s.world.store chunks.flatten last.world.store ∧
      List.Forall₂ (Spells yac host) events chunks ∧
      ((∀ e ∈ chunks.flatten, yac.Admissible safe e.before e.input) →
        ReturnsLastPut yac chunks.flatten) := by
  obtain ⟨chunks, hsingle, hall⟩ :=
    (hrun.guarded (fun _ call => ∀ this, call ≠ .flush this) hflush).expand
      (fun s => s.world.store) (Spells yac host)
      fun _ _ _ _ hguard => scriptStep_spells hguard.1 hguard.2
  refine ⟨chunks, hsingle, hall, ?_⟩
  intro hadmissible pre post e pfx key value hevents hinput houtput
  rcases Yac.lossyRun_answer hstore hlz hsingle hadmissible hevents hinput houtput with
    hput | ⟨hinitial, _⟩
  · exact hput
  · -- nothing was there at the beginning
    rw [Yac.view, readMap, hempty] at hinitial
    cases hinitial

end McoWeb.Cache
