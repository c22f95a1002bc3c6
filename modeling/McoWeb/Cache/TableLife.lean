import McoWeb.Cache.Lifecycle
import McoWeb.Cache.TableStore
import McoWeb.Storage.Startup

/-! # The life of a cache over the shared table

A life of the module is its start and then a run of scripts under fixed globals. The table
that start-up makes holds no entry, so what scripts read from it they have stored since.
-/

namespace McoWeb.Cache

open Foundation Storage

/-- A script's call among the engine's. -/
def ModuleCall.scriptCall : ModuleCall → Option ScriptCall
  | .script call => some call
  | _ => none

namespace Setup

variable {σ : Type} {setup : Setup σ} {m last : Module σ} {g : YacGlobals}
  {events : List (Event (Module σ) ModuleCall (List StorageEvent))}

theorem Settled.yac_eq (hsettled : Settled g m) : setup.yac m.globals = setup.yac g := by
  rw [yac, yac, hsettled.enable, hsettled.compressThreshold]

/-- Past its start, the module runs its scripts as the globals say that it started with. -/
theorem scripts_of_run (hrun : Run setup.Step m events last) (hsettled : Settled g m) :
    ∃ calls, Run (Script.Step (setup.yac g) setup.host) m.script calls last.script ∧
      calls.map Event.input = events.filterMap fun e => e.input.scriptCall := by
  induction hrun with
  | nil m => exact ⟨[], .nil _, rfl⟩
  | cons hstep _ ih =>
      obtain ⟨calls, hcalls, hinputs⟩ := ih (hstep.settled hsettled)
      cases hstep with
      | minit hphase => exact absurd hphase hsettled.past
      | script hphase hscript hrequests =>
          rw [hsettled.yac_eq] at hscript
          exact ⟨_ :: calls, .cons hscript hcalls, by simp [hinputs, ModuleCall.scriptCall]⟩
      | iniSet => exact ⟨calls, hcalls, by simp [hinputs, ModuleCall.scriptCall]⟩
      | minfo => exact ⟨calls, hcalls, by simp [hinputs, ModuleCall.scriptCall]⟩
      | mshutdown => exact ⟨calls, hcalls, by simp [hinputs, ModuleCall.scriptCall]⟩

/-- A start fails, or the scripts run; and where the cache is enabled, over the storage that was
started. -/
theorem Step.started {started : Module σ} {out : List StorageEvent}
    (hminit : setup.Step m .minit out started) :
    started.phase = .failed ∨
      started.phase = .running ∧ (started.globals.enable = true →
        setup.yacStorageStartup started.globals.kMsize started.globals.vMsize =
          .ok started.script.world.store) := by
  cases hminit
  unfold phpMinit
  dsimp only
  split
  next =>
    split
    next => exact .inl rfl
    next hstartup => exact .inr ⟨rfl, fun _ => hstartup⟩
  next hdisabled => exact .inr ⟨rfl, fun henable => absurd henable hdisabled⟩

/-- After a start that failed nothing is asked of the module. -/
theorem events_of_failed (hrun : Run setup.Step m events last) (hfailed : m.phase = .failed) :
    events = [] := by
  cases hrun with
  | nil => rfl
  | cons hstep _ => cases hstep <;> simp_all

end Setup

/-- A disabled cache makes no single-key calls. -/
theorem disabledRun_spells {σ : Type} {yac : Yac σ} {host : Host σ} (henable : yac.enable = false)
    {s last : Script σ} {calls : List (Event (Script σ) ScriptCall Zval)}
    (hrun : Run (Script.Step yac host) s calls last) :
    last.world = s.world ∧
      List.Forall₂ (Spells yac host) calls (List.replicate calls.length []) := by
  induction hrun with
  | nil s => exact ⟨rfl, .nil⟩
  | cons hstep _ ih =>
      obtain ⟨hlast, hrest⟩ := ih
      have hworld := (hstep.disabled henable).1
      refine ⟨hlast.trans hworld, .cons ⟨_, hstep, .inl ⟨rfl, ?_⟩⟩ hrest⟩
      rw [hworld]
      exact ⟨rfl, rfl⟩

/-- A table of zeroes holds no entry. -/
theorem contents_of_zero {table : YacStorage} (env : StorageEnv) (clock : Nat → Int64)
    (hslots : ∀ p, p < table.slotsSize.toNat → table.slots p = .zero) (key : Key) :
    TableState.contents env ⟨some table, clock⟩ key = none := by
  have hval : (table.slots (table.primary key)).val = none := by
    rw [YacStorage.primary, hslots _ (table.slotIndex_lt _)]
    rfl
  have hentry : table.entries env key = none := by
    rw [YacStorage.entries, hval, Option.bind_none]
  change (table.entries env key).bind handedOut = none
  rw [hentry, Option.bind_none]

/-- `yac_storage_startup` as the module's, with a clock. -/
def tableStartup (yacAllocatorStartup : UInt64 → UInt64 → Except String Allocated)
    (clock : Nat → Int64) (fsize size : UInt64) : Except String TableState :=
  (yacStorageStartup yacAllocatorStartup fsize size).map fun table => ⟨some table, clock⟩

theorem tableStartup_contents {env : StorageEnv}
    {yacAllocatorStartup : UInt64 → UInt64 → Except String Allocated} {clock : Nat → Int64}
    {fsize size : UInt64} {s : TableState}
    (hstartup : tableStartup yacAllocatorStartup clock fsize size = .ok s) (key : Key) :
    s.contents env key = none := by
  unfold tableStartup yacStorageStartup at hstartup
  split at hstartup
  next => cases hstartup
  next g _ =>
    obtain rfl := Except.ok.inj hstartup
    exact contents_of_zero env clock (fun _ hlt => startedTable_slots g hlt) key

theorem flush_of_scripts {σ : Type} {calls : List (Event (Script σ) ScriptCall Zval)}
    {events : List (Event (Module σ) ModuleCall (List StorageEvent))}
    (hinputs : calls.map Event.input = events.filterMap fun e => e.input.scriptCall)
    (hflush : ∀ e ∈ events, ∀ this, e.input ≠ .script (.flush this)) :
    ∀ e ∈ calls, ∀ this, e.input ≠ .flush this := by
  intro e he this hinput
  have hmem : e.input ∈ events.filterMap fun e => e.input.scriptCall := by
    rw [← hinputs]
    exact List.mem_map_of_mem he
  obtain ⟨e', he', hcall⟩ := List.mem_filterMap.mp hmem
  rw [hinput] at hcall
  refine hflush e' he' this ?_
  cases hmodule : e'.input with
  | script call =>
      rw [hmodule] at hcall
      exact congrArg ModuleCall.script (Option.some.inj hcall)
  | _ =>
      rw [hmodule] at hcall
      cases hcall

theorem ReturnsLastPut.nil {σ : Type} (yac : Yac σ) : ReturnsLastPut yac [] := by
  intro pre post e pfx key value hevents
  simp at hevents

/-- A cache over a table in four megabytes, with nothing configured. -/
def tableSetup : Setup TableState where
  build := tableYac
  host := ⟨fun _ => none, id, fun _ => ⟨0, 0, 0, 0, 0, 0, 0, 0, 0, 0⟩⟩
  conversions := tableConversions
  configured _ := none
  yacStorageStartup := tableStartup (fun _ _ => .ok (segmentOf 4194304 (by decide))) fun _ => 0
  strerror := ""

/-! ## A life in which something is stored -/

/-- A script stores the integer 7 under the key `c` and looks it up in an array of keys. -/
def storeThenLookup : List ScriptCall :=
  [.add none [.string textC, .long 7] someLocals,
    .get none [.array [(.long 0, .string textC)]] someLocals]

/-- The update of the integer 7 under the key `c`. -/
def storeSeven : UpdateCall := ⟨storageKey .empty textC, toWord 8 7, 1, 1, 0⟩

theorem storeSeven_fits : storeSeven.key.bytes.length ≤ yacStorageMaxKeyLen := by decide

section

variable {g : YacGlobals} (henable : g.enable = true)

include henable

theorem yacAdd_seven (s : TableState) :
    (tableSetup.yac g).yacAdd ⟨s, [], [], []⟩ none [.string textC, .long 7] someLocals =
      (.bool (if (placePrimary oddEnv storeSeven s).1 ≠ 0 then 1 else 0),
        ⟨(placePrimary oddEnv storeSeven s).2, [.update storeSeven], [],
          [.add .empty (.single textC (.long 7) 0 1)]⟩) := by
  have henabled : ¬ (tableSetup.yac g).enable = false := by simpa [Setup.yac] using henable
  unfold Yac.yacAdd
  rw [if_neg henabled]
  rfl

omit henable in
theorem yacGetImpl_seven (w : World TableState)
    (hfind : (w.store.find oddEnv ⟨[], 0, 0⟩ storeSeven.key).1 =
      some ⟨storeSeven.data, storeSeven.flag, by decide⟩) :
    ((tableSetup.yac g).yacGetImpl w .empty textC).1 = some (.long 7) := by
  have haccepted : ¬ KeyTooLong .empty textC := by decide
  have hanswer := ((tableSetup.yac g).yacGetImpl_effect w haccepted).1
  rw [hanswer]
  exact congrArg (fun found => found.bind ((tableSetup.yac g).decoded w.store)) hfind

theorem yacGet_seven (w : World TableState)
    (hfind : (w.store.find oddEnv ⟨[], 0, 0⟩ storeSeven.key).1 =
      some ⟨storeSeven.data, storeSeven.flag, by decide⟩) :
    ((tableSetup.yac g).yacGet w none [.array [(.long 0, .string textC)]] someLocals).1 =
      .array [(.string textC, .long 7)] := by
  have henabled : ¬ (tableSetup.yac g).enable = false := by simpa [Setup.yac] using henable
  have hanswer := @yacGetImpl_seven g (w.enter (.get ((none : Option PhpString).getD .empty)
    (.multi (.array [(.long 0, .string textC)])))) hfind
  unfold Yac.yacGet
  rw [if_neg henabled]
  change Zval.array ((tableSetup.yac g).engine.assoc
    [(textC, ((tableSetup.yac g).yacGetImpl _ .empty textC).1.getD (.bool 0))]) = _
  rw [hanswer]
  rfl

end

theorem placePrimary_zero {s : TableState} {table : YacStorage} (htable : s.table = some table)
    (hslots : ∀ p < table.slotsSize.toNat, table.slots p = .zero) :
    placePrimary oddEnv storeSeven s =
      (1, { s with table := some (place oddEnv table storeSeven storeSeven_fits) }) := by
  have hfree : CellFree table (table.primary storeSeven.key) := by
    intro q hq _
    rw [hslots q hq]
    simp [YacKvKey.zero]
  simp only [placePrimary, htable, dif_pos storeSeven_fits, if_pos hfree]

/-- There are four slots or more. -/
def Roomy (s : TableState) : Prop := ∀ table, s.table = some table → 4 ≤ table.slotsSize.toNat

/-- With an odd secondary hash no lookup replaces a key there. -/
theorem Roomy.safe {s : TableState} (hroomy : Roomy s) (key : Key) : s.Safe oddEnv key :=
  fun table htable => not_replacesPrimary_of_odd rfl (hroomy table htable)

theorem Roomy.placePrimary {s : TableState} (hroomy : Roomy s) (call : UpdateCall) :
    Roomy (placePrimary oddEnv call s).2 := by
  unfold McoWeb.Cache.placePrimary
  split
  next => exact hroomy
  next table htable =>
    split
    next hfits =>
      split
      next =>
        rintro _ ⟨⟩
        exact hroomy table htable
      next => exact hroomy
    next => exact hroomy

theorem Roomy.find {s : TableState} (hroomy : Roomy s) (out : FindOut) (key : Key) :
    Roomy (s.find oddEnv out key).2 := by
  unfold TableState.find
  split
  next => exact hroomy
  next table htable =>
    split
    next =>
      intro _ hnone
      cases hnone
    next hfind =>
      rintro _ ⟨⟩
      rw [yacStorageFind_slotsSize hfind]
      exact hroomy table htable

theorem Roomy.markPrimary {s : TableState} (hroomy : Roomy s) (key : Key) (ttl : Int32) :
    Roomy (markPrimary key ttl s) := by
  unfold McoWeb.Cache.markPrimary
  split
  next =>
    intro _ hmarked
    obtain ⟨table, htable, rfl⟩ := Option.map_eq_some_iff.mp hmarked
    exact hroomy table htable
  next => exact hroomy

theorem roomy_step {g : YacGlobals} {s next : TableState} {call : SingleCall}
    {answer : SingleAnswer} (hroomy : Roomy s)
    (hstep : (tableSetup.yac g).SingleStep s call answer next) : Roomy next := by
  cases hstep.effect with
  | notStored => exact hroomy
  | update => exact hroomy.placePrimary _
  | notFound => exact hroomy
  | find => exact hroomy.find _ _
  | notDeleted => exact hroomy
  | delete => exact hroomy.markPrimary _ _

theorem roomy_admissible {g : YacGlobals} {s last : TableState}
    {calls : List (Event TableState SingleCall SingleAnswer)} (hroomy : Roomy s)
    (hrun : Run (tableSetup.yac g).SingleStep s calls last) :
    ∀ e ∈ calls, (tableSetup.yac g).Admissible (TableState.Safe oddEnv) e.before e.input := by
  intro e he
  have hbefore := (hrun.invariant Roomy (fun _ _ _ _ hroomy hstep => roomy_step hroomy hstep)
    hroomy).1 e he
  cases e.input with
  | add pfx key value ttl add =>
      intro bytes hpack
      cases hpack
  | get pfx key => exact .inr (hbefore.safe _)
  | delete pfx key ttl => trivial

/-- The module as it is started. -/
def startedModule : Module TableState :=
  (tableSetup.phpMinit (Module.load ⟨⟨none, fun _ => 0⟩, [], [], []⟩)).2

/-- Whichever run of the two calls over a table of zeroes, the first stores and the second
returns what it stored. -/
theorem seven_outputs {g : YacGlobals} (henable : g.enable = true) {s : Script TableState}
    {state : TableState} {table : YacStorage} (hworld : s.world = ⟨state, [], [], []⟩)
    (htable : state.table = some table)
    (hslots : ∀ p < table.slotsSize.toNat, table.slots p = .zero) {last : Script TableState}
    {scripts : List (Event (Script TableState) ScriptCall Zval)}
    (hrun : Run (Script.Step (tableSetup.yac g) tableSetup.host) s scripts last)
    (hinputs : scripts.map Event.input = storeThenLookup) :
    scripts.map Event.output = [.bool 1, .array [(.string textC, .long 7)]] := by
  obtain ⟨first, rest, rfl, hfirst, hrest⟩ := List.map_eq_cons_iff.mp hinputs
  obtain ⟨second, rest', rfl, hsecond, hnil⟩ := List.map_eq_cons_iff.mp hrest
  obtain rfl := List.map_eq_nil_iff.mp hnil
  have hplaced := placePrimary_zero htable hslots
  cases hrun with
  | cons hadd htail =>
      cases htail with
      | cons hget _ =>
          obtain rfl := hfirst
          obtain rfl := hsecond
          cases hadd
          cases hget
          have hstored := yacAdd_seven henable state
          rw [hplaced] at hstored
          have hgot := @yacGet_seven g henable
            ((tableSetup.yac g).yacAdd ⟨state, [], [], []⟩ none [.string textC, .long 7]
              someLocals).2 (by
                rw [hstored]
                exact find_place table storeSeven_fits (by decide) state.clock ⟨[], 0, 0⟩)
          rw [← hworld] at hgot hstored
          simp only [List.map_cons, List.map_nil]
          refine List.cons_eq_cons.mpr ⟨congrArg Prod.fst hstored, ?_⟩
          exact List.cons_eq_cons.mpr ⟨hgot, rfl⟩

end McoWeb.Cache
