import McoWeb.Cache.ScriptRuns

/-! # The life of the module

The engine loads the module, which fills its globals; starts it, which reads the
configuration and starts the storage layer if the cache is enabled; runs scripts; and
shuts it down. The storage layer sees one session: it is started before the first
request and closed after the last. Where the cache is disabled it is not called but for the
name of its memory, which `phpinfo` prints in any case.
-/

namespace McoWeb.Cache

open Foundation Storage

/-- `zend_yac_globals`. -/
structure YacGlobals where
  enable : Bool
  debug : Bool
  kMsize : UInt64
  vMsize : UInt64
  compressThreshold : UInt64

/-- `YAC_MIN_COMPRESS_THRESHOLD`. -/
def yacMinCompressThreshold : UInt64 := 1024

/-- `PHP_GINIT_FUNCTION(yac)`. -/
def phpGinit : YacGlobals where
  enable := true
  kMsize := 4 * 1024 * 1024
  vMsize := 64 * 1024 * 1024
  debug := false
  compressThreshold := -1

theorem phpGinit_min : yacMinCompressThreshold ≤ phpGinit.compressThreshold := by decide

/-! ## The configuration -/

/-- The conversions of a configured text. -/
structure IniConversions where
  onUpdateBool : Option String → Bool
  zendAtol : String → Int64
  zendZtol : String → Int64

/-- Where an entry may be set: `PHP_INI_SYSTEM` and `PHP_INI_ALL`. -/
inductive IniMode
  | system
  | all
deriving DecidableEq

/-- An entry of the table between `PHP_INI_BEGIN` and `PHP_INI_END`. -/
structure IniEntry where
  name : String
  value : String
  modifiable : IniMode
  onModify : Option String → YacGlobals → YacGlobals

section

variable (conv : IniConversions) (newValue : Option String) (g : YacGlobals)

/-- `OnChangeKeysMemoryLimit`. -/
def onChangeKeysMemoryLimit : YacGlobals :=
  match newValue with
  | some text => { g with kMsize := (conv.zendAtol text).toUInt64 }
  | none => g

/-- `OnChangeValsMemoryLimit`. -/
def onChangeValsMemoryLimit : YacGlobals :=
  match newValue with
  | some text => { g with vMsize := (conv.zendZtol text).toUInt64 }
  | none => g

/-- `OnChangeCompressThreshold`. -/
def onChangeCompressThreshold : YacGlobals :=
  match newValue with
  | some text =>
      let threshold := (conv.zendAtol text).toUInt64
      { g with
        compressThreshold :=
          if threshold < yacMinCompressThreshold then yacMinCompressThreshold else threshold }
  | none => g

end

section

variable (conv : IniConversions) (configured : String → Option String)

/-- The table of entries. -/
def iniEntries : List IniEntry :=
  [⟨"yac.enable", "1", .system, fun text g => { g with enable := conv.onUpdateBool text }⟩,
    ⟨"yac.debug", "0", .all, fun text g => { g with debug := conv.onUpdateBool text }⟩,
    ⟨"yac.keys_memory_size", "4M", .system, onChangeKeysMemoryLimit conv⟩,
    ⟨"yac.values_memory_size", "64M", .system, onChangeValsMemoryLimit conv⟩,
    ⟨"yac.compress_threshold", "-1", .system, onChangeCompressThreshold conv⟩]

/-- `REGISTER_INI_ENTRIES()`: every entry takes its configured value or its default. -/
def registerIniEntries (g : YacGlobals) : YacGlobals :=
  (iniEntries conv).foldl
    (fun g entry => entry.onModify (some ((configured entry.name).getD entry.value)) g) g

/-- `ini_set` by a script, which the entries of the system refuse. -/
def iniSet (name value : String) (g : YacGlobals) : YacGlobals :=
  match (iniEntries conv).find? fun entry => entry.name = name with
  | some entry => if entry.modifiable = .all then entry.onModify (some value) g else g
  | none => g

theorem onChangeCompressThreshold_min (text : String) (g : YacGlobals) :
    yacMinCompressThreshold ≤
      (onChangeCompressThreshold conv (some text) g).compressThreshold := by
  dsimp only [onChangeCompressThreshold]
  split
  next => exact UInt64.le_refl _
  next hle => exact UInt64.not_lt.mp hle

/-- The last entry of the table sets the threshold. -/
theorem registerIniEntries_min (g : YacGlobals) :
    yacMinCompressThreshold ≤ (registerIniEntries conv configured g).compressThreshold :=
  onChangeCompressThreshold_min conv _ _

/-- What a script sets has no influence on whether the cache is enabled and what it
compresses. -/
theorem iniSet_keeps (name value : String) (g : YacGlobals) :
    (iniSet conv name value g).enable = g.enable ∧
      (iniSet conv name value g).compressThreshold = g.compressThreshold := by
  unfold iniSet
  split
  next entry hfound =>
    split
    next hall =>
      have hmem := List.mem_of_find?_eq_some hfound
      simp only [iniEntries, List.mem_cons, List.not_mem_nil, or_false] at hmem
      rcases hmem with rfl | rfl | rfl | rfl | rfl
      · cases hall
      · exact ⟨rfl, rfl⟩
      · cases hall
      · cases hall
      · cases hall
    next => exact ⟨rfl, rfl⟩
  next => exact ⟨rfl, rfl⟩

end

/-! ## The storage layer's view -/

/-- A call that the storage layer receives. The start says whether it succeeded. -/
inductive StorageEvent
  | startup (fsize size : UInt64) (started : Bool)
  | request (call : StoreCall)
  | flush
  | getInfo
  | freeInfo
  | sharedMemoryName
  | shutdown

/-- The life of the storage layer. While it has figures out, only their return is in order. -/
inductive StorageLife
  | idle
  | up
  | shown
  | closed

/-- The calls that are in order. -/
inductive StorageLife.Step : StorageLife → StorageEvent → Unit → StorageLife → Prop
  | startup (fsize size : UInt64) : Step .idle (.startup fsize size true) () .up
  | failure (fsize size : UInt64) : Step .idle (.startup fsize size false) () .closed
  | request (call : StoreCall) : Step .up (.request call) () .up
  | flush : Step .up .flush () .up
  | getInfo : Step .up .getInfo () .shown
  | freeInfo : Step .shown .freeInfo () .up
  | nameIdle : Step .idle .sharedMemoryName () .idle
  | nameUp : Step .up .sharedMemoryName () .up
  | shutdown : Step .up .shutdown () .closed

/-- The calls bring the storage layer from one point of its life to another. -/
def InOrder (life : StorageLife) (calls : List StorageEvent) (life' : StorageLife) : Prop :=
  ∃ session, Run StorageLife.Step life session life' ∧ session.map Event.input = calls

namespace InOrder

variable {life life' life'' : StorageLife} {call : StorageEvent} {calls calls' : List StorageEvent}

theorem nil (life : StorageLife) : InOrder life [] life := ⟨[], .nil life, rfl⟩

theorem cons (hstep : life.Step call () life') (hrest : InOrder life' calls life'') :
    InOrder life (call :: calls) life'' := by
  obtain ⟨session, hrun, rfl⟩ := hrest
  exact ⟨⟨life, call, ()⟩ :: session, .cons hstep hrun, rfl⟩

theorem one (hstep : life.Step call () life') : InOrder life [call] life' :=
  .cons hstep (.nil life')

theorem append (hfirst : InOrder life calls life') (hsecond : InOrder life' calls' life'') :
    InOrder life (calls ++ calls') life'' := by
  obtain ⟨session, hrun, rfl⟩ := hfirst
  obtain ⟨session', hrun', rfl⟩ := hsecond
  exact ⟨session ++ session', hrun.append hrun', List.map_append⟩

theorem requests (calls : List StoreCall) : InOrder .up (calls.map .request) .up := by
  induction calls with
  | nil => exact .nil .up
  | cons call calls ih => exact .cons (.request call) ih

end InOrder

/-- The figures are asked for and given back. -/
def infoEvents (enable : Bool) : List StorageEvent := if enable then [.getInfo, .freeInfo] else []

theorem infoEvents_inOrder (enable : Bool) :
    InOrder (if enable then .up else .idle) (infoEvents enable)
      (if enable then .up else .idle) := by
  cases enable with
  | true => exact .cons .getInfo (.one .freeInfo)
  | false => exact .nil _

theorem request_notMem_infoEvents (call : StoreCall) (enable : Bool) :
    .request call ∉ infoEvents enable := by
  cases enable <;> simp [infoEvents]

/-- The calls of `PHP_MINFO_FUNCTION(yac)`: the name of the memory in any case, and the figures
if the cache is enabled. -/
def minfoEvents (enable : Bool) : List StorageEvent := .sharedMemoryName :: infoEvents enable

theorem minfoEvents_inOrder (enable : Bool) :
    InOrder (if enable then .up else .idle) (minfoEvents enable)
      (if enable then .up else .idle) := by
  refine .cons ?_ (infoEvents_inOrder enable)
  cases enable with
  | true => exact .nameUp
  | false => exact .nameIdle

/-! ## The module -/

/-- How far the module has come. -/
inductive Phase
  | loaded
  | failed
  | running
  | ended

/-- The module in a process, and the scripts that it serves. -/
structure Module (σ : Type) where
  globals : YacGlobals
  phase : Phase
  script : Script σ

/-- The module as it is loaded, when there is no object. -/
def Module.load {σ : Type} (w : World σ) : Module σ := ⟨phpGinit, .loaded, ⟨w, fun _ => none⟩⟩

/-- Where the storage layer is in its life. -/
def Module.storageLife {σ : Type} (m : Module σ) : StorageLife :=
  match m.phase with
  | .loaded => .idle
  | .failed => .closed
  | .running => if m.globals.enable then .up else .idle
  | .ended => if m.globals.enable then .closed else .idle

/-- `PHP_MSHUTDOWN_FUNCTION(yac)`. -/
def phpMshutdown {σ : Type} (m : Module σ) : List StorageEvent × Module σ :=
  (if m.globals.enable then [.shutdown] else [], { m with phase := .ended })

/-- What is around the module: the build, whose switch and threshold are those of the
globals, the configuration, `yac_storage_startup`, and `strerror(errno)`. -/
structure Setup (σ : Type) where
  build : Yac σ
  host : Host σ
  conversions : IniConversions
  configured : String → Option String
  yacStorageStartup : UInt64 → UInt64 → Except String σ
  strerror : String

/-- What the engine asks of the module. -/
inductive ModuleCall
  | minit
  | script (call : ScriptCall)
  | iniSet (name value : String)
  | minfo
  | mshutdown

/-- The calls of the storage layer behind a call of a script that made these requests. -/
def scriptEvents (enable : Bool) (call : ScriptCall) (requests : List StoreCall) :
    List StorageEvent :=
  match call with
  | .flush _ => if enable then [.flush] else []
  | .info _ => infoEvents enable
  | _ => requests.map .request

namespace Setup

variable {σ : Type} (setup : Setup σ)

/-- The cache under the globals. -/
def yac (g : YacGlobals) : Yac σ :=
  { setup.build with
    enable := g.enable
    compressThreshold := g.compressThreshold }

/-- `PHP_MINIT_FUNCTION(yac)`, with the storage that it started. A failure is fatal. -/
def phpMinit (m : Module σ) : List StorageEvent × Module σ :=
  let g := registerIniEntries setup.conversions setup.configured m.globals
  if g.enable then
    match setup.yacStorageStartup g.kMsize g.vMsize with
    | .error msg =>
        let warning :=
          "Shared momory allocator startup failed at '" ++ msg ++ "': " ++ setup.strerror
        ([.startup g.kMsize g.vMsize false],
          ⟨g, .failed, { m.script with world := m.script.world.warn warning }⟩)
    | .ok store =>
        ([.startup g.kMsize g.vMsize true],
          ⟨g, .running, { m.script with world := { m.script.world with store := store } }⟩)
  else ([], ⟨g, .running, m.script⟩)

/-- One call of the engine. The module serves scripts, and is asked for its figures, between a
start that succeeded and the shutdown. -/
inductive Step : Module σ → ModuleCall → List StorageEvent → Module σ → Prop
  | minit {m : Module σ} (hphase : m.phase = .loaded) :
      Step m .minit (setup.phpMinit m).1 (setup.phpMinit m).2
  | script {m : Module σ} (hphase : m.phase = .running) {call : ScriptCall} {ret : Zval}
      {next : Script σ} {requests : List StoreCall}
      (hstep : Script.Step (setup.yac m.globals) setup.host m.script call ret next)
      (hrequests : next.world.requests = m.script.world.requests ++ requests) :
      Step m (.script call) (scriptEvents m.globals.enable call requests) { m with script := next }
  | iniSet {m : Module σ} (hphase : m.phase = .running) (name value : String) :
      Step m (.iniSet name value) []
        { m with globals := iniSet setup.conversions name value m.globals }
  | minfo {m : Module σ} (hphase : m.phase = .running) :
      Step m .minfo (minfoEvents m.globals.enable) m
  | mshutdown {m : Module σ} (hphase : m.phase = .running) :
      Step m .mshutdown (phpMshutdown m).1 (phpMshutdown m).2

/-- The module is past its start, with the switch and the threshold of the given globals. -/
structure Settled (g : YacGlobals) (m : Module σ) : Prop where
  past : m.phase ≠ .loaded
  enable : m.globals.enable = g.enable
  compressThreshold : m.globals.compressThreshold = g.compressThreshold

variable {setup} {m next last : Module σ} {call : ModuleCall} {out : List StorageEvent}
  {events : List (Event (Module σ) ModuleCall (List StorageEvent))}

theorem phpMinit_globals (m : Module σ) : (setup.phpMinit m).2.globals =
    registerIniEntries setup.conversions setup.configured m.globals := by
  unfold phpMinit
  dsimp only
  split
  next => split <;> rfl
  next => rfl

theorem Step.settled {g : YacGlobals} (hsettled : Settled g m)
    (hstep : setup.Step m call out next) : Settled g next := by
  cases hstep with
  | minit hphase => exact absurd hphase hsettled.past
  | script => exact ⟨hsettled.past, hsettled.enable, hsettled.compressThreshold⟩
  | iniSet hphase name value =>
      obtain ⟨henable, hthreshold⟩ := iniSet_keeps setup.conversions name value m.globals
      exact ⟨hsettled.past, henable.trans hsettled.enable,
        hthreshold.trans hsettled.compressThreshold⟩
  | minfo => exact hsettled
  | mshutdown => exact ⟨by simp [phpMshutdown], hsettled.enable, hsettled.compressThreshold⟩

theorem Step.min (hmin : yacMinCompressThreshold ≤ m.globals.compressThreshold)
    (hstep : setup.Step m call out next) :
    yacMinCompressThreshold ≤ next.globals.compressThreshold := by
  cases hstep with
  | minit hphase =>
      rw [phpMinit_globals]
      exact registerIniEntries_min _ _ _
  | script => exact hmin
  | iniSet hphase name value =>
      rw [(iniSet_keeps setup.conversions name value m.globals).2]
      exact hmin
  | minfo => exact hmin
  | mshutdown => exact hmin

/-- A start settles the globals. -/
theorem Step.settles (hstep : setup.Step m call out next) : Settled next.globals next := by
  refine ⟨?_, rfl, rfl⟩
  cases hstep with
  | minit hphase =>
      unfold phpMinit
      dsimp only
      split
      next => split <;> simp
      next => simp
  | script hphase => simp [hphase]
  | iniSet hphase => simp [hphase]
  | minfo hphase => simp [hphase]
  | mshutdown hphase => simp [phpMshutdown]

/-- A disabled cache makes no requests. -/
theorem requests_of_disabled {yac : Yac σ} {host : Host σ} {s s' : Script σ} {call : ScriptCall}
    {ret : Zval} {requests : List StoreCall} (henable : yac.enable = false)
    (hstep : Script.Step yac host s call ret s')
    (hrequests : s'.world.requests = s.world.requests ++ requests) : requests = [] := by
  rw [(hstep.disabled henable).1] at hrequests
  exact List.self_eq_append_right.mp hrequests

/-- Where the cache is disabled nothing but the name of the memory is asked for. -/
theorem Step.disabled (hstep : setup.Step m call out next) (henable : next.globals.enable = false) :
    ∀ event ∈ out, event = .sharedMemoryName := by
  cases hstep with
  | minit hphase =>
      rw [phpMinit_globals] at henable
      simp [phpMinit, henable]
  | @script hphase scriptCall ret next requests hstep hrequests =>
      have hdisabled : (setup.yac m.globals).enable = false := henable
      obtain rfl := requests_of_disabled hdisabled hstep hrequests
      rw [show m.globals.enable = false from henable]
      cases scriptCall <;> simp [scriptEvents, infoEvents]
  | iniSet => simp
  | minfo =>
      rw [henable]
      simp [minfoEvents, infoEvents]
  | mshutdown =>
      have hdisabled : m.globals.enable = false := henable
      simp [phpMshutdown, hdisabled]

/-- What a call of a script asks of a storage layer that is up exactly if the cache is
enabled. -/
theorem scriptEvents_inOrder {yac : Yac σ} {host : Host σ} {s s' : Script σ} {call : ScriptCall}
    {ret : Zval} {requests : List StoreCall} (hstep : Script.Step yac host s call ret s')
    (hrequests : s'.world.requests = s.world.requests ++ requests) :
    InOrder (if yac.enable then .up else .idle) (scriptEvents yac.enable call requests)
      (if yac.enable then .up else .idle) := by
  cases henable : yac.enable with
  | true =>
      cases call with
      | flush => exact .one .flush
      | info => exact infoEvents_inOrder true
      | _ => exact .requests requests
  | false =>
      -- the requests are none, because the world is the one before
      obtain rfl := requests_of_disabled henable hstep hrequests
      cases call <;> exact .nil _

theorem Step.inOrder (hstep : setup.Step m call out next) :
    InOrder m.storageLife out next.storageLife := by
  cases hstep with
  | minit hphase =>
      have hidle : m.storageLife = .idle := by rw [Module.storageLife, hphase]
      rw [hidle, phpMinit]
      dsimp only
      split
      next henable =>
        split
        next => exact .one (.failure _ _)
        next =>
          simp only [Module.storageLife, henable, if_true]
          exact .one (.startup _ _)
      next hdisabled =>
        simp only [Module.storageLife, hdisabled]
        exact .nil _
  | script hphase hstep hrequests =>
      simp only [Module.storageLife, hphase]
      exact scriptEvents_inOrder hstep hrequests
  | iniSet hphase name value =>
      simp only [Module.storageLife, hphase, (iniSet_keeps setup.conversions name value _).1]
      exact .nil _
  | minfo hphase =>
      simp only [Module.storageLife, hphase]
      exact minfoEvents_inOrder _
  | mshutdown hphase =>
      have hbefore : m.storageLife = if m.globals.enable then .up else .idle := by
        rw [Module.storageLife, hphase]
      have hafter : (phpMshutdown m).2.storageLife =
          if m.globals.enable then .closed else .idle := rfl
      rw [hbefore, hafter, phpMshutdown]
      by_cases henable : m.globals.enable = true
      · rw [if_pos henable, if_pos henable, if_pos henable]
        exact .one .shutdown
      · rw [if_neg henable, if_neg henable, if_neg henable]
        exact .nil _

/-- An update that leaves the module is as the threshold of its globals says. -/
theorem Step.acceptable {update : UpdateCall} (hstep : setup.Step m call out next)
    (hupdate : .request (.update update) ∈ out) :
    m.phase ≠ .loaded ∧ ∃ pfx, Acceptable m.globals.compressThreshold pfx update := by
  cases hstep with
  | minit hphase =>
      rw [phpMinit] at hupdate
      dsimp only at hupdate
      split at hupdate
      next => split at hupdate <;> simp at hupdate
      next => simp at hupdate
  | @script hphase scriptCall ret next requests hstep hrequests =>
      -- of what a script may ask, only `add` and `set` ask for updates
      refine ⟨by simp [hphase], m.script.pfx scriptCall, ?_⟩
      obtain ⟨new, hnew, hallowed⟩ := hstep.asks
      obtain rfl := List.append_cancel_left (hrequests.symm.trans hnew)
      have hrequest : StoreCall.update update ∈ requests := by
        cases scriptCall <;> simp only [scriptEvents] at hupdate
        case flush => split at hupdate <;> simp at hupdate
        case info => exact absurd hupdate (request_notMem_infoEvents _ _)
        all_goals simpa using hupdate
      have hupdate' := hallowed _ hrequest
      cases scriptCall with
      | add => exact hupdate'
      | set => exact hupdate'
      | _ => exact hupdate'.elim
  | iniSet => simp at hupdate
  | minfo =>
      refine absurd hupdate ?_
      simp [minfoEvents, request_notMem_infoEvents]
  | mshutdown =>
      rw [phpMshutdown] at hupdate
      dsimp only at hupdate
      split at hupdate <;> simp at hupdate

/-- The calls of a run are in order. -/
theorem inOrder_of_run (hrun : Run setup.Step m events last) :
    InOrder m.storageLife (events.map Event.output).flatten last.storageLife := by
  induction hrun with
  | nil m => exact .nil _
  | cons hstep _ ih => exact hstep.inOrder.append ih

theorem settled_of_run {g : YacGlobals} (hrun : Run setup.Step m events last)
    (hsettled : Settled g m) : Settled g last :=
  (hrun.invariant (Settled g) (fun _ _ _ _ hsettled hstep => hstep.settled hsettled) hsettled).2

end Setup

/-- Whatever is configured, whatever the scripts do and whatever they set, the storage layer
sees one session in order: started before any request, shut down after the last. Where the
cache is disabled it is asked for nothing but the name of its memory. The threshold is never
below its minimum, no update carries more bytes than it, and a compressed one stands for more
than 1024 bytes and for more than it carries. -/
theorem moduleRun_session {σ : Type} (setup : Setup σ) (w : World σ) {last : Module σ}
    {events : List (Event (Module σ) ModuleCall (List StorageEvent))}
    (hrun : Run setup.Step (Module.load w) events last) :
    InOrder .idle (events.map Event.output).flatten last.storageLife ∧
      (last.globals.enable = false →
        ∀ event ∈ (events.map Event.output).flatten, event = .sharedMemoryName) ∧
      yacMinCompressThreshold ≤ last.globals.compressThreshold ∧
      ∀ update, .request (.update update) ∈ (events.map Event.output).flatten →
        WithinFormat update ∧ update.data.length ≤ last.globals.compressThreshold.toNat ∧
          (update.flag &&& yacEntryCompressed ≠ 0 →
            1024 < origLen update.flag ∧ update.data.length < origLen update.flag) := by
  have hmin : yacMinCompressThreshold ≤ last.globals.compressThreshold :=
    (hrun.invariant (fun m => yacMinCompressThreshold ≤ m.globals.compressThreshold)
      (fun _ _ _ _ hmin hstep => hstep.min hmin) phpGinit_min).2
  have hleast : 1024 ≤ last.globals.compressThreshold.toNat := UInt64.le_iff_toNat_le.mp hmin
  -- a call of the storage layer is of a step, after which the globals that count stay
  have hstep_of : ∀ event ∈ (events.map Event.output).flatten, ∃ m call out next,
      setup.Step m call out next ∧ event ∈ out ∧ Setup.Settled next.globals last := by
    intro event hevent
    obtain ⟨out, hout, hmem⟩ := List.mem_flatten.mp hevent
    obtain ⟨e, he, rfl⟩ := List.mem_map.mp hout
    obtain ⟨pre, post, rfl⟩ := List.append_of_mem he
    obtain ⟨_, next, hstep, hpost⟩ := hrun.split
    exact ⟨_, _, _, next, hstep, hmem, Setup.settled_of_run hpost hstep.settles⟩
  refine ⟨Setup.inOrder_of_run hrun, ?_, hmin, ?_⟩
  · intro hdisabled event hevent
    obtain ⟨m, call, out, next, hstep, hmem, hsettled⟩ := hstep_of event hevent
    exact hstep.disabled (hsettled.enable.symm.trans hdisabled) event hmem
  · intro update hupdate
    obtain ⟨m, call, out, next, hstep, hmem, hsettled⟩ := hstep_of _ hupdate
    obtain ⟨hpast, pfx, hformat, hshort, _⟩ := hstep.acceptable hmem
    have hsame : Setup.Settled m.globals next := hstep.settled ⟨hpast, rfl, rfl⟩
    rw [← hsame.compressThreshold, ← hsettled.compressThreshold] at hshort
    refine ⟨hformat, ?_, fun hbit => ?_⟩
    · rcases hshort.size with hsize | hword
      · exact Nat.le_of_not_lt fun hlt => hsize (.inl hlt)
      · omega
    · obtain ⟨hlong, hlt⟩ := hshort.compressed hbit
      refine ⟨?_, hlt⟩
      rcases hlong with hlong | hlong
      · omega
      · exact Nat.lt_trans (by decide) hlong

/-- The conversions of the texts in the table of entries. -/
def tableConversions : IniConversions where
  onUpdateBool text := text = some "1"
  zendAtol text := if text = "4M" then 4194304 else if text = "-1" then -1 else 0
  zendZtol text := if text = "64M" then 67108864 else 0

/-- The cache around the store in memory, as it is built and with nothing configured. -/
def memorySetup : Setup (Key → Option Fetched) where
  build := memoryYac
  host := memoryHost
  conversions := tableConversions
  configured _ := none
  yacStorageStartup _ _ := .ok fun _ => none
  strerror := ""

/-- The module is started, a script stores a value after it tried to disable the cache, the
figures are printed, and the module is shut down. -/
theorem moduleRun_session_stored :
    ∃ (last : Module (Key → Option Fetched)) (events : List _) (update : UpdateCall),
      Run memorySetup.Step (Module.load (memoryWorld fun _ => none)) events last ∧
      events.map Event.output =
        [[.startup 4194304 67108864 true], [], [.request (.update update)],
          [.sharedMemoryName, .getInfo, .freeInfo], [.shutdown]] ∧
      InOrder .idle (events.map Event.output).flatten last.storageLife ∧
      (last.globals.enable = false →
        ∀ event ∈ (events.map Event.output).flatten, event = .sharedMemoryName) ∧
      yacMinCompressThreshold ≤ last.globals.compressThreshold ∧
      ∀ update, .request (.update update) ∈ (events.map Event.output).flatten →
        WithinFormat update ∧ update.data.length ≤ last.globals.compressThreshold.toNat ∧
          (update.flag &&& yacEntryCompressed ≠ 0 →
            1024 < origLen update.flag ∧ update.data.length < origLen update.flag) := by
  have hload := @Setup.Step.minit _ memorySetup (Module.load (memoryWorld fun _ => none)) rfl
  have hset := @Setup.Step.iniSet _ memorySetup
    (memorySetup.phpMinit (Module.load (memoryWorld fun _ => none))).2 rfl "yac.enable" "0"
  have hadd := @Script.Step.add _ (memorySetup.yac phpGinit) memoryHost
    (memorySetup.phpMinit (Module.load (memoryWorld fun _ => none))).2.script none
    [.string textC, .long 7] someLocals (by simp [Script.Knows])
  have hscript := @Setup.Step.script _ memorySetup
    (memorySetup.phpMinit (Module.load (memoryWorld fun _ => none))).2 rfl _ _ _
    [.update ⟨storageKey .empty textC, toWord 8 7, 1, 1, 0⟩] hadd rfl
  have hrun := Run.cons hload (.cons hset (.cons hscript
    (.cons (.minfo rfl) (.cons (.mshutdown rfl) (.nil _)))))
  exact ⟨_, _, _, hrun, rfl, moduleRun_session memorySetup _ hrun⟩

end McoWeb.Cache
