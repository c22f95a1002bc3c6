import McoWeb.Cache.ArrayCalls
import McoWeb.Cache.EntryFormat

/-! # Scripts

A script makes cache objects and calls their methods or the functions of the same names.
An object is its prefix, which the constructor sets; a function is
a method without an object. Every request that the store receives comes from one
of these calls, and is for an address under the prefix of its object.
-/

namespace McoWeb.Cache

open Foundation Storage

/-- `yac_storage_info`. -/
structure YacStorageInfo where
  kMsize : UInt64
  vMsize : UInt64
  segmentNum : UInt32
  segmentSize : UInt32
  slotsNum : UInt32
  slotsSize : UInt32
  miss : UInt32
  fails : UInt32
  kicks : UInt32
  hits : UInt64

/-- The `add_assoc_long` calls of `Yac::info`, in order. -/
def YacStorageInfo.entries (inf : YacStorageInfo) : List (PhpString × Zval) :=
  [(⟨ascii "memory_size", by decide⟩, .long (inf.kMsize + inf.vMsize).toInt64),
    (⟨ascii "slots_memory_size", by decide⟩, .long inf.kMsize.toInt64),
    (⟨ascii "values_memory_size", by decide⟩, .long inf.vMsize.toInt64),
    (⟨ascii "segment_size", by decide⟩, .long inf.segmentSize.toUInt64.toInt64),
    (⟨ascii "segment_num", by decide⟩, .long inf.segmentNum.toUInt64.toInt64),
    (⟨ascii "segment_num", by decide⟩, .long inf.segmentNum.toUInt64.toInt64),
    (⟨ascii "miss", by decide⟩, .long inf.miss.toUInt64.toInt64),
    (⟨ascii "hits", by decide⟩, .long inf.hits.toInt64),
    (⟨ascii "fails", by decide⟩, .long inf.fails.toUInt64.toInt64),
    (⟨ascii "kicks", by decide⟩, .long inf.kicks.toUInt64.toInt64),
    (⟨ascii "slots_size", by decide⟩, .long inf.slotsSize.toUInt64.toInt64),
    (⟨ascii "slots_used", by decide⟩, .long inf.slotsNum.toUInt64.toInt64)]

/-- What the methods beside the implementation functions use from outside: the `s` conversion
of an argument, `yac_storage_flush` and `yac_storage_get_info`. -/
structure Host (σ : Type) where
  parseString : Zval → Option PhpString
  flush : σ → σ
  getInfo : σ → YacStorageInfo

namespace Yac

variable {σ : Type} (yac : Yac σ) (host : Host σ)

/-- `Yac::__construct`, on an object with a prefix: the prefix after it. -/
def yacConstruct (pfx : PhpString) (args : List Zval) : PhpString :=
  if yac.enable = false then pfx
  else
    match args with
    | [arg] =>
        match host.parseString arg with
        | some str => if str.length = 0 then pfx else str
        | none => pfx
    | _ => pfx -- no argument leaves the length 0; more are refused

/-- `Yac::flush`. -/
def yacFlush (w : World σ) : Zval × World σ :=
  if yac.enable = false then (.bool 0, w) else (.bool 1, { w with store := host.flush w.store })

/-- `Yac::info`. -/
def yacInfo (w : World σ) : Zval :=
  if yac.enable = false then .bool 0
  else .array (yac.engine.assoc (host.getInfo w.store).entries)

end Yac

/-- A call that a script makes. `this` is the object of a method and absent for a
function. -/
inductive ScriptCall
  | construct (handle : Nat) (args : List Zval)
  | add (this : Option Nat) (args : List Zval) (locals : Locals)
  | set (this : Option Nat) (args : List Zval) (locals : Locals)
  | get (this : Option Nat) (args : List Zval) (locals : Locals)
  | delete (this : Option Nat) (args : List Zval) (locals : Locals)
  | flush (this : Option Nat)
  | info (this : Option Nat)

/-- The world, and the prefixes of the objects that there are. -/
structure Script (σ : Type) where
  world : World σ
  objects : Nat → Option PhpString

namespace Script

variable {σ : Type}

/-- The prefix property of the object that a method is called on. -/
def readPfx (s : Script σ) (this : Option Nat) : Option PhpString := this.bind s.objects

/-- The call is on an object that there is, or on none. -/
def Knows (s : Script σ) (this : Option Nat) : Prop := ∀ handle, this = some handle →
  (s.objects handle).isSome

/-- One call of a script. The property of a new object is empty before its constructor
runs. -/
inductive Step (yac : Yac σ) (host : Host σ) : Script σ → ScriptCall → Zval → Script σ → Prop
  | construct (s : Script σ) (handle : Nat) (args : List Zval) :
      Step yac host s (.construct handle args) .null
        { s with
          objects := Function.update s.objects handle
            (some (yac.yacConstruct host ((s.objects handle).getD .empty) args)) }
  | add (s : Script σ) {this : Option Nat} (args : List Zval) (locals : Locals)
      (hthis : s.Knows this) :
      Step yac host s (.add this args locals)
        (yac.yacAdd s.world (s.readPfx this) args locals).1
        { s with world := (yac.yacAdd s.world (s.readPfx this) args locals).2 }
  | set (s : Script σ) {this : Option Nat} (args : List Zval) (locals : Locals)
      (hthis : s.Knows this) :
      Step yac host s (.set this args locals)
        (yac.yacSet s.world (s.readPfx this) args locals).1
        { s with world := (yac.yacSet s.world (s.readPfx this) args locals).2 }
  | get (s : Script σ) {this : Option Nat} (args : List Zval) (locals : Locals)
      (hthis : s.Knows this) :
      Step yac host s (.get this args locals)
        (yac.yacGet s.world (s.readPfx this) args locals).1
        { s with world := (yac.yacGet s.world (s.readPfx this) args locals).2 }
  | delete (s : Script σ) {this : Option Nat} (args : List Zval) (locals : Locals)
      (hthis : s.Knows this) {ret : Zval} {w : World σ}
      (hdelete : yac.yacDelete s.world (s.readPfx this) args locals = .ok (ret, w)) :
      Step yac host s (.delete this args locals) ret { s with world := w }
  | flush (s : Script σ) {this : Option Nat} (hthis : s.Knows this) :
      Step yac host s (.flush this) (yac.yacFlush host s.world).1
        { s with world := (yac.yacFlush host s.world).2 }
  | info (s : Script σ) {this : Option Nat} (hthis : s.Knows this) :
      Step yac host s (.info this) (yac.yacInfo host s.world) s

/-- The prefix that a call works under. -/
def pfx (s : Script σ) : ScriptCall → PhpString
  | .construct _ _ => .empty
  | .add this _ _ | .set this _ _ | .get this _ _ | .delete this _ _ | .flush this
  | .info this => (s.readPfx this).getD .empty

end Script

/-- An address under a prefix, within the limit of the store. -/
structure Addressed (pfx : PhpString) (address : Key) : Prop where
  length_le : address.bytes.length ≤ yacStorageMaxKeyLen
  formed : ∃ key, ¬ KeyTooLong pfx key ∧ storageKey pfx key = address

/-- The length that a flag word keeps of the uncompressed data. -/
def origLen (flag : UInt32) : Nat := (flag >>> yacEntryOrigLenShit).toNat

/-- An update carries no more bytes than the threshold allows, unless it is a word, and where
it is compressed it stands for more bytes than that, and for more than it carries. -/
structure KeptShort (compressThreshold : UInt64) (call : UpdateCall) : Prop where
  size : ¬ overLimit compressThreshold call.data.length ∨ call.data.length ≤ 8
  compressed : call.flag &&& yacEntryCompressed ≠ 0 →
    overLimit compressThreshold (origLen call.flag) ∧ call.data.length < origLen call.flag

/-- An update as the store can keep it: within its format, as short as the threshold says,
and under a prefix. -/
structure Acceptable (compressThreshold : UInt64) (pfx : PhpString) (call : UpdateCall) :
    Prop where
  withinFormat : WithinFormat call
  keptShort : KeptShort compressThreshold call
  addressed : Addressed pfx call.key

/-- The requests that a call may make: updates for `add` and `set`, lookups for `get` and
deletions for `delete`, under the prefix of the call. -/
def Allowed (compressThreshold : UInt64) (pfx : PhpString) : ScriptCall → StoreCall → Prop
  | .add _ _ _, .update call => Acceptable compressThreshold pfx call
  | .set _ _ _, .update call => Acceptable compressThreshold pfx call
  | .get _ _ _, .find address => Addressed pfx address
  | .delete _ _ _, .delete address _ => Addressed pfx address
  | _, _ => False

/-- The requests of a world are those of an earlier one and some that are allowed. -/
def Asks {σ : Type} (allowed : StoreCall → Prop) (w w' : World σ) : Prop :=
  ∃ new, w'.requests = w.requests ++ new ∧ ∀ request ∈ new, allowed request

namespace Asks

variable {σ : Type} {allowed : StoreCall → Prop} {w w' w'' : World σ}

theorem of_same (hsame : w'.requests = w.requests) : Asks allowed w w' :=
  ⟨[], by rw [hsame, List.append_nil], by simp⟩

theorem of_one {request : StoreCall} (hone : w'.requests = w.requests ++ [request])
    (hallowed : allowed request) : Asks allowed w w' :=
  ⟨[request], hone, by simpa using hallowed⟩

theorem trans (hfirst : Asks allowed w w') (hsecond : Asks allowed w' w'') :
    Asks allowed w w'' := by
  obtain ⟨new, hnew, hall⟩ := hfirst
  obtain ⟨new', hnew', hall'⟩ := hsecond
  refine ⟨new ++ new', by rw [hnew', hnew, List.append_assoc], ?_⟩
  intro request hrequest
  rcases List.mem_append.mp hrequest with hmem | hmem
  · exact hall request hmem
  · exact hall' request hmem

end Asks

theorem Zval.length_word_le (value : Zval) {bytes : List UInt8} (hword : value.word = some bytes) :
    bytes.length ≤ 8 := by
  cases value <;> cases hword <;> simp

theorem overLimit.lt {compressThreshold : UInt64} {m n : Nat}
    (hlong : overLimit compressThreshold n) (hshort : ¬ overLimit compressThreshold m) : m < n := by
  unfold overLimit at hlong hshort
  omega

theorem Addressed.of_accepted {pfx key : PhpString} (haccepted : ¬ KeyTooLong pfx key) :
    Addressed pfx (storageKey pfx key) :=
  ⟨length_storageKey_le haccepted, key, haccepted, rfl⟩

namespace Yac

variable {σ : Type} (yac : Yac σ)

/-! ## The requests of the implementation functions -/

variable {yac} in
theorem Encodes.keptShort {value : Zval} {data : List UInt8} {flag : UInt32} (key : Key)
    (ttl add : Int32) (hencodes : yac.Encodes value data flag) :
    KeptShort yac.compressThreshold ⟨key, data, flag, ttl, add⟩ := by
  have hplain := hencodes.storable.type_plain
  have htype := hencodes.storable.type_lt
  cases hencodes with
  | word hword => exact ⟨.inr (value.length_word_le hword), fun hbit => absurd hplain hbit⟩
  | plain hpayload hshort => exact ⟨.inl hshort, fun hbit => absurd hplain hbit⟩
  | @compressed bytes hpayload hlong hmax hcompress hshort =>
      have horig : origLen (compressedFlag value.type.toUInt32 bytes.length) = bytes.length :=
        compressedFlag_origLen htype hmax
      refine ⟨.inl hshort, fun _ => ?_⟩
      rw [horig]
      exact ⟨hlong, hlong.lt hshort⟩

variable {yac} in
theorem Stores.acceptable {w : World σ} {pfx key : PhpString} {value : Zval} {ttl add : Int32}
    {call : UpdateCall} (hstores : yac.Stores w pfx key value ttl add call) :
    Acceptable yac.compressThreshold pfx call := by
  obtain ⟨haccepted, hkey, hencodes, _⟩ := hstores.carried
  refine ⟨hstores.withinFormat, hencodes.keptShort call.key call.ttl call.add, ?_⟩
  rw [hkey]
  exact .of_accepted haccepted

theorem yacAddImpl_asks (w : World σ) (pfx key : PhpString) (value : Zval) (ttl add : Int32)
    {allowed : StoreCall → Prop}
    (hallowed : ∀ call, Acceptable yac.compressThreshold pfx call → allowed (.update call)) :
    Asks allowed w (yac.yacAddImpl w pfx key value ttl add).2 := by
  rcases @yacAddImpl_requests σ yac w pfx key value ttl add with hsame | ⟨call, hstores⟩
  · exact .of_same hsame
  · exact .of_one hstores (hallowed call hstores.acceptable)

theorem invokeAdd_asks (w : World σ) (pfx : PhpString) (call : AddCall)
    {allowed : StoreCall → Prop}
    (hallowed : ∀ call, Acceptable yac.compressThreshold pfx call → allowed (.update call)) :
    Asks allowed w (yac.invokeAdd w pfx call).2 := by
  obtain ⟨events, hstores⟩ := yac.invokeAdd_storesInOrder w pfx call
  refine (hstores.run.invariant (Asks allowed w) ?_ (.of_same rfl)).2
  intro s element ret next hasks hstep
  have hone := yac.yacAddImpl_asks s pfx element.1 element.2 call.ttl call.add hallowed
  rw [show yac.yacAddImpl s pfx element.1 element.2 call.ttl call.add = (ret, next)
    from hstep] at hone
  exact hasks.trans hone

theorem yacGetImpl_asks (w : World σ) (pfx key : PhpString) {allowed : StoreCall → Prop}
    (hallowed : ∀ address, Addressed pfx address → allowed (.find address)) :
    Asks allowed w (yac.yacGetImpl w pfx key).2 := by
  by_cases hlong : KeyTooLong pfx key
  · rw [yacGetImpl, if_pos hlong]
    exact .of_same rfl
  · exact .of_one (yac.yacGetImpl_requests w hlong) (hallowed _ (.of_accepted hlong))

theorem yacGetElements_asks (w : World σ) (pfx copy : PhpString) (ht : List (HashKey × Zval))
    {allowed : StoreCall → Prop}
    (hallowed : ∀ address, Addressed pfx address → allowed (.find address)) :
    Asks allowed w (yac.yacGetElements pfx copy ht w).2 := by
  induction ht generalizing w with
  | nil => exact .of_same rfl
  | cons element rest ih =>
      obtain ⟨index, value⟩ := element
      exact (yac.yacGetImpl_asks w pfx (yac.engine.keyText value copy) hallowed).trans (ih _)

theorem invokeGet_asks (w : World σ) (pfx copy : PhpString) (call : GetCall)
    {allowed : StoreCall → Prop}
    (hallowed : ∀ address, Addressed pfx address → allowed (.find address)) :
    Asks allowed w (yac.invokeGet w pfx copy call).2 := by
  cases call with
  | single key => exact yac.yacGetImpl_asks (w.enter _) pfx key hallowed
  | multi keys => exact yac.yacGetElements_asks (w.enter _) pfx copy keys.arrval hallowed

variable {yac}

theorem yacDeleteImpl_asks {w next : World σ} {pfx : PhpString} {key : KeyPointer} {ttl : Int32}
    {allowed : StoreCall → Prop}
    (hallowed : ∀ address ttl, Addressed pfx address → allowed (.delete address ttl))
    (hdelete : yac.yacDeleteImpl w pfx key ttl = .ok next) : Asks allowed w next := by
  unfold yacDeleteImpl at hdelete
  split at hdelete
  next =>
    obtain rfl := Except.ok.inj hdelete
    exact .of_same rfl
  next haccepted =>
    cases key with
    | string key =>
        obtain rfl := Except.ok.inj hdelete
        exact .of_one rfl (hallowed _ ttl (.of_accepted haccepted))
    | lengthTwice key =>
        dsimp only at hdelete
        split at hdelete
        next hempty =>
          obtain rfl := Except.ok.inj hdelete
          have haccepted' : ¬ KeyTooLong pfx .empty := by
            rw [keyTooLong_iff, hempty.1]
            decide
          exact .of_one rfl (hallowed _ ttl (.of_accepted haccepted'))
        next => cases hdelete

theorem yacDeleteElements_asks {w next : World σ} {pfx copy : PhpString} {ttl : Int32}
    {ht : List (HashKey × Zval)} {allowed : StoreCall → Prop}
    (hallowed : ∀ address ttl, Addressed pfx address → allowed (.delete address ttl))
    (hdelete : yac.yacDeleteElements pfx copy ttl ht w = .ok next) : Asks allowed w next := by
  induction ht generalizing w with
  | nil =>
      obtain rfl := Except.ok.inj hdelete
      exact .of_same rfl
  | cons element rest ih =>
      obtain ⟨index, value⟩ := element
      unfold yacDeleteElements at hdelete
      dsimp only at hdelete
      split at hdelete
      next => cases hdelete
      next middle hfirst => exact (yacDeleteImpl_asks hallowed hfirst).trans (ih hdelete)

theorem invokeDelete_asks {w next : World σ} {pfx copy : PhpString} {call : DeleteCall}
    {allowed : StoreCall → Prop}
    (hallowed : ∀ address ttl, Addressed pfx address → allowed (.delete address ttl))
    (hdelete : yac.invokeDelete w pfx copy call = .ok next) : Asks allowed w next := by
  cases call with
  | single key ttl => exact yacDeleteImpl_asks (w := w.enter _) hallowed hdelete
  | multi keys ttl => exact yacDeleteElements_asks (w := w.enter _) hallowed hdelete

end Yac

end McoWeb.Cache
