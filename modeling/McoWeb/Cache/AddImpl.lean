import McoWeb.Cache.Address
import McoWeb.Cache.World
import McoWeb.Foundation.Run

/-! # Storing

`yac_add_impl`, a switch over the type of the value with seven calls of
`yac_storage_update`, and `yac_add_multi_impl`, the loop over an array. What a
store can do is said once, by `AddOutcome`.
-/

namespace McoWeb.Cache

open Foundation Storage

/-- The key text of an array element: `spprintf(&key, 0, "%lu", idx)` for an
integer key. -/
def HashKey.text : HashKey → PhpString
  | .string key => key
  | .long idx => -- an unsigned conversion for a signed index
      ⟨unsignedDecimal idx.toUInt64.toNat, unsignedDecimal_length_lt idx.toUInt64⟩

/-- The machine word that the scalar types are stored as. -/
def Zval.word : Zval → Option (List UInt8)
  | .null => some (toWord 4 Zval.null.type.toUInt32.toNat)
  | .bool lval | .long lval => some (toWord 8 lval.toUInt64.toNat)
  | .double dval => some (toWord 8 dval.toNat)
  | _ => none

/-- The types stored as a machine word. -/
def Zval.Scalar : Zval → Prop
  | .null | .bool _ | .long _ | .double _ => True
  | _ => False

instance : DecidablePred Zval.Scalar
  | .null | .bool _ | .long _ | .double _ => .isTrue trivial
  | .array _ | .object _ _ | .string _ | .resource _ | .constant _ | .constantArray _
  | .other _ _ _ => .isFalse id

namespace Yac

variable {σ : Type} (yac : Yac σ) (w : World σ)

/-- The body that the strings and the serialized values share: store the bytes,
compressed if they are over the limit. Their warnings for a value that is too
long differ. -/
def updateBytes (key : Key) (bytes : List UInt8) (flag : UInt32) (tooLong : String)
    (ttl add : Int32) : Int32 × World σ :=
  if overLimit yac.compressThreshold bytes.length then
    if yacEntryMaxOrigLen < bytes.length then (0, w.warn tooLong)
    else
      let compressed := yac.fastlz.compress bytes
      if compressed.length = 0 ∨ bytes.length < compressed.length then
        (0, w.warn "Compression failed")
      else if overLimit yac.compressThreshold compressed.length then (0, w.warn tooLong)
      else
        yac.yacStorageUpdate w key compressed (compressedFlag flag bytes.length) ttl add
  else yac.yacStorageUpdate w key bytes flag ttl add

/-- The body for arrays and objects: serialize the value and store the result. -/
def updatePacked (key : Key) (value : Zval) (flag : UInt32) (ttl add : Int32) :
    Int32 × World σ :=
  match yac.serializer.pack value with
  | some buf => yac.updateBytes w key buf flag "Value is too big to be stored" ttl add
  | none => (0, w.warn "Serialization failed")

/-- `yac_add_impl`. -/
def yacAddImpl (pfx key : PhpString) (value : Zval) (ttl add : Int32) : Int32 × World σ :=
  let flag := value.type.toUInt32
  if KeyTooLong pfx key then (0, w.warn (keyTooLongText "key" pfx))
  else
    let key := storageKey pfx key
    match value with
    -- the scalar calls pass `add, ttl` where `ttl, add` is declared
    | .null => yac.yacStorageUpdate w key (toWord 4 flag.toNat) flag add ttl
    | .bool lval => yac.yacStorageUpdate w key (toWord 8 lval.toUInt64.toNat) flag add ttl
    | .long lval => yac.yacStorageUpdate w key (toWord 8 lval.toUInt64.toNat) flag add ttl
    | .double dval => yac.yacStorageUpdate w key (toWord 8 dval.toNat) flag add ttl
    | .string str | .constant str =>
        yac.updateBytes w key str.bytes flag
          ("Value is too long(" ++ toString str.length ++ " bytes) to be stored") ttl add
    | .array _ | .constantArray _ | .object _ _ =>
        yac.updatePacked w key value flag ttl add
    | .resource _ => (0, w.warn "Type 'is_resource' cannot be stored")
    | .other _ _ _ =>
        -- the argument of `%d` is inside the quotes
        (0, w.warn ("Unsupported valued type to be stored '" ++
          toString yac.engine.missingArgument.toInt ++ "', flag"))

/-- The loop of `yac_add_multi_impl`, from an element on. -/
def yacAddElements (pfx : PhpString) (ttl add : Int32) :
    List (HashKey × Zval) → World σ → Int32 × World σ
  | [], w => (1, w)
  | (key, value) :: rest, w =>
      let (ret, w) := yac.yacAddImpl w pfx key.text value ttl add
      if ret ≠ 0 then yacAddElements pfx ttl add rest w else (0, w)

/-- `yac_add_multi_impl`. -/
def yacAddMultiImpl (pfx : PhpString) (kvs : Zval) (ttl add : Int32) : Int32 × World σ :=
  yac.yacAddElements pfx ttl add kvs.arrval w

/-- The bytes of a value that has no fixed size, before compression. -/
def payload : Zval → Option (List UInt8)
  | .string str | .constant str => some str.bytes
  | .array ht => yac.serializer.pack (.array ht)
  | .constantArray ht => yac.serializer.pack (.constantArray ht)
  | .object ce properties => yac.serializer.pack (.object ce properties)
  | _ => none

/-- The data and the flag word a value is stored as. -/
inductive Encodes : Zval → List UInt8 → UInt32 → Prop
  | word {value : Zval} {bytes : List UInt8} (hword : value.word = some bytes) :
      Encodes value bytes value.type.toUInt32
  | plain {value : Zval} {bytes : List UInt8} (hpayload : yac.payload value = some bytes)
      (hshort : ¬ overLimit yac.compressThreshold bytes.length) :
      Encodes value bytes value.type.toUInt32
  | compressed {value : Zval} {bytes : List UInt8} (hpayload : yac.payload value = some bytes)
      (hlong : overLimit yac.compressThreshold bytes.length)
      (hmax : bytes.length ≤ yacEntryMaxOrigLen)
      (hcompress : yac.fastlz.compress bytes ≠ [])
      (hshort : ¬ overLimit yac.compressThreshold (yac.fastlz.compress bytes).length) :
      Encodes value (yac.fastlz.compress bytes)
        (compressedFlag value.type.toUInt32 bytes.length)

/-- Everything a store of one value can do. The last two parameters of the update
change places between the scalar types and the others. -/
inductive AddOutcome (pfx key : PhpString) (value : Zval) (ttl add : Int32) :
    Int32 × World σ → Prop
  | refused (warning : String) (hrefused : KeyTooLong pfx key ∨ ¬ value.Scalar) :
      AddOutcome pfx key value ttl add (0, w.warn warning)
  | scalar {data : List UInt8} {flag : UInt32} (haccepted : ¬ KeyTooLong pfx key)
      (hscalar : value.Scalar) (hencodes : yac.Encodes value data flag) :
      AddOutcome pfx key value ttl add
        (yac.yacStorageUpdate w (storageKey pfx key) data flag add ttl)
  | sized {data : List UInt8} {flag : UInt32} (haccepted : ¬ KeyTooLong pfx key)
      (hsized : ¬ value.Scalar) (hencodes : yac.Encodes value data flag) :
      AddOutcome pfx key value ttl add
        (yac.yacStorageUpdate w (storageKey pfx key) data flag ttl add)

variable {yac w} {pfx key : PhpString} {value : Zval} {ttl add : Int32}

theorem updateBytes_outcome {bytes : List UInt8} (tooLong : String)
    (haccepted : ¬ KeyTooLong pfx key) (hsized : ¬ value.Scalar)
    (hpayload : yac.payload value = some bytes) :
    AddOutcome yac w pfx key value ttl add
      (yac.updateBytes w (storageKey pfx key) bytes value.type.toUInt32 tooLong ttl add) := by
  unfold updateBytes
  split
  next hlong =>
    split
    next => exact .refused tooLong (.inr hsized)
    next hmax =>
      dsimp only
      split
      next => exact .refused _ (.inr hsized)
      next hcompress =>
        split
        next => exact .refused tooLong (.inr hsized)
        next hshort =>
          have hnonempty : yac.fastlz.compress bytes ≠ [] := fun hnil =>
            hcompress (.inl (by rw [hnil]; rfl))
          exact .sized haccepted hsized
            (.compressed hpayload hlong (Nat.le_of_not_lt hmax) hnonempty hshort)
  next hshort => exact .sized haccepted hsized (.plain hpayload hshort)

theorem updatePacked_outcome (haccepted : ¬ KeyTooLong pfx key) (hsized : ¬ value.Scalar)
    (hpayload : yac.payload value = yac.serializer.pack value) :
    AddOutcome yac w pfx key value ttl add
      (yac.updatePacked w (storageKey pfx key) value value.type.toUInt32 ttl add) := by
  unfold updatePacked
  split
  next buf hpack => exact updateBytes_outcome _ haccepted hsized (hpayload.trans hpack)
  next => exact .refused _ (.inr hsized)

variable (yac w pfx key value ttl add)

theorem yacAddImpl_outcome :
    AddOutcome yac w pfx key value ttl add (yac.yacAddImpl w pfx key value ttl add) := by
  unfold yacAddImpl
  split
  next hlong => exact .refused _ (.inl hlong)
  next haccepted =>
    cases value with
    | null => exact .scalar haccepted trivial (.word rfl)
    | bool lval => exact .scalar haccepted trivial (.word rfl)
    | long lval => exact .scalar haccepted trivial (.word rfl)
    | double dval => exact .scalar haccepted trivial (.word rfl)
    | string str => exact updateBytes_outcome _ haccepted id rfl
    | constant str => exact updateBytes_outcome _ haccepted id rfl
    | array ht => exact updatePacked_outcome haccepted id rfl
    | constantArray ht => exact updatePacked_outcome haccepted id rfl
    | object ce properties => exact updatePacked_outcome haccepted id rfl
    | resource handle => exact .refused _ (.inr id)
    | other type unlisted member => exact .refused _ (.inr id)

/-- The store makes this update, and nothing else. -/
def Stores (call : UpdateCall) : Prop :=
  (yac.yacAddImpl w pfx key value ttl add).2.requests = w.requests ++ [.update call]

variable {yac w pfx key value ttl add}

theorem yacStorageUpdate_stores_iff {k : Key} {data : List UInt8} {flag : UInt32}
    {first second : Int32} {call : UpdateCall} :
    (yac.yacStorageUpdate w k data flag first second).2.requests =
        w.requests ++ [.update call] ↔ call = ⟨k, data, flag, first, second⟩ := by
  simp [eq_comm]

theorem Stores.carried {call : UpdateCall}
    (hstores : yac.Stores w pfx key value ttl add call) :
    ¬ KeyTooLong pfx key ∧ call.key = storageKey pfx key ∧
      yac.Encodes value call.data call.flag ∧
      (value.Scalar ∧ call.ttl = add ∧ call.add = ttl ∨
        ¬ value.Scalar ∧ call.ttl = ttl ∧ call.add = add) := by
  have houtcome := yacAddImpl_outcome yac w pfx key value ttl add
  unfold Stores at hstores
  generalize yac.yacAddImpl w pfx key value ttl add = result at houtcome hstores
  cases houtcome with
  | refused warning hrefused => simp at hstores
  | scalar haccepted hscalar hencodes =>
      obtain rfl := yacStorageUpdate_stores_iff.mp hstores
      exact ⟨haccepted, rfl, hencodes, .inl ⟨hscalar, rfl, rfl⟩⟩
  | sized haccepted hsized hencodes =>
      obtain rfl := yacStorageUpdate_stores_iff.mp hstores
      exact ⟨haccepted, rfl, hencodes, .inr ⟨hsized, rfl, rfl⟩⟩

/-- A call makes one update, or it leaves the store alone, which it never does to a scalar
under a key that is short enough. -/
theorem refused_or_stores (yac : Yac σ) (w : World σ) (pfx key : PhpString) (value : Zval)
    (ttl add : Int32) :
    ((KeyTooLong pfx key ∨ ¬ value.Scalar) ∧
        (yac.yacAddImpl w pfx key value ttl add).2.requests = w.requests) ∨
      ∃ call, yac.Stores w pfx key value ttl add call := by
  have houtcome := yacAddImpl_outcome yac w pfx key value ttl add
  unfold Stores
  generalize yac.yacAddImpl w pfx key value ttl add = result at houtcome
  cases houtcome with
  | refused _ hrefused => exact .inl ⟨hrefused, rfl⟩
  | scalar => exact .inr ⟨_, rfl⟩
  | sized => exact .inr ⟨_, rfl⟩

theorem yacAddImpl_requests :
    (yac.yacAddImpl w pfx key value ttl add).2.requests = w.requests ∨
      ∃ call, yac.Stores w pfx key value ttl add call :=
  (refused_or_stores yac w pfx key value ttl add).imp_left And.right

theorem exists_stores_of_scalar (w : World σ) (ttl add : Int32)
    (haccepted : ¬ KeyTooLong pfx key) (hscalar : value.Scalar) :
    ∃ call, yac.Stores w pfx key value ttl add call := by
  rcases refused_or_stores yac w pfx key value ttl add with ⟨hrefused, _⟩ | hstores
  · exact absurd hscalar (hrefused.resolve_left haccepted)
  · exact hstores

variable (yac w pfx key value ttl add)

/-- One store of a key and a value, as a step of the world. -/
def SingleStore (pfx : PhpString) (ttl add : Int32) (w : World σ) (element : PhpString × Zval)
    (ret : Int32) (next : World σ) : Prop :=
  yac.yacAddImpl w pfx element.1 element.2 ttl add = (ret, next)

/-- A sequence of single stores in order, up to the first that returns 0, and
whether none did. -/
structure StoresInOrder (pfx : PhpString) (ttl add : Int32) (w : World σ)
    (elements : List (PhpString × Zval))
    (events : List (Event (World σ) (PhpString × Zval) Int32)) (allStored : Prop)
    (last : World σ) : Prop where
  run : Run (yac.SingleStore pfx ttl add) w events last
  stops : StopsAtFailure (fun ret => ret = 0) elements events
  allStored_iff : allStored ↔ ∀ e ∈ events, e.output ≠ 0

theorem yacAddElements_cons (key : HashKey) (value : Zval) (rest : List (HashKey × Zval))
    {ret : Int32} {next : World σ}
    (hstore : yac.SingleStore pfx ttl add w (key.text, value) ret next) :
    yac.yacAddElements pfx ttl add ((key, value) :: rest) w =
      if ret ≠ 0 then yac.yacAddElements pfx ttl add rest next else (0, next) := by
  rw [yacAddElements, show yac.yacAddImpl w pfx key.text value ttl add = (ret, next) from hstore]

theorem yacAddElements_storesInOrder (ht : List (HashKey × Zval)) (w : World σ) :
    ∃ events, yac.StoresInOrder pfx ttl add w (ht.map fun e => (e.1.text, e.2)) events
      ((yac.yacAddElements pfx ttl add ht w).1 = 1) (yac.yacAddElements pfx ttl add ht w).2 := by
  induction ht generalizing w with
  | nil => exact ⟨[], .nil w, .nil, by simp [yacAddElements]⟩
  | cons element rest ih =>
      obtain ⟨key, value⟩ := element
      obtain ⟨ret, next, hstore⟩ : ∃ ret next,
          yac.SingleStore pfx ttl add w (key.text, value) ret next := ⟨_, _, rfl⟩
      rw [yac.yacAddElements_cons w pfx ttl add key value rest hstore]
      by_cases hret : ret = 0
      · rw [if_neg (not_not.mpr hret)]
        refine ⟨_, .cons hstore (.nil next), .fail w (key.text, value) _ hret, ?_⟩
        simp [hret]
      · rw [if_pos hret]
        obtain ⟨events, hrun, hstops, hall⟩ := ih next
        refine ⟨_, .cons hstore hrun, .pass w (key.text, value) hret hstops, ?_⟩
        simp [hall, hret]

theorem yacAddElements_ret (ht : List (HashKey × Zval)) (w : World σ) :
    (yac.yacAddElements pfx ttl add ht w).1 = 0 ∨
      (yac.yacAddElements pfx ttl add ht w).1 = 1 := by
  induction ht generalizing w with
  | nil => exact .inr rfl
  | cons element rest ih =>
      obtain ⟨key, value⟩ := element
      obtain ⟨ret, next, hstore⟩ : ∃ ret next,
          yac.SingleStore pfx ttl add w (key.text, value) ret next := ⟨_, _, rfl⟩
      rw [yac.yacAddElements_cons w pfx ttl add key value rest hstore]
      split
      next => exact ih next
      next => exact .inl rfl

end Yac

end McoWeb.Cache
