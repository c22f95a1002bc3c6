import McoWeb.Cache.Entry

/-! # The world of a cache call

The storage layer seen from `yac.c`: a store with a state of its own that
answers the three calls as it likes. The world around it keeps what can be
observed of a call: the requests the store received, the warnings raised, and
which implementation functions the methods called.
-/

namespace McoWeb.Cache

open Foundation Storage

/-- What a hit of `yac_storage_find` hands back. The bytes are as many as a packed
length field can say. -/
structure Fetched where
  data : List UInt8
  flag : UInt32
  size_lt : data.length < 2 ^ 24

/-- The arguments of `yac_storage_update`, in the declared order; `len` and `size`
are those of the bytes. -/
structure UpdateCall where
  key : Key
  data : List UInt8
  flag : UInt32
  ttl : Int32
  add : Int32

/-- A request as the store receives it. -/
inductive StoreCall
  | update (call : UpdateCall)
  | find (key : Key)
  | delete (key : Key) (ttl : Int32)

/-- A storage layer with states in `σ`. -/
structure Store (σ : Type) where
  update : UpdateCall → σ → Int32 × σ
  find : Key → σ → Option Fetched × σ
  delete : Key → Int32 → σ → σ

/-- A call of `yac_add_impl` or `yac_add_multi_impl`, without its prefix. -/
inductive AddCall
  | single (key : PhpString) (value : Zval) (ttl add : Int32)
  | multi (kvs : Zval) (ttl add : Int32)

/-- A call of `yac_get_impl` or `yac_get_multi_impl`, without its prefix. -/
inductive GetCall
  | single (key : PhpString)
  | multi (keys : Zval)

/-- A call of `yac_delete_impl` or `yac_delete_multi_impl`, without its prefix. -/
inductive DeleteCall
  | single (key : PhpString) (ttl : Int32)
  | multi (keys : Zval) (ttl : Int32)

/-- A call that a method makes of an implementation function, with the object's
prefix. -/
inductive ImplCall
  | add (pfx : PhpString) (call : AddCall)
  | get (pfx : PhpString) (call : GetCall)
  | delete (pfx : PhpString) (call : DeleteCall)

/-- The store's state and the observations so far, oldest first. -/
structure World (σ : Type) where
  store : σ
  requests : List StoreCall
  warnings : List String
  entered : List ImplCall

namespace World

variable {σ : Type} (w : World σ)

/-- `php_error_docref(NULL, E_WARNING, …)`. -/
def warn (warning : String) : World σ := { w with warnings := w.warnings ++ [warning] }

/-- A method returns early, with a warning of its own or the engine's. -/
def refuse (warning : Option String) : World σ := warning.elim w w.warn

/-- A method calls an implementation function. -/
def enter (call : ImplCall) : World σ := { w with entered := w.entered ++ [call] }

@[simp] theorem warn_requests (warning : String) : (w.warn warning).requests = w.requests := rfl

end World

/-- The module as it is built and configured, and the store behind it. -/
structure Yac (σ : Type) where
  enable : Bool
  compressThreshold : UInt64
  engine : Engine
  fastlz : FastLz
  serializer : Serializer
  store : Store σ

namespace Yac

variable {σ : Type} (yac : Yac σ) (w : World σ)

/-- `yac_storage_update(key, len, data, size, flag, ttl, add)`. -/
def yacStorageUpdate (key : Key) (data : List UInt8) (flag : UInt32) (ttl add : Int32) :
    Int32 × World σ :=
  let call : UpdateCall := ⟨key, data, flag, ttl, add⟩
  let (ret, store) := yac.store.update call w.store
  (ret, { w with store := store, requests := w.requests ++ [.update call] })

/-- `yac_storage_find`. -/
def yacStorageFind (key : Key) : Option Fetched × World σ :=
  let (found, store) := yac.store.find key w.store
  (found, { w with store := store, requests := w.requests ++ [.find key] })

/-- `yac_storage_delete(key, len, ttl)`. -/
def yacStorageDelete (key : Key) (ttl : Int32) : World σ :=
  { w with
    store := yac.store.delete key ttl w.store
    requests := w.requests ++ [.delete key ttl] }

@[simp] theorem yacStorageUpdate_requests (key : Key) (data : List UInt8) (flag : UInt32)
    (ttl add : Int32) : (yac.yacStorageUpdate w key data flag ttl add).2.requests =
      w.requests ++ [.update ⟨key, data, flag, ttl, add⟩] := rfl

end Yac

end McoWeb.Cache
