import McoWeb.Foundation.Run
import McoWeb.Storage.Checksum
import McoWeb.Storage.Table

/-! # Looking a key up

`yac_storage_find`, with its probe loop and the verification block that both the
primary position and the loop enter. Reading through a null value pointer and
comparing or copying a key past the key field of a slot are faults. Every exit
of the function is labelled, with the slot it verified, so that the outcome of a
call can be talked about afterwards.
-/

namespace McoWeb.Storage

/-- What the lookup uses from outside the repository: the secondary hash, an
arbitrary function of the key and its length, and the checksum table. -/
structure StorageEnv where
  yacInlineHashFunc2 : List UInt8 → UInt64
  crc32Tab : UInt8 → UInt32

/-- The out parameters `*data`, `*size` and `*flag`. -/
structure FindOut where
  data : List UInt8
  size : UInt32
  flag : UInt32
deriving DecidableEq

/-- One call: the key, what `time(NULL)` reads during it, and the values the
caller left in the out parameters. -/
structure FindCall where
  key : Key
  time : Int64
  out : FindOut

/-- A memory error that ends a call: `p->val` is null when it is read, or the
key is longer than the field it is compared with or copied to. -/
inductive FindFault
  | nullVal (p : Nat)
  | keyOverrun (p : Nat)
deriving DecidableEq

/-- The exits of the function. All but the last return 0. -/
inductive FindExit
  | absent
  | refused (p : Nat)
  | expired (p : Nat)
  | corrupt (p : Nat)
  | found (p : Nat)
deriving DecidableEq

/-- The return value, the exit it was returned from, and the out parameters. -/
structure FindAnswer where
  ret : Nat
  exit : FindExit
  out : FindOut
deriving DecidableEq

namespace YacStorage

/-- `memcpy(p->key, key, len)`, which returns its destination. -/
def memcpyKey (s : YacStorage) (p : Nat) (key : List UInt8)
    (hfits : key.length ≤ yacStorageMaxKeyLen) : Option Nat × YacStorage :=
  (some p, s.setSlot p { s.slots p with key := (s.slots p).key.overwrite key hfits })

/-- `seed & slots_mask`, the distance between probe positions. -/
def probeStep (s : YacStorage) (env : StorageEnv) (key : Key) : UInt64 :=
  env.yacInlineHashFunc2 key.bytes &&& s.slotsMask.toUInt64

/-- The primary position of a key. -/
def primary (s : YacStorage) (key : Key) : Nat := s.slotIndex (hashOf key.bytes)

/-- The two stored fields that are compared before the key bytes. -/
def Matches (s : YacStorage) (key : Key) (p : Nat) : Prop :=
  (s.slots p).h = hashOf key.bytes ∧ (s.slots p).klen = key.len

instance (s : YacStorage) (key : Key) (p : Nat) : Decidable (s.Matches key p) :=
  inferInstanceAs (Decidable (_ ∧ _))

end YacStorage

/-- `!memcmp(k.key, key, len)`. -/
def YacKvKey.HoldsBytes (k : YacKvKey) (key : Key) : Prop :=
  k.key.bytes.take key.bytes.length = key.bytes

instance (k : YacKvKey) (key : Key) : Decidable (k.HoldsBytes key) :=
  inferInstanceAs (Decidable (_ = _))

/-- The common miss at the end of the function. -/
def findAbsent (s : YacStorage) (call : FindCall) : FindAnswer × YacStorage :=
  (⟨0, .absent, call.out⟩, s.countMiss)

/-- The block at `do_verify`, entered with the slot pointer `p`, the local copy
`k` of a slot, its value pointer and the local copy of the value's header. -/
def doVerify (env : StorageEnv) (s : YacStorage) (call : FindCall) (p : Nat) (k : YacKvKey)
    (a : ValAddr) (v : YacKvVal) : FindAnswer × YacStorage :=
  if k.ttl = 1 ∨ k.len ≠ v.len then
    (⟨0, .refused p, call.out⟩, s.countMiss)
  else if k.ttl ≠ 0 ∧ (k.ttl.toNat : Int) ≤ call.time.toInt then
    (⟨0, .expired p, call.out⟩, (s.setSlot p { s.slots p with ttl := 1 }).countMiss)
  else
    let bytes := (s.vals a).read k.vlen.toNat
    if k.crc ≠ (checksumOf env.crc32Tab bytes).toUInt64 then
      (⟨0, .corrupt p, call.out⟩, s.countMiss)
    else
      (⟨1, .found p, ⟨bytes ++ [0], k.vlen, k.flag⟩⟩,
        (s.setVal a { s.vals a with atime := call.time.toUInt64 }).countHit)

/-- The loop over the further probe positions, `count` of them from the hash
value `h` on. The test of the copy's result decides whether the loop is left for
`do_verify`. -/
def probe (env : StorageEnv) (call : FindCall) :
    Nat → UInt64 → YacStorage → Except FindFault (FindAnswer × YacStorage)
  | 0, _, s => .ok (findAbsent s call)
  | count + 1, h, s =>
      let h := h + s.probeStep env call.key
      let p := s.slotIndex h
      if s.Matches call.key p then
        match (s.slots p).val with
        | none => .error (.nullVal p)
        | some a =>
            let v := s.vals a
            if hfits : call.key.bytes.length ≤ yacStorageMaxKeyLen then
              match s.memcpyKey p call.key.bytes hfits with
              | (none, s) => .ok (doVerify env s call p (s.slots p) a v)
              | (some _, s) => probe env call count h s
            else .error (.keyOverrun p)
      else probe env call count h s

/-- `yac_storage_find`. -/
def yacStorageFind (env : StorageEnv) (s : YacStorage) (call : FindCall) :
    Except FindFault (FindAnswer × YacStorage) :=
  let p := s.primary call.key
  let k := s.slots p
  match k.val with
  | none => .ok (findAbsent s call)
  | some a =>
      if s.Matches call.key p then
        let v := s.vals a
        if call.key.bytes.length ≤ yacStorageMaxKeyLen then
          if k.HoldsBytes call.key then .ok (doVerify env s call p k a v)
          else probe env call 3 (hashOf call.key.bytes) s
        else .error (.keyOverrun p)
      else probe env call 3 (hashOf call.key.bytes) s

/-- A run of lookups, each in the table the one before it left. -/
def findRun (env : StorageEnv) (s : YacStorage) (calls : List FindCall) :
    Except FindFault (List (Foundation.Event YacStorage FindCall FindAnswer) × YacStorage) :=
  Foundation.execute (yacStorageFind env) s calls

end McoWeb.Storage
