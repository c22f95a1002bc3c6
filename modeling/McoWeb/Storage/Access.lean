import McoWeb.Foundation.Interleave
import McoWeb.Storage.FindLaws

/-! # The lookup, access by access

The table is shared and has no lock. This is `yac_storage_find` as the program
of its accesses to shared memory: fields and key bytes of a slot are read one by
one, values byte by byte, and the counters are read and written back. Run alone it
is the lookup of the other modules.
-/

namespace McoWeb.Storage

open Foundation

namespace KeyField

def byte (field : KeyField) (i : Nat) : UInt8 := field.bytes.getD i 0

def setByte (field : KeyField) (i : Nat) (b : UInt8) : KeyField :=
  ⟨field.bytes.set i b, by rw [List.length_set, field.length_eq]⟩

/-- A local key array with the given first bytes. -/
def ofBytes (bytes : List UInt8) : KeyField :=
  ⟨(bytes ++ List.replicate yacStorageMaxKeyLen 0).take yacStorageMaxKeyLen, by
    rw [List.length_take, List.length_append, List.length_replicate]
    omega⟩

theorem ofBytes_bytes (field : KeyField) :
    ofBytes ((List.range yacStorageMaxKeyLen).map field.byte) = field := by
  have hbytes : (List.range yacStorageMaxKeyLen).map field.byte = field.bytes := by
    apply List.ext_getElem
    · rw [List.length_map, List.length_range, field.length_eq]
    · intro i _ hi
      simp [byte, hi]
  cases field with
  | mk bytes length_eq =>
      rw [hbytes]
      simp only [ofBytes, KeyField.mk.injEq]
      exact List.take_left' length_eq

theorem byte_ofBytes {bytes : List UInt8} (hlength : bytes.length = yacStorageMaxKeyLen)
    (i : Nat) : (ofBytes bytes).byte i = bytes.getD i 0 := by
  simp only [byte, ofBytes, List.take_left' hlength]

end KeyField

namespace YacStorage

/-- `p->key[i] = b`. -/
def setKeyByte (s : YacStorage) (p i : Nat) (b : UInt8) : YacStorage :=
  s.setSlot p { s.slots p with key := (s.slots p).key.setByte i b }

end YacStorage

/-- `++yac_sg(miss)`. -/
def countMissProg : Prog YacStorage Unit := do
  let miss ← Prog.read YacStorage.miss
  Prog.write fun s => { s with miss := miss + 1 }

/-- `++yac_sg(hits)`. -/
def countHitProg : Prog YacStorage Unit := do
  let hits ← Prog.read YacStorage.hits
  Prog.write fun s => { s with hits := hits + 1 }

/-- `h & yac_sg(slots_mask)`. -/
def slotIndexProg (h : UInt64) : Prog YacStorage Nat := do
  let mask ← Prog.read YacStorage.slotsMask
  pure (h &&& mask.toUInt64).toNat

/-- `k = *p`. -/
def copySlotProg (p : Nat) : Prog YacStorage YacKvKey := do
  let h ← Prog.read fun s => (s.slots p).h
  let crc ← Prog.read fun s => (s.slots p).crc
  let ttl ← Prog.read fun s => (s.slots p).ttl
  let len ← Prog.read fun s => (s.slots p).len
  let flag ← Prog.read fun s => (s.slots p).flag
  let size ← Prog.read fun s => (s.slots p).size
  let val ← Prog.read fun s => (s.slots p).val
  let bytes ← Prog.reads
    ((List.range yacStorageMaxKeyLen).map fun i s => (s.slots p).key.byte i)
  pure ⟨h, crc, ttl, len, flag, size, val, .ofBytes bytes⟩

/-- `memcpy(s, k.val->data, n)`. -/
def copyDataProg (a : ValAddr) (n : Nat) : Prog YacStorage (List UInt8) :=
  Prog.reads ((List.range n).map fun i s => (s.vals a).data i)

/-- `memcpy(p->key, key, len)`, which returns its destination. -/
def copyKeyProg (p : Nat) (key : List UInt8) : Prog YacStorage (Option Nat) := do
  Prog.writes ((List.range key.length).map fun i s => s.setKeyByte p i (key.getD i 0))
  pure (some p)

/-- `p->h == hash && yac_key_klen(*p) == len`. -/
def matchesProg (p : Nat) (key : Key) : Prog YacStorage Bool := do
  let h ← Prog.read fun s => (s.slots p).h
  if h = hashOf key.bytes then do
    let klen ← Prog.read fun s => (s.slots p).klen
    pure (decide (klen = key.len))
  else pure false

/-- The block at `do_verify`, with the local copies of a slot and of its value's length
field. -/
def verifyProg (env : StorageEnv) (call : FindCall) (p : Nat) (k : YacKvKey) (a : ValAddr)
    (len : UInt32) : Prog YacStorage FindAnswer :=
  if k.ttl = 1 ∨ k.len ≠ len then do
    countMissProg
    pure ⟨0, .refused p, call.out⟩
  else if k.ttl ≠ 0 ∧ (k.ttl.toNat : Int) ≤ call.time.toInt then do
    Prog.write fun s => s.mark p
    countMissProg
    pure ⟨0, .expired p, call.out⟩
  else do
    let bytes ← copyDataProg a k.vlen.toNat
    if k.crc ≠ (checksumOf env.crc32Tab bytes).toUInt64 then do
      countMissProg
      pure ⟨0, .corrupt p, call.out⟩
    else do
      Prog.write fun s => s.stamp a call.time
      countHitProg
      pure ⟨1, .found p, ⟨bytes ++ [0], k.vlen, k.flag⟩⟩

/-- The loop over the further probe positions. -/
def probeProg (env : StorageEnv) (call : FindCall) :
    Nat → UInt64 → Prog YacStorage (Except FindFault FindAnswer)
  | 0, _ => do
      countMissProg
      pure (.ok ⟨0, .absent, call.out⟩)
  | count + 1, h => do
      let mask ← Prog.read YacStorage.slotsMask
      let h := h + (env.yacInlineHashFunc2 call.key.bytes &&& mask.toUInt64)
      let p ← slotIndexProg h
      let matching ← matchesProg p call.key
      if matching then do
        let val ← Prog.read fun s => (s.slots p).val
        match val with
        | none => pure (.error (.nullVal p))
        | some a => do
            let len ← Prog.read fun s => (s.vals a).len
            if call.key.bytes.length ≤ yacStorageMaxKeyLen then do
              let destination ← copyKeyProg p call.key.bytes
              match destination with
              | none => do
                  let k ← copySlotProg p
                  let answer ← verifyProg env call p k a len
                  pure (.ok answer)
              | some _ => probeProg env call count h
            else pure (.error (.keyOverrun p))
      else probeProg env call count h

/-- `yac_storage_find`. -/
def findProg (env : StorageEnv) (call : FindCall) :
    Prog YacStorage (Except FindFault FindAnswer) := do
  let p ← slotIndexProg (hashOf call.key.bytes)
  let k ← copySlotProg p
  match k.val with
  | none => do
      countMissProg
      pure (.ok ⟨0, .absent, call.out⟩)
  | some a =>
      if k.h = hashOf call.key.bytes ∧ k.klen = call.key.len then do
        let len ← Prog.read fun s => (s.vals a).len
        if call.key.bytes.length ≤ yacStorageMaxKeyLen then
          if k.HoldsBytes call.key then do
            let answer ← verifyProg env call p k a len
            pure (.ok answer)
          else probeProg env call 3 (hashOf call.key.bytes)
        else pure (.error (.keyOverrun p))
      else probeProg env call 3 (hashOf call.key.bytes)

/-! ## The lookup alone -/

section

variable (env : StorageEnv) (s : YacStorage) (call : FindCall)

@[simp] theorem exec_countMissProg : countMissProg.exec s = ((), s.countMiss) := rfl

@[simp] theorem exec_countHitProg : countHitProg.exec s = ((), s.countHit) := rfl

@[simp] theorem exec_slotIndexProg (h : UInt64) :
    (slotIndexProg h).exec s = (s.slotIndex h, s) := rfl

@[simp] theorem exec_copySlotProg (p : Nat) : (copySlotProg p).exec s = (s.slots p, s) := by
  have hkey : KeyField.ofBytes ((List.range yacStorageMaxKeyLen).map fun i =>
      (s.slots p).key.byte i) = (s.slots p).key := (s.slots p).key.ofBytes_bytes
  simp [copySlotProg, Function.comp_def, hkey]

@[simp] theorem exec_copyDataProg (a : ValAddr) (n : Nat) :
    (copyDataProg a n).exec s = ((s.vals a).read n, s) := by
  simp [copyDataProg, YacKvVal.read, Function.comp_def]

@[simp] theorem exec_matchesProg (p : Nat) (key : Key) :
    (matchesProg p key).exec s = (decide (s.Matches key p), s) := by
  have hexec : (matchesProg p key).exec s =
      (if (s.slots p).h = hashOf key.bytes then do
        let klen ← Prog.read fun s => (s.slots p).klen
        pure (decide (klen = key.len))
      else pure false : Prog YacStorage Bool).exec s := rfl
  rw [hexec]
  by_cases hhash : (s.slots p).h = hashOf key.bytes
  · rw [if_pos hhash]
    refine Prod.ext (decide_eq_decide.mpr ?_) rfl
    exact ⟨fun hklen => ⟨hhash, hklen⟩, And.right⟩
  · rw [if_neg hhash]
    refine Prod.ext ?_ rfl
    exact (decide_eq_false fun hmatch => hhash hmatch.1).symm

/-- A byte more of the key is in place. -/
theorem set_take_append_drop (key bytes : List UInt8) {n : Nat} (hn : n < key.length)
    (hfits : key.length ≤ bytes.length) :
    (key.take n ++ bytes.drop n).set n (key.getD n 0) =
      key.take (n + 1) ++ bytes.drop (n + 1) := by
  have hlen : (key.take n).length = n := by
    rw [List.length_take]
    omega
  have hdrop : bytes.drop n = bytes[n] :: bytes.drop (n + 1) := List.drop_eq_getElem_cons (by omega)
  have hget : key.getD n 0 = key[n] := by simp [hn]
  rw [List.set_append_right _ _ (Nat.le_of_eq hlen), hlen, Nat.sub_self, hdrop, List.set_cons_zero,
    hget, ← List.take_append_getElem hn, List.append_assoc, List.singleton_append]

/-- Copying byte by byte, from the first byte on. -/
theorem foldl_setKeyByte (p : Nat) (key : List UInt8) (hfits : key.length ≤ yacStorageMaxKeyLen)
    (n : Nat) (hn : n ≤ key.length) :
    ∃ field : KeyField, field.bytes = key.take n ++ (s.slots p).key.bytes.drop n ∧
      ((List.range n).map fun i (s : YacStorage) => s.setKeyByte p i (key.getD i 0)).foldl
        (fun s effect => effect s) s = s.setSlot p { s.slots p with key := field } := by
  induction n with
  | zero =>
      refine ⟨(s.slots p).key, rfl, ?_⟩
      simp [YacStorage.setSlot]
  | succ n ih =>
      obtain ⟨field, hbytes, hfold⟩ := ih (Nat.le_of_succ_le hn)
      refine ⟨field.setByte n (key.getD n 0), ?_, ?_⟩
      · change field.bytes.set n _ = _
        rw [hbytes]
        exact set_take_append_drop key _ hn (by rwa [(s.slots p).key.length_eq])
      · rw [List.range_succ, List.map_append, List.foldl_append, hfold]
        simp [YacStorage.setKeyByte, YacStorage.setSlot]

@[simp] theorem exec_copyKeyProg (p : Nat) (key : List UInt8)
    (hfits : key.length ≤ yacStorageMaxKeyLen) :
    (copyKeyProg p key).exec s = s.memcpyKey p key hfits := by
  obtain ⟨field, hbytes, hfold⟩ := foldl_setKeyByte s p key hfits key.length (Nat.le_refl _)
  have hfield : field = (s.slots p).key.overwrite key hfits := by
    cases field with
    | mk bytes length_eq =>
        simp only [KeyField.overwrite, KeyField.mk.injEq]
        rw [show bytes = _ from hbytes, List.take_length]
  simp only [copyKeyProg, Prog.exec_bind, Prog.exec_writes, Prog.exec_pure, hfold, hfield]
  rfl

theorem exec_verifyProg (p : Nat) (k : YacKvKey) (a : ValAddr) (v : YacKvVal) :
    (verifyProg env call p k a v.len).exec s = doVerify env s call p k a v := by
  unfold verifyProg doVerify
  dsimp only
  split
  next => rfl
  next =>
    split
    next => rfl
    next =>
      rw [Prog.exec_bind, exec_copyDataProg]
      split
      next => rfl
      next => rfl

theorem probeProg_performs (count : Nat) (h : UInt64) :
    (probeProg env call count h).Performs s (probe env call count h s) := by
  induction count generalizing h s with
  | zero => rfl
  | succ count ih =>
      have hindex : (h + (env.yacInlineHashFunc2 call.key.bytes &&& s.slotsMask.toUInt64)) =
          h + s.probeStep env call.key := rfl
      by_cases hmatch : s.Matches call.key (s.slotIndex (h + s.probeStep env call.key))
      · cases hval : (s.slots (s.slotIndex (h + s.probeStep env call.key))).val with
        | none =>
            rw [probe_succ_of_blocked env call count h s ⟨hmatch, .inl hval⟩]
            simp [Prog.Performs, probeProg, hindex, hmatch, hval, probeFault]
        | some a =>
            by_cases hfits : call.key.bytes.length ≤ yacStorageMaxKeyLen
            · rw [probe_succ_of_fits env call count h s hmatch (by simp [hval]) hfits]
              refine Prog.Performs.of_exec_eq ?_ (ih _ _)
              simp [probeProg, hindex, hmatch, hval, hfits, YacStorage.memcpyKey]
            · rw [probe_succ_of_blocked env call count h s ⟨hmatch, .inr hfits⟩]
              simp [Prog.Performs, probeProg, hindex, hmatch, hval, hfits, probeFault]
      · rw [probe_succ_of_not_matches env call count h s hmatch]
        refine Prog.Performs.of_exec_eq ?_ (ih _ _)
        simp [probeProg, hindex, hmatch]

/-- Alone on a table, the accesses of a lookup are the lookup. -/
theorem findProg_performs : (findProg env call).Performs s (yacStorageFind env s call) := by
  have hprimary : s.slotIndex (hashOf call.key.bytes) = s.primary call.key := rfl
  unfold yacStorageFind
  dsimp only
  cases hval : (s.slots (s.primary call.key)).val with
  | none => simp [Prog.Performs, findProg, hprimary, hval, findAbsent]
  | some a =>
      have hprobe := probeProg_performs env s call 3 (hashOf call.key.bytes)
      dsimp only
      split
      next hmatch =>
        obtain ⟨hhash, hklen⟩ := hmatch
        split
        next hfits =>
          split
          next hholds =>
            have hverify := exec_verifyProg env s call (s.primary call.key)
              (s.slots (s.primary call.key)) a (s.vals a)
            simp [Prog.Performs, findProg, hprimary, hval, hhash, hklen, hfits, hholds, hverify]
          next hholds =>
            refine Prog.Performs.of_exec_eq ?_ hprobe
            simp [findProg, hprimary, hval, hhash, hklen, hfits, hholds]
        next hfits => simp [Prog.Performs, findProg, hprimary, hval, hhash, hklen, hfits]
      next hmatch =>
        refine Prog.Performs.of_exec_eq ?_ hprobe
        have hdiffers : ¬ ((s.slots (s.primary call.key)).h = hashOf call.key.bytes ∧
            (s.slots (s.primary call.key)).klen = call.key.len) := hmatch
        simp [findProg, hprimary, hval, hdiffers]

end

end McoWeb.Storage
