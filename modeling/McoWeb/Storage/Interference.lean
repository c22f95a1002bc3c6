import McoWeb.Storage.Access
import McoWeb.Storage.Hits

/-! # Lookups without a lock

Nothing keeps processes from reading and writing the table at the same time. What
a lookup returns is checked against its own copy of a slot. So whatever is written in
between, the data it returns was read from memory byte by byte, and has the checksum,
the length and the key of a copy that was read field by field.
-/

namespace McoWeb.Storage

open Foundation

/-- A copy of a slot, field by field and byte by byte as one of the memories shows it. -/
structure CopiedFrom (met : List YacStorage) (p : Nat) (k : YacKvKey) : Prop where
  h : ∃ m ∈ met, k.h = (m.slots p).h
  crc : ∃ m ∈ met, k.crc = (m.slots p).crc
  ttl : ∃ m ∈ met, k.ttl = (m.slots p).ttl
  len : ∃ m ∈ met, k.len = (m.slots p).len
  flag : ∃ m ∈ met, k.flag = (m.slots p).flag
  size : ∃ m ∈ met, k.size = (m.slots p).size
  val : ∃ m ∈ met, k.val = (m.slots p).val
  key : ∀ i < yacStorageMaxKeyLen, ∃ m ∈ met, k.key.byte i = (m.slots p).key.byte i

/-- The bytes of a value, each from the next of the memories. -/
def bytesFrom (met : List YacStorage) (a : ValAddr) : List UInt8 :=
  met.mapIdx fun i m => (m.vals a).data i

/-- A hit as its reader can vouch for it: all its checks, on one copy of a slot and the bytes
that were read. -/
structure CheckedHit (env : StorageEnv) (call : FindCall) (out : FindOut) (k : YacKvKey)
    (bytes : List UInt8) : Prop where
  hash : k.h = hashOf call.key.bytes
  klen : k.klen = call.key.len
  fits : call.key.bytes.length ≤ yacStorageMaxKeyLen
  holds : k.HoldsBytes call.key
  unmarked : k.ttl ≠ 1
  unexpired : k.ttl ≠ 0 → call.time.toInt < k.ttl.toNat
  length : bytes.length = k.vlen.toNat
  checksum : k.crc = (checksumOf env.crc32Tab bytes).toUInt64
  data : out.data = bytes ++ [0]
  size : out.size = k.vlen
  flag : out.flag = k.flag

/-- A hit made of what its lookup met in memory: the mask at the first access, which gives the
position, then a copy of the slot there, then the length in the header of its value, which is
that of the copy, and then the value byte by byte. -/
def VouchedHit (env : StorageEnv) (call : FindCall) (met : List YacStorage) (out : FindOut) :
    Prop :=
  ∃ (first header : YacStorage) (slot value rest : List YacStorage) (k : YacKvKey) (a : ValAddr),
    met = first :: (slot ++ header :: (value ++ rest)) ∧
    CopiedFrom slot (first.primary call.key) k ∧ k.val = some a ∧ k.len = (header.vals a).len ∧
    CheckedHit env call out k (bytesFrom value a)

/-- The copy returns its destination, whatever is in memory. -/
theorem copyKeyProg_returns {inv : YacStorage → Prop} {p : Nat} {key : List UInt8}
    (hwrites : (Prog.writes ((List.range key.length).map fun i (s : YacStorage) =>
      s.setKeyByte p i (key.getD i 0))).Keeps inv fun _ => True) :
    (copyKeyProg p key).Keeps inv fun destination => destination = some p :=
  .bind hwrites fun _ _ => .pure rfl

section

variable {env : StorageEnv} {call : FindCall} {met : List YacStorage}

/-- Reads of the positions of a list find, at each position, what the next memory shows. -/
theorem zipWith_range {α : Type} (read : Nat → YacStorage → α) (n : Nat)
    (hlength : met.length = n) :
    ((List.range n).map read).zipWith (fun f m => f m) met = met.mapIdx read := by
  subst hlength
  apply List.ext_getElem
  · simp
  · intro i _ _
    simp

theorem copyDataProg_meets {a : ValAddr} {n : Nat} {bytes : List UInt8}
    (hmeets : (copyDataProg a n).Meets met bytes) :
    met.length = n ∧ bytes = bytesFrom met a := by
  obtain ⟨hlength, rfl⟩ := Prog.meets_reads.mp hmeets
  rw [List.length_map, List.length_range] at hlength
  exact ⟨hlength, zipWith_range (fun i m => (m.vals a).data i) n hlength⟩

theorem copySlotProg_meets {p : Nat} {k : YacKvKey} (hmeets : (copySlotProg p).Meets met k) :
    CopiedFrom met p k := by
  simp only [copySlotProg, Prog.meets_bind, Prog.meets_read, Prog.meets_pure,
    Prog.meets_reads] at hmeets
  obtain ⟨_, _, _, rfl, ⟨m₁, rfl, rfl⟩, _, _, _, rfl, ⟨m₂, rfl, rfl⟩, _, _, _, rfl,
    ⟨m₃, rfl, rfl⟩, _, _, _, rfl, ⟨m₄, rfl, rfl⟩, _, _, _, rfl, ⟨m₅, rfl, rfl⟩, _, _, _, rfl,
    ⟨m₆, rfl, rfl⟩, _, _, _, rfl, ⟨m₇, rfl, rfl⟩, keyMet, _, _, rfl, ⟨hlength, rfl⟩, rfl, rfl⟩ :=
    hmeets
  rw [List.length_map, List.length_range] at hlength
  refine ⟨⟨m₁, by simp, rfl⟩, ⟨m₂, by simp, rfl⟩, ⟨m₃, by simp, rfl⟩, ⟨m₄, by simp, rfl⟩,
    ⟨m₅, by simp, rfl⟩, ⟨m₆, by simp, rfl⟩, ⟨m₇, by simp, rfl⟩, ?_⟩
  intro i hi
  have hi' : i < keyMet.length := by rwa [hlength]
  refine ⟨keyMet[i], by simp, ?_⟩
  dsimp only
  rw [zipWith_range (fun i m => (m.slots p).key.byte i) _ hlength,
    KeyField.byte_ofBytes (by rw [List.length_mapIdx]; exact hlength)]
  simp [hi']

theorem verifyProg_meets {p : Nat} {k : YacKvKey} {a : ValAddr} {len : UInt32}
    {answer : FindAnswer} (hmeets : (verifyProg env call p k a len).Meets met answer) :
    answer.ret = 0 ∧ answer.out = call.out ∨ answer.ret = 1 ∧ k.ttl ≠ 1 ∧ k.len = len ∧
      (k.ttl ≠ 0 → call.time.toInt < k.ttl.toNat) ∧ ∃ value rest, met = value ++ rest ∧
        value.length = k.vlen.toNat ∧
        k.crc = (checksumOf env.crc32Tab (bytesFrom value a)).toUInt64 ∧
        answer.out = ⟨bytesFrom value a ++ [0], k.vlen, k.flag⟩ := by
  unfold verifyProg at hmeets
  split at hmeets
  next =>
    simp only [Prog.meets_bind, Prog.meets_pure] at hmeets
    obtain ⟨_, _, _, _, _, _, rfl⟩ := hmeets
    exact .inl ⟨rfl, rfl⟩
  next hrefused =>
    split at hmeets
    next =>
      simp only [Prog.meets_bind, Prog.meets_pure] at hmeets
      obtain ⟨_, _, _, _, _, _, _, _, _, _, _, rfl⟩ := hmeets
      exact .inl ⟨rfl, rfl⟩
    next hexpired =>
      obtain ⟨value, rest, _, rfl, hcopy, hchecked⟩ := Prog.meets_bind.mp hmeets
      obtain ⟨hlength, rfl⟩ := copyDataProg_meets hcopy
      split at hchecked
      next =>
        simp only [Prog.meets_bind, Prog.meets_pure] at hchecked
        obtain ⟨_, _, _, _, _, _, rfl⟩ := hchecked
        exact .inl ⟨rfl, rfl⟩
      next hcrc =>
        simp only [Prog.meets_bind, Prog.meets_pure] at hchecked
        obtain ⟨_, _, _, _, _, _, _, _, _, _, _, rfl⟩ := hchecked
        refine .inr ⟨rfl, fun hmark => hrefused (.inl hmark), ?_, fun hne => ?_, value, rest, rfl,
          hlength, not_not.mp hcrc, rfl⟩
        · by_contra hne
          exact hrefused (.inr hne)
        · by_contra hle
          exact hexpired ⟨hne, by omega⟩

/-- The loop over the probe positions never returns data, whatever it reads. -/
theorem probeProg_meets {count : Nat} {h : UInt64} {answer : FindAnswer}
    (hmeets : (probeProg env call count h).Meets met (.ok answer)) :
    answer.ret = 0 ∧ answer.out = call.out := by
  induction count generalizing h met with
  | zero =>
      simp only [probeProg, Prog.meets_bind, Prog.meets_pure, Except.ok.injEq] at hmeets
      obtain ⟨_, _, _, _, _, _, rfl⟩ := hmeets
      exact ⟨rfl, rfl⟩
  | succ count ih =>
      simp only [probeProg, Prog.meets_bind] at hmeets
      obtain ⟨_, _, mask, _, _, _, _, p, _, _, _, _, matching, _, _, hrest⟩ := hmeets
      split at hrest
      next =>
        obtain ⟨_, _, val, _, _, hrest⟩ := Prog.meets_bind.mp hrest
        cases val with
        | none => cases hrest.2
        | some a =>
            obtain ⟨_, _, len, _, _, hrest⟩ := Prog.meets_bind.mp hrest
            split at hrest
            next =>
              -- the copy returns its destination, so the loop goes on
              obtain ⟨_, _, destination, _, hcopy, hrest⟩ := Prog.meets_bind.mp hrest
              obtain ⟨_, _, _, _, _, _, rfl⟩ := Prog.meets_bind.mp hcopy
              exact ih hrest
            next => cases hrest.2
      next => exact ih hrest

theorem findProg_meets {answer : FindAnswer}
    (hmeets : (findProg env call).Meets met (.ok answer)) :
    answer.ret = 0 ∧ answer.out = call.out ∨
      answer.ret = 1 ∧ VouchedHit env call met answer.out := by
  obtain ⟨_, _, p, rfl, hindex, hmeets⟩ := Prog.meets_bind.mp hmeets
  obtain ⟨_, _, mask, rfl, hmask, hindex⟩ := Prog.meets_bind.mp hindex
  obtain ⟨first, rfl, rfl⟩ := Prog.meets_read.mp hmask
  obtain ⟨rfl, rfl⟩ := hindex
  obtain ⟨slot, _, k, rfl, hcopy, hmeets⟩ := Prog.meets_bind.mp hmeets
  have hcopied := copySlotProg_meets hcopy
  cases hval : k.val with
  | none =>
      simp only [hval, Prog.meets_bind, Prog.meets_pure, Except.ok.injEq] at hmeets
      obtain ⟨_, _, _, _, _, _, rfl⟩ := hmeets
      exact .inl ⟨rfl, rfl⟩
  | some a =>
      simp only [hval] at hmeets
      split at hmeets
      next hmatch =>
        obtain ⟨_, _, len, rfl, hlen, hmeets⟩ := Prog.meets_bind.mp hmeets
        obtain ⟨header, rfl, rfl⟩ := Prog.meets_read.mp hlen
        split at hmeets
        next hfits =>
          split at hmeets
          next hholds =>
            obtain ⟨_, _, found, rfl, hverify, rfl, heq⟩ := Prog.meets_bind.mp hmeets
            obtain rfl := Except.ok.inj heq
            rcases verifyProg_meets hverify with hmiss |
              ⟨hret, hmark, hlen, hlive, value, rest, rfl, hlength, hcrc, hout⟩
            · exact .inl hmiss
            · have hbytes : (bytesFrom value a).length = k.vlen.toNat := by
                rw [bytesFrom, List.length_mapIdx, hlength]
              have hchecked : CheckedHit env call found.out k (bytesFrom value a) := by
                rw [hout]
                exact ⟨hmatch.1, hmatch.2, hfits, hholds, hmark, hlive, hbytes, hcrc, rfl, rfl, rfl⟩
              refine .inr ⟨hret, first, header, slot, value, rest, k, a, ?_, hcopied, hval, hlen,
                hchecked⟩
              simp
          next => exact .inl (probeProg_meets hmeets)
        next => cases hmeets.2
      next => exact .inl (probeProg_meets hmeets)

end

/-- A pool of lookups that start on one table. -/
def lookups {ι : Type} (env : StorageEnv) (calls : ι → FindCall) (s : YacStorage) :
    Pool YacStorage ι (Except FindFault FindAnswer) :=
  ⟨s, fun i => findProg env (calls i)⟩

/-- In any interleaving of any lookups with each other and with arbitrary writes to the
table in between, a lookup that has returned either missed, and left its out
parameters alone, or returned data that it read from memory, byte by byte, and that passes
every check on a copy of its primary slot that it read before. -/
theorem lookups_vouched {ι : Type} [DecidableEq ι] (env : StorageEnv) (calls : ι → FindCall)
    (s : YacStorage) (last : Pool YacStorage ι (Except FindFault FindAnswer))
    (events : List (Event (Pool YacStorage ι (Except FindFault FindAnswer)) (Option ι) Unit))
    (hrun : Run (Pool.Step fun _ _ => True) (lookups env calls s) events last) :
    ∀ i answer, last.programs i = .ret (.ok answer) →
      answer.ret = 0 ∧ answer.out = (calls i).out ∨
        answer.ret = 1 ∧ VouchedHit env (calls i) (Pool.met i events) answer.out := by
  intro i answer hreturned
  exact findProg_meets (Pool.run_meets hrun hreturned)

/-- Two lookups of one key, one of which reads a later clock. -/
def pairCalls : Bool → FindCall
  | false => ⟨keyB, 50, ⟨[], 0, 0⟩⟩
  | true => ⟨keyB, 100, ⟨[], 0, 0⟩⟩

/-- The two lookups in turn, access by access, after a start of the later one. -/
def pairSchedule (start : Nat) : List Bool :=
  List.replicate start true ++ (List.replicate 64 [false, true]).flatten

set_option maxRecDepth 100000 in
theorem lookups_vouched_pair : ∃ events last,
    Run (Pool.Step fun _ _ => True) (lookups oddEnv pairCalls tableWithB) events last ∧
      last.programs false = .ret (.ok ⟨1, .found 0, ⟨[0], 0, 6⟩⟩) ∧
      VouchedHit oddEnv (pairCalls false) (Pool.met false events) ⟨[0], 0, 6⟩ := by
  obtain ⟨events, hrun⟩ := Pool.exists_run_schedule (fun _ _ => True) (pairSchedule 0)
    (lookups oddEnv pairCalls tableWithB)
  have hreturned : ((pairSchedule 0).foldl Pool.advance
      (lookups oddEnv pairCalls tableWithB)).programs false =
        .ret (.ok ⟨1, .found 0, ⟨[0], 0, 6⟩⟩) := rfl
  refine ⟨events, _, hrun, hreturned, ?_⟩
  have hvouched := lookups_vouched oddEnv pairCalls tableWithB _ events hrun false _ hreturned
  exact (hvouched.resolve_left (by simp)).2

end McoWeb.Storage
