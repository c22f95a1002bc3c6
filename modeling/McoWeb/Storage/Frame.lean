import McoWeb.Storage.NullSafety

/-! # What a lookup leaves unchanged

A lookup should only count itself, bury an expired entry and stamp the value it
returns. It does so unless a probe position shows the key's hash and length over
other key bytes: there the copy that stands where a comparison was meant
replaces the stored key.
-/

namespace McoWeb.Storage

/-- The stored data of a table is as before: expiry marks aside every slot is
the same, access times aside every value is, and only the outcome is counted. -/
structure ReadOnly (s : YacStorage) (call : FindCall) (answer : FindAnswer)
    (s' : YacStorage) : Prop where
  slot_eq : ∀ p, s'.slots p = { s.slots p with ttl := (s'.slots p).ttl }
  slot_ttl : ∀ p, (s'.slots p).ttl = (s.slots p).ttl ∨
    (answer.exit = .expired p ∧ (s.slots p).ttl ≠ 0 ∧
      ((s.slots p).ttl.toNat : Int) ≤ call.time.toInt ∧ (s'.slots p).ttl = 1)
  val_eq : ∀ a, s'.vals a = { s.vals a with atime := (s'.vals a).atime }
  val_atime : ∀ a, (s'.vals a).atime = (s.vals a).atime ∨
    ∃ p, answer.exit = .found p ∧ (s.slots p).val = some a ∧
      (s'.vals a).atime = call.time.toUInt64
  counters : (answer.ret = 1 ∧ s'.hits = s.hits + 1 ∧ s'.miss = s.miss) ∨
    (answer.ret = 0 ∧ s'.hits = s.hits ∧ s'.miss = s.miss + 1)
  globals : s'.slotsMask = s.slotsMask ∧ s'.slotsNum = s.slotsNum ∧
    s'.slotsSize = s.slotsSize ∧ s'.fails = s.fails ∧ s'.kicks = s.kicks

/-- The lookup goes past its primary position and meets a probe slot that shows
the key's hash and length but holds other key bytes. -/
def ProbesForeignKey (env : StorageEnv) (s : YacStorage) (key : Key) : Prop :=
  s.Probing key ∧
    ∃ p ∈ s.probes env key, s.Matches key p ∧ ¬ (s.slots p).HoldsBytes key

/-- The return value and the out parameters of a call that completes. -/
def completedAnswer (result : Except FindFault (FindAnswer × YacStorage)) :
    Option (Nat × FindOut) :=
  match result with
  | .error _ => none
  | .ok (answer, _) => some (answer.ret, answer.out)

namespace YacStorage

/-- Where no probed slot holds a foreign key, claiming the probed slots changes
nothing. -/
theorem claimSlots_eq_self (s : YacStorage) (env : StorageEnv) (key : Key)
    (hprobing : s.Probing key) (hforeign : ¬ ProbesForeignKey env s key) :
    s.claimSlots key (s.probes env key) = s := by
  have hslots : (s.claimSlots key (s.probes env key)).slots = s.slots := by
    funext p
    simp only [claimSlots]
    split_ifs with hfits hclaimed
    · have hholds : (s.slots p).HoldsBytes key := by
        by_contra hne
        exact hforeign ⟨hprobing, p, hclaimed.1, hclaimed.2, hne⟩
      rw [(KeyField.overwrite_eq_self_iff _ _ hfits).mpr hholds]
    · rfl
    · rfl
  simp only [claimSlots] at hslots ⊢
  rw [hslots]

theorem claimSlots_key_ne (s : YacStorage) (key : Key) (positions : List Nat) {p : Nat}
    (hfits : key.bytes.length ≤ yacStorageMaxKeyLen) (hp : p ∈ positions)
    (hmatch : s.Matches key p) (hforeign : ¬ (s.slots p).HoldsBytes key) :
    ((s.claimSlots key positions).slots p).key ≠ (s.slots p).key := by
  simp only [claimSlots, dif_pos hfits, if_pos (And.intro hp hmatch)]
  exact fun heq => hforeign ((KeyField.overwrite_eq_self_iff _ _ hfits).mp heq)

end YacStorage

theorem countMiss_readOnly (s : YacStorage) (call : FindCall) (exit : FindExit) :
    ReadOnly s call ⟨0, exit, call.out⟩ s.countMiss where
  slot_eq _ := rfl
  slot_ttl _ := .inl rfl
  val_eq _ := rfl
  val_atime _ := .inl rfl
  counters := .inr ⟨rfl, rfl, rfl⟩
  globals := ⟨rfl, rfl, rfl, rfl, rfl⟩

theorem VerifyOutcome.readOnly {env : StorageEnv} {s s' : YacStorage} {call : FindCall} {p : Nat}
    {a : ValAddr} {answer : FindAnswer} (houtcome : VerifyOutcome env s call p a (answer, s'))
    (hval : (s.slots p).val = some a) : ReadOnly s call answer s' := by
  cases houtcome with
  | refused _ => exact countMiss_readOnly s call _
  | corrupt _ _ _ _ => exact countMiss_readOnly s call _
  | expired _ _ hne hle =>
      refine ⟨?_, ?_, fun _ => rfl, fun _ => .inl rfl, .inr ⟨rfl, rfl, rfl⟩,
        ⟨rfl, rfl, rfl, rfl, rfl⟩⟩
      · intro q
        by_cases hqp : q = p
        · subst hqp
          simp
        · simp [Function.update_of_ne hqp]
      · intro q
        by_cases hqp : q = p
        · subst hqp
          exact .inr ⟨rfl, hne, hle, by simp⟩
        · exact .inl (by simp [Function.update_of_ne hqp])
  | found _ _ _ _ =>
      refine ⟨fun _ => rfl, fun _ => .inl rfl, ?_, ?_, .inl ⟨rfl, rfl, rfl⟩,
        ⟨rfl, rfl, rfl, rfl, rfl⟩⟩
      · intro b
        by_cases hba : b = a
        · subst hba
          simp
        · simp [Function.update_of_ne hba]
      · intro b
        by_cases hba : b = a
        · subst hba
          exact .inr ⟨p, rfl, hval, by simp⟩
        · exact .inl (by simp [Function.update_of_ne hba])

/-- A completed lookup is read-only exactly when it meets no foreign key. -/
theorem yacStorageFind_readOnly_iff (env : StorageEnv) (s s' : YacStorage) (call : FindCall)
    (answer : FindAnswer) (hfind : yacStorageFind env s call = .ok (answer, s')) :
    ReadOnly s call answer s' ↔ ¬ ProbesForeignKey env s call.key := by
  rcases yacStorageFind_completed hfind with
    ⟨hempty, heq⟩ | ⟨a, hverifies, houtcome⟩ | ⟨hprobing, hall, heq⟩
  · obtain ⟨rfl, rfl⟩ := Prod.mk.inj heq
    exact iff_of_true (countMiss_readOnly s call .absent) fun hforeign => hforeign.1.1 hempty
  · exact iff_of_true (houtcome.readOnly hverifies.val_eq)
      fun hforeign => hforeign.1.2 ⟨hverifies.hash_len, hverifies.holds⟩
  · obtain ⟨rfl, rfl⟩ := Prod.mk.inj heq
    constructor
    · rintro hread ⟨_, p, hp, hmatch, hne⟩
      have hfits : call.key.bytes.length ≤ yacStorageMaxKeyLen := by
        by_contra hlong
        exact hall p hp ⟨hmatch, .inr hlong⟩
      have hkey := congrArg YacKvKey.key (hread.slot_eq p)
      exact s.claimSlots_key_ne call.key _ hfits hp hmatch hne hkey
    · intro hforeign
      rw [s.claimSlots_eq_self env call.key hprobing hforeign]
      exact countMiss_readOnly s call .absent

/-- Two tables that lookups at the reading `now` cannot tell apart: they differ in
access times and in marks on entries that have expired by then. -/
structure SameEntries (now : Int64) (s s' : YacStorage) : Prop where
  mask_eq : s'.slotsMask = s.slotsMask
  slot_eq : ∀ p, s'.slots p = { s.slots p with ttl := (s'.slots p).ttl }
  slot_ttl : ∀ p, (s'.slots p).ttl = (s.slots p).ttl ∨
    ((s.slots p).ttl ≠ 0 ∧ ((s.slots p).ttl.toNat : Int) ≤ now.toInt ∧ (s'.slots p).ttl = 1)
  val_eq : ∀ a, s'.vals a = { s.vals a with atime := (s'.vals a).atime }

theorem ReadOnly.sameEntries {s s' : YacStorage} {call : FindCall} {answer : FindAnswer}
    (hread : ReadOnly s call answer s') : SameEntries call.time s s' where
  mask_eq := hread.globals.1
  slot_eq := hread.slot_eq
  slot_ttl p := (hread.slot_ttl p).imp_right fun ⟨_, hne, hle, hone⟩ => ⟨hne, hle, hone⟩
  val_eq := hread.val_eq

namespace SameEntries

variable {now : Int64} {s s' : YacStorage} (hsame : SameEntries now s s')

include hsame

theorem slotIndex_eq (h : UInt64) : s'.slotIndex h = s.slotIndex h := by
  simp only [YacStorage.slotIndex, hsame.mask_eq]

theorem primary_eq (key : Key) : s'.primary key = s.primary key :=
  hsame.slotIndex_eq _

theorem slot_val (p : Nat) : (s'.slots p).val = (s.slots p).val := by
  rw [hsame.slot_eq p]

theorem matches_iff (key : Key) (p : Nat) : s'.Matches key p ↔ s.Matches key p := by
  simp only [YacStorage.Matches, YacKvKey.klen]
  rw [hsame.slot_eq p]

theorem holds_iff (key : Key) (p : Nat) :
    (s'.slots p).HoldsBytes key ↔ (s.slots p).HoldsBytes key := by
  simp only [YacKvKey.HoldsBytes]
  rw [hsame.slot_eq p]

theorem read_eq (a : ValAddr) (n : Nat) : (s'.vals a).read n = (s.vals a).read n := by
  simp only [YacKvVal.read]
  rw [hsame.val_eq a]

theorem positionsFrom_eq (d : UInt64) (count : Nat) (h : UInt64) :
    s'.positionsFrom d count h = s.positionsFrom d count h := by
  induction count generalizing h with
  | zero => rfl
  | succ count ih => simp only [YacStorage.positionsFrom, ih, hsame.slotIndex_eq]

theorem blocked_iff (key : Key) (p : Nat) : Blocked s' key p ↔ Blocked s key p := by
  simp only [Blocked, hsame.matches_iff, hsame.slot_val]

theorem probe_answer (env : StorageEnv) (call : FindCall) (count : Nat) (h : UInt64) :
    completedAnswer (probe env call count h s') = completedAnswer (probe env call count h s) := by
  have hstep : s'.probeStep env call.key = s.probeStep env call.key := by
    simp only [YacStorage.probeStep, hsame.mask_eq]
  have hthere := probe_cases env call count h s'
  simp only [hstep, hsame.positionsFrom_eq, hsame.blocked_iff] at hthere
  rcases probe_cases env call count h s with ⟨p, hp, hblocked, hhere⟩ | ⟨hall, hhere⟩
  · rcases hthere with ⟨q, _, _, hthere⟩ | ⟨hall, _⟩
    · rw [hhere, hthere]
      rfl
    · exact absurd hblocked (hall p hp)
  · rcases hthere with ⟨q, hq, hblocked, _⟩ | ⟨_, hthere⟩
    · exact absurd hblocked (hall q hq)
    · rw [hhere, hthere]
      rfl

/-- An entry that has expired by `now` is a miss marked or not. -/
theorem doVerify_answer (env : StorageEnv) (call : FindCall) (htime : call.time = now) (p : Nat)
    (a : ValAddr) :
    completedAnswer (.ok (doVerify env s' call p (s'.slots p) a (s'.vals a))) =
      completedAnswer (.ok (doVerify env s call p (s.slots p) a (s.vals a))) := by
  have hlen : (s'.slots p).len = (s.slots p).len := by rw [hsame.slot_eq p]
  have hcrc : (s'.slots p).crc = (s.slots p).crc := by rw [hsame.slot_eq p]
  have hflag : (s'.slots p).flag = (s.slots p).flag := by rw [hsame.slot_eq p]
  have hvlen : (s'.slots p).vlen = (s.slots p).vlen := by simp only [YacKvKey.vlen, hlen]
  have hval : (s'.vals a).len = (s.vals a).len := by rw [hsame.val_eq a]
  rcases hsame.slot_ttl p with httl | ⟨hne, hle, hone⟩
  · simp only [doVerify, hlen, hcrc, hflag, hvlen, hval, httl, hsame.read_eq]
    split_ifs <;> rfl
  · rw [← htime] at hle
    have hexpired : (s.slots p).ttl ≠ 0 ∧ ((s.slots p).ttl.toNat : Int) ≤ call.time.toInt :=
      ⟨hne, hle⟩
    simp only [doVerify, hone, true_or, if_pos, if_pos hexpired]
    split_ifs <;> rfl

/-- The result of a lookup depends on the entries only. -/
theorem completedAnswer_eq (env : StorageEnv) (call : FindCall) (htime : call.time = now) :
    completedAnswer (yacStorageFind env s' call) =
      completedAnswer (yacStorageFind env s call) := by
  unfold yacStorageFind
  simp only [hsame.primary_eq, hsame.slot_val, hsame.matches_iff, hsame.holds_iff]
  cases (s.slots (s.primary call.key)).val with
  | none => rfl
  | some a =>
      dsimp only
      split_ifs
      · exact hsame.doVerify_answer env call htime _ a
      · exact hsame.probe_answer env call 3 _
      · rfl
      · exact hsame.probe_answer env call 3 _

end SameEntries

/-- For a completed lookup of one key: the stored data is left unchanged, and
every other lookup at the same reading has the result it would have had without
it, exactly when the lookup meets no foreign key on its probe positions. -/
theorem yacStorageFind_frame_iff (env : StorageEnv) (s s' : YacStorage) (call : FindCall)
    (answer : FindAnswer) (hfind : yacStorageFind env s call = .ok (answer, s')) :
    (ReadOnly s call answer s' ∧ ∀ other : FindCall, other.time = call.time →
      completedAnswer (yacStorageFind env s' other) =
        completedAnswer (yacStorageFind env s other)) ↔
      ¬ ProbesForeignKey env s call.key := by
  rw [← yacStorageFind_readOnly_iff env s s' call answer hfind]
  constructor
  · exact And.left
  · exact fun hread => ⟨hread, fun other htime =>
      hread.sameEntries.completedAnswer_eq env other htime⟩

/-- Two keys of four bytes with one hash: a first byte from 128 up promotes to a
negative `int` and hides the other three. -/
def keyHigh1 : Key := ⟨[0x80, 0x61, 0x61, 0x61], by decide⟩

def keyHigh2 : Key := ⟨[0x80, 0x62, 0x62, 0x62], by decide⟩

/-- The second of two slots holds one of the colliding keys. -/
def collidingTable : YacStorage :=
  twoSlots keyB keyB_fits (emptyStringSlot keyHigh2 (by decide) 1)

/-- A secondary hash that is a multiple of the table size on every key. -/
def evenEnv : StorageEnv := ⟨fun _ => 2, fun _ => 0⟩

/-- The lookup of the key that is not stored. -/
def collidingCall : FindCall := ⟨keyHigh1, 0, ⟨[], 0, 0⟩⟩

theorem collidingTable_initialized : collidingTable.SlotsInitialized :=
  twoSlots_initialized keyB keyB_fits (.inr (Option.some_ne_none _))

/-- The lookup of the stored key is read-only and disturbs no other lookup. -/
theorem yacStorageFind_frame_iff_stored :
    (ReadOnly collidingTable ⟨keyHigh2, 0, ⟨[], 0, 0⟩⟩ ⟨1, .found 1, ⟨[0], 0, 6⟩⟩
        (collidingTable.setVal 1 { collidingTable.vals 1 with atime := 0 }).countHit ∧
      ∀ other : FindCall, other.time = 0 →
        completedAnswer (yacStorageFind evenEnv
          (collidingTable.setVal 1 { collidingTable.vals 1 with atime := 0 }).countHit other) =
          completedAnswer (yacStorageFind evenEnv collidingTable other)) ↔
      ¬ ProbesForeignKey evenEnv collidingTable keyHigh2 :=
  yacStorageFind_frame_iff evenEnv collidingTable _ ⟨keyHigh2, 0, ⟨[], 0, 0⟩⟩ _ rfl

/-- A miss on one colliding key replaces the other. -/
theorem yacStorageFind_replaces_key :
    ¬ ∀ (env : StorageEnv) (s s' : YacStorage) (call : FindCall) (answer : FindAnswer),
      yacStorageFind env s call = .ok (answer, s') →
      ReadOnly s call answer s' ∧ ∀ other : FindCall, other.time = call.time →
        completedAnswer (yacStorageFind env s' other) =
          completedAnswer (yacStorageFind env s other) := by
  intro hframe
  have hread := (hframe evenEnv collidingTable _ collidingCall _ rfl).1
  have hkey := congrArg YacKvKey.key (hread.slot_eq 1)
  exact absurd hkey (by decide)

end McoWeb.Storage
