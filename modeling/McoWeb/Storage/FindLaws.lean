import McoWeb.Storage.Find

/-! # What one lookup can do

The probe loop never reaches the verification block: `memcpy` returns its
destination, which is not null. What it does instead is copy the key over every
probed slot that shows the key's hash and length. `FindOutcome` lists all
outcomes of a call with the state each leaves, and `yacStorageFind_outcome` is
the only place where the body of the lookup is taken apart.
-/

namespace McoWeb.Storage

namespace YacStorage

/-- `count` positions, `d` apart, after the hash value `h`. -/
def positionsFrom (s : YacStorage) (d : UInt64) : Nat → UInt64 → List Nat
  | 0, _ => []
  | count + 1, h => s.slotIndex (h + d) :: s.positionsFrom d count (h + d)

/-- The three further probe positions of a key. -/
def probes (s : YacStorage) (env : StorageEnv) (key : Key) : List Nat :=
  s.positionsFrom (s.probeStep env key) 3 (hashOf key.bytes)

/-- A lookup goes on to the probe positions: the primary slot is occupied but
does not hold the key. -/
def Probing (s : YacStorage) (key : Key) : Prop :=
  (s.slots (s.primary key)).val ≠ none ∧
    ¬ (s.Matches key (s.primary key) ∧ (s.slots (s.primary key)).HoldsBytes key)

instance (s : YacStorage) (key : Key) : Decidable (s.Probing key) :=
  inferInstanceAs (Decidable (_ ∧ _))

/-- The primary slot is verified for the key, through the value at `a`. -/
structure Verifies (s : YacStorage) (key : Key) (a : ValAddr) : Prop where
  val_eq : (s.slots (s.primary key)).val = some a
  hash_len : s.Matches key (s.primary key)
  fits : key.bytes.length ≤ yacStorageMaxKeyLen
  holds : (s.slots (s.primary key)).HoldsBytes key

/-- Copy a key over every matching slot at the given positions. -/
def claimSlots (s : YacStorage) (key : Key) (positions : List Nat) : YacStorage :=
  { s with
    slots := fun p =>
      if hfits : key.bytes.length ≤ yacStorageMaxKeyLen then
        if p ∈ positions ∧ s.Matches key p then
          { s.slots p with key := (s.slots p).key.overwrite key.bytes hfits }
        else s.slots p
      else s.slots p }

theorem probes_lt (s : YacStorage) (env : StorageEnv) (key : Key) :
    ∀ p ∈ s.probes env key, p < s.slotsSize.toNat := by
  intro p hp
  simp only [probes, positionsFrom, List.mem_cons, List.not_mem_nil, or_false] at hp
  rcases hp with rfl | rfl | rfl <;> exact s.slotIndex_lt _

theorem claimSlots_nil (s : YacStorage) (key : Key) : s.claimSlots key [] = s := by
  simp [claimSlots]

@[simp] theorem claimSlots_vals (s : YacStorage) (key : Key) (positions : List Nat) :
    (s.claimSlots key positions).vals = s.vals := rfl

theorem claimSlots_slots (s : YacStorage) (key : Key) (positions : List Nat) (p : Nat) :
    (s.claimSlots key positions).slots p =
      { s.slots p with key := ((s.claimSlots key positions).slots p).key } := by
  simp only [claimSlots]
  split_ifs <;> rfl

theorem memcpyKey_matches (s : YacStorage) (p : Nat) (key : Key)
    (hfits : key.bytes.length ≤ yacStorageMaxKeyLen) (q : Nat) :
    (s.memcpyKey p key.bytes hfits).2.Matches key q ↔ s.Matches key q := by
  by_cases hqp : q = p
  · subst hqp
    simp [memcpyKey, Matches, YacKvKey.klen]
  · simp [memcpyKey, Matches, Function.update_of_ne hqp]

theorem memcpyKey_val (s : YacStorage) (p : Nat) (key : Key)
    (hfits : key.bytes.length ≤ yacStorageMaxKeyLen) (q : Nat) :
    ((s.memcpyKey p key.bytes hfits).2.slots q).val = (s.slots q).val := by
  by_cases hqp : q = p
  · subst hqp
    simp [memcpyKey]
  · simp [memcpyKey, Function.update_of_ne hqp]

/-- The loop may claim the remaining positions after the first copy or all of
them at once: copying a key twice is copying it once. -/
theorem claimSlots_memcpyKey (s : YacStorage) (p : Nat) (key : Key) (positions : List Nat)
    (hfits : key.bytes.length ≤ yacStorageMaxKeyLen) (hmatch : s.Matches key p) :
    (s.memcpyKey p key.bytes hfits).2.claimSlots key positions =
      s.claimSlots key (p :: positions) := by
  have hslots : ((s.memcpyKey p key.bytes hfits).2.claimSlots key positions).slots =
      (s.claimSlots key (p :: positions)).slots := by
    funext q
    simp only [claimSlots, dif_pos hfits, memcpyKey_matches, List.mem_cons]
    by_cases hqp : q = p
    · subst hqp
      simp only [memcpyKey, setSlot_slots, Function.update_self, hmatch, true_or, and_true,
        KeyField.overwrite_overwrite]
      split_ifs <;> rfl
    · simp [memcpyKey, hqp]
  simp only [claimSlots] at hslots ⊢
  rw [hslots]
  rfl

theorem claimSlots_cons_of_not_matches (s : YacStorage) (p : Nat) (key : Key)
    (positions : List Nat) (hmatch : ¬ s.Matches key p) :
    s.claimSlots key (p :: positions) = s.claimSlots key positions := by
  have hiff : ∀ q, (q ∈ p :: positions ∧ s.Matches key q) ↔
      (q ∈ positions ∧ s.Matches key q) := by
    intro q
    rw [List.mem_cons]
    constructor
    · rintro ⟨rfl | hq, hmq⟩
      · exact absurd hmq hmatch
      · exact ⟨hq, hmq⟩
    · rintro ⟨hq, hmq⟩
      exact ⟨.inr hq, hmq⟩
  simp only [claimSlots, hiff]

end YacStorage

/-- The fault of a probe position at which the loop cannot go on. -/
def probeFault (s : YacStorage) (p : Nat) : FindFault :=
  match (s.slots p).val with
  | none => .nullVal p
  | some _ => .keyOverrun p

/-- A matching slot at which the loop faults: it has no value, or the key does
not fit the field. -/
def Blocked (s : YacStorage) (key : Key) (p : Nat) : Prop :=
  s.Matches key p ∧ ((s.slots p).val = none ∨ ¬ key.bytes.length ≤ yacStorageMaxKeyLen)

section

variable (env : StorageEnv) (call : FindCall) (count : Nat) (h : UInt64) (s : YacStorage)

theorem probe_succ_of_not_matches
    (hmatch : ¬ s.Matches call.key (s.slotIndex (h + s.probeStep env call.key))) :
    probe env call (count + 1) h s = probe env call count (h + s.probeStep env call.key) s := by
  rw [probe]
  exact if_neg hmatch

theorem probe_succ_of_blocked
    (hblocked : Blocked s call.key (s.slotIndex (h + s.probeStep env call.key))) :
    probe env call (count + 1) h s =
      .error (probeFault s (s.slotIndex (h + s.probeStep env call.key))) := by
  obtain ⟨hmatch, hreason⟩ := hblocked
  rw [probe]
  simp only [if_pos hmatch, probeFault]
  cases hval : (s.slots (s.slotIndex (h + s.probeStep env call.key))).val with
  | none => rfl
  | some a =>
      have hfits : ¬ call.key.bytes.length ≤ yacStorageMaxKeyLen :=
        hreason.resolve_left (by simp [hval])
      simp only [dif_neg hfits]

/-- The copy returns its destination, so the loop goes on in the copied table. -/
theorem probe_succ_of_fits
    (hmatch : s.Matches call.key (s.slotIndex (h + s.probeStep env call.key)))
    (hval : (s.slots (s.slotIndex (h + s.probeStep env call.key))).val ≠ none)
    (hfits : call.key.bytes.length ≤ yacStorageMaxKeyLen) :
    probe env call (count + 1) h s =
      probe env call count (h + s.probeStep env call.key)
        (s.memcpyKey (s.slotIndex (h + s.probeStep env call.key)) call.key.bytes hfits).2 := by
  rw [probe]
  simp only [if_pos hmatch]
  cases hsome : (s.slots (s.slotIndex (h + s.probeStep env call.key))).val with
  | none => exact absurd hsome hval
  | some a =>
      simp only [dif_pos hfits]
      rfl

end

theorem memcpyKey_blocked (s : YacStorage) (p : Nat) (key : Key)
    (hfits : key.bytes.length ≤ yacStorageMaxKeyLen) (q : Nat) :
    Blocked (s.memcpyKey p key.bytes hfits).2 key q ↔ Blocked s key q := by
  simp only [Blocked, YacStorage.memcpyKey_matches, YacStorage.memcpyKey_val]

theorem memcpyKey_probeFault (s : YacStorage) (p : Nat) (key : Key)
    (hfits : key.bytes.length ≤ yacStorageMaxKeyLen) (q : Nat) :
    probeFault (s.memcpyKey p key.bytes hfits).2 q = probeFault s q := by
  simp only [probeFault, YacStorage.memcpyKey_val]

theorem memcpyKey_positionsFrom (s : YacStorage) (p : Nat) (key : Key)
    (hfits : key.bytes.length ≤ yacStorageMaxKeyLen) (d : UInt64) (count : Nat) (h : UInt64) :
    (s.memcpyKey p key.bytes hfits).2.positionsFrom d count h = s.positionsFrom d count h := by
  induction count generalizing h with
  | zero => rfl
  | succ count ih =>
      simp only [YacStorage.positionsFrom, ih]
      rfl

/-- The probe loop, for any number of positions: it faults at a blocked
position, or passes them all, claims the matching slots and misses. -/
theorem probe_cases (env : StorageEnv) (call : FindCall) (count : Nat) (h : UInt64)
    (s : YacStorage) :
    (∃ p ∈ s.positionsFrom (s.probeStep env call.key) count h, Blocked s call.key p ∧
        probe env call count h s = .error (probeFault s p)) ∨
      ((∀ p ∈ s.positionsFrom (s.probeStep env call.key) count h, ¬ Blocked s call.key p) ∧
        probe env call count h s = .ok (findAbsent
          (s.claimSlots call.key (s.positionsFrom (s.probeStep env call.key) count h)) call)) := by
  induction count generalizing h s with
  | zero =>
      right
      simp [YacStorage.positionsFrom, probe, YacStorage.claimSlots_nil]
  | succ count ih =>
      rw [YacStorage.positionsFrom]
      by_cases hblocked : Blocked s call.key (s.slotIndex (h + s.probeStep env call.key))
      · exact .inl ⟨_, List.mem_cons_self, hblocked, probe_succ_of_blocked _ _ _ _ _ hblocked⟩
      by_cases hmatch : s.Matches call.key (s.slotIndex (h + s.probeStep env call.key))
      · have hval : (s.slots (s.slotIndex (h + s.probeStep env call.key))).val ≠ none :=
          fun hnone => hblocked ⟨hmatch, .inl hnone⟩
        have hfits : call.key.bytes.length ≤ yacStorageMaxKeyLen := by
          by_contra hlong
          exact hblocked ⟨hmatch, .inr hlong⟩
        rw [probe_succ_of_fits env call count h s hmatch hval hfits,
          ← YacStorage.claimSlots_memcpyKey s _ call.key _ hfits hmatch]
        -- the copied table shows the loop the same step, matches and values
        have hrest := ih (h + s.probeStep env call.key)
          (s.memcpyKey (s.slotIndex (h + s.probeStep env call.key)) call.key.bytes hfits).2
        change (∃ p ∈ YacStorage.positionsFrom _ (s.probeStep env call.key) _ _, _) ∨
          ((∀ p ∈ YacStorage.positionsFrom _ (s.probeStep env call.key) _ _, _) ∧
            _ = Except.ok (findAbsent (YacStorage.claimSlots _ _
              (YacStorage.positionsFrom _ (s.probeStep env call.key) _ _)) _)) at hrest
        simp only [memcpyKey_positionsFrom, memcpyKey_blocked, memcpyKey_probeFault] at hrest
        rcases hrest with ⟨q, hq, hrest⟩ | ⟨hall, hok⟩
        · exact .inl ⟨q, List.mem_cons_of_mem _ hq, hrest⟩
        · exact .inr ⟨List.forall_mem_cons.mpr ⟨hblocked, hall⟩, hok⟩
      · rw [probe_succ_of_not_matches env call count h s hmatch,
          YacStorage.claimSlots_cons_of_not_matches s _ call.key _ hmatch]
        rcases ih (h + s.probeStep env call.key) s with ⟨q, hq, hrest⟩ | ⟨hall, hok⟩
        · exact .inl ⟨q, List.mem_cons_of_mem _ hq, hrest⟩
        · exact .inr ⟨List.forall_mem_cons.mpr ⟨hblocked, hall⟩, hok⟩

/-- Everything a lookup can do, with the table it leaves. -/
inductive FindOutcome (env : StorageEnv) (s : YacStorage) (call : FindCall) :
    Except FindFault (FindAnswer × YacStorage) → Prop
  | empty : (s.slots (s.primary call.key)).val = none →
      FindOutcome env s call (.ok (findAbsent s call))
  | overrun : (s.slots (s.primary call.key)).val ≠ none →
      s.Matches call.key (s.primary call.key) →
      ¬ call.key.bytes.length ≤ yacStorageMaxKeyLen →
      FindOutcome env s call (.error (.keyOverrun (s.primary call.key)))
  | verified {a : ValAddr} : s.Verifies call.key a →
      FindOutcome env s call (.ok (doVerify env s call (s.primary call.key)
        (s.slots (s.primary call.key)) a (s.vals a)))
  | blocked {p : Nat} : s.Probing call.key → p ∈ s.probes env call.key →
      Blocked s call.key p → FindOutcome env s call (.error (probeFault s p))
  | passed : s.Probing call.key → (∀ p ∈ s.probes env call.key, ¬ Blocked s call.key p) →
      FindOutcome env s call
        (.ok (findAbsent (s.claimSlots call.key (s.probes env call.key)) call))

theorem yacStorageFind_probe_outcome (env : StorageEnv) (s : YacStorage) (call : FindCall)
    (hprobing : s.Probing call.key) :
    FindOutcome env s call (probe env call 3 (hashOf call.key.bytes) s) := by
  rcases probe_cases env call 3 (hashOf call.key.bytes) s with
    ⟨p, hp, hblocked, hprobe⟩ | ⟨hall, hprobe⟩
  · rw [hprobe]
    exact .blocked hprobing hp hblocked
  · rw [hprobe]
    exact .passed hprobing hall

theorem yacStorageFind_outcome (env : StorageEnv) (s : YacStorage) (call : FindCall) :
    FindOutcome env s call (yacStorageFind env s call) := by
  unfold yacStorageFind
  dsimp only
  cases hval : (s.slots (s.primary call.key)).val with
  | none => exact .empty hval
  | some a =>
      have hoccupied : (s.slots (s.primary call.key)).val ≠ none := by simp [hval]
      dsimp only
      split_ifs with hmatch hfits hholds
      · exact .verified ⟨hval, hmatch, hfits, hholds⟩
      · exact yacStorageFind_probe_outcome env s call ⟨hoccupied, fun h => hholds h.2⟩
      · exact .overrun hoccupied hmatch hfits
      · exact yacStorageFind_probe_outcome env s call ⟨hoccupied, fun h => hmatch h.1⟩

/-- The exits of the verification block. -/
inductive VerifyOutcome (env : StorageEnv) (s : YacStorage) (call : FindCall) (p : Nat)
    (a : ValAddr) : FindAnswer × YacStorage → Prop
  | refused : (s.slots p).ttl = 1 ∨ (s.slots p).len ≠ (s.vals a).len →
      VerifyOutcome env s call p a (⟨0, .refused p, call.out⟩, s.countMiss)
  | expired : (s.slots p).ttl ≠ 1 → (s.slots p).len = (s.vals a).len → (s.slots p).ttl ≠ 0 →
      ((s.slots p).ttl.toNat : Int) ≤ call.time.toInt →
      VerifyOutcome env s call p a (⟨0, .expired p, call.out⟩,
        (s.setSlot p { s.slots p with ttl := 1 }).countMiss)
  | corrupt : (s.slots p).ttl ≠ 1 → (s.slots p).len = (s.vals a).len →
      ((s.slots p).ttl ≠ 0 → call.time.toInt < (s.slots p).ttl.toNat) →
      (s.slots p).crc ≠ (checksumOf env.crc32Tab
        ((s.vals a).read (s.slots p).vlen.toNat)).toUInt64 →
      VerifyOutcome env s call p a (⟨0, .corrupt p, call.out⟩, s.countMiss)
  | found : (s.slots p).ttl ≠ 1 → (s.slots p).len = (s.vals a).len →
      ((s.slots p).ttl ≠ 0 → call.time.toInt < (s.slots p).ttl.toNat) →
      (s.slots p).crc = (checksumOf env.crc32Tab
        ((s.vals a).read (s.slots p).vlen.toNat)).toUInt64 →
      VerifyOutcome env s call p a
        (⟨1, .found p,
          ⟨(s.vals a).read (s.slots p).vlen.toNat ++ [0], (s.slots p).vlen, (s.slots p).flag⟩⟩,
          (s.setVal a { s.vals a with atime := call.time.toUInt64 }).countHit)

theorem doVerify_outcome (env : StorageEnv) (s : YacStorage) (call : FindCall) (p : Nat)
    (a : ValAddr) :
    VerifyOutcome env s call p a (doVerify env s call p (s.slots p) a (s.vals a)) := by
  unfold doVerify
  dsimp only
  split_ifs with hrefused hexpired hcrc
  · exact .refused hrefused
  all_goals rw [not_or, not_not] at hrefused
  · exact .expired hrefused.1 hrefused.2 hexpired.1 hexpired.2
  all_goals
    have hlive : (s.slots p).ttl ≠ 0 → call.time.toInt < (s.slots p).ttl.toNat := by
      intro hne
      by_contra hle
      exact hexpired ⟨hne, by omega⟩
  · exact .corrupt hrefused.1 hrefused.2 hlive hcrc
  · exact .found hrefused.1 hrefused.2 hlive (not_not.mp hcrc)

/-- A verified primary slot is the only thing a lookup goes by. -/
theorem yacStorageFind_of_verifies {env : StorageEnv} {s : YacStorage} {call : FindCall}
    {a : ValAddr} (hverifies : s.Verifies call.key a) :
    yacStorageFind env s call = .ok (doVerify env s call (s.primary call.key)
      (s.slots (s.primary call.key)) a (s.vals a)) := by
  simp only [yacStorageFind, hverifies.val_eq, if_pos hverifies.hash_len, if_pos hverifies.fits,
    if_pos hverifies.holds]

/-- Inversion of a call that completes: it finds the primary slot empty, verifies
it, or passes all probe positions. -/
theorem yacStorageFind_completed {env : StorageEnv} {s s' : YacStorage} {call : FindCall}
    {answer : FindAnswer} (hfind : yacStorageFind env s call = .ok (answer, s')) :
    ((s.slots (s.primary call.key)).val = none ∧ (answer, s') = findAbsent s call) ∨
      (∃ a, s.Verifies call.key a ∧
        VerifyOutcome env s call (s.primary call.key) a (answer, s')) ∨
      (s.Probing call.key ∧ (∀ p ∈ s.probes env call.key, ¬ Blocked s call.key p) ∧
        (answer, s') = findAbsent (s.claimSlots call.key (s.probes env call.key)) call) := by
  have houtcome := yacStorageFind_outcome env s call
  rw [hfind] at houtcome
  generalize hresult : (Except.ok (answer, s') : Except FindFault (FindAnswer × YacStorage)) =
    result at houtcome
  cases houtcome with
  | overrun => simp at hresult
  | blocked => simp at hresult
  | empty hempty => exact .inl ⟨hempty, Except.ok.inj hresult⟩
  | @verified a hverifies =>
      have hverify := doVerify_outcome env s call (s.primary call.key) a
      rw [← Except.ok.inj hresult] at hverify
      exact .inr (.inl ⟨a, hverifies, hverify⟩)
  | passed hprobing hall => exact .inr (.inr ⟨hprobing, hall, Except.ok.inj hresult⟩)

/-- A call that verifies no slot answers that the key is absent. -/
theorem yacStorageFind_verifies_or_absent {env : StorageEnv} {s s' : YacStorage}
    {call : FindCall} {answer : FindAnswer}
    (hfind : yacStorageFind env s call = .ok (answer, s')) :
    (∃ a, s.Verifies call.key a ∧
        VerifyOutcome env s call (s.primary call.key) a (answer, s')) ∨
      answer = ⟨0, .absent, call.out⟩ := by
  rcases yacStorageFind_completed hfind with ⟨_, heq⟩ | hverified | ⟨_, _, heq⟩
  · exact .inr (congrArg Prod.fst heq)
  · exact .inl hverified
  · exact .inr (congrArg Prod.fst heq)

/-- The slot an exit verified. -/
def FindExit.verified : FindExit → Option Nat
  | .absent => none
  | .refused p | .expired p | .corrupt p | .found p => some p

end McoWeb.Storage
