import McoWeb.Foundation.LossyMap
import McoWeb.Storage.Hits

/-! # The table as a map

A key's entry is what stands at its primary position and passes every check of a
lookup but that of the time. Over these entries the lookup is a step of a map
that may lose entries: a hit answers with the entry, and an expired entry is
lost. Only a lookup that replaces the key of its primary slot makes an entry up.
-/

namespace McoWeb.Storage

open Foundation

namespace YacStorage

variable (s : YacStorage) (env : StorageEnv)

/-- A slot and its value pass the checks that depend on neither key nor time. -/
def Sound (p : Nat) (a : ValAddr) : Prop :=
  (s.slots p).ttl ≠ 1 ∧ (s.slots p).len = (s.vals a).len ∧
    (s.slots p).crc =
      (checksumOf env.crc32Tab ((s.vals a).read (s.slots p).vlen.toNat)).toUInt64

instance (p : Nat) (a : ValAddr) : Decidable (s.Sound env p a) :=
  inferInstanceAs (Decidable (_ ∧ _ ∧ _))

/-- The entries of a table, by key. -/
def entries (key : Key) : Option FindOut :=
  (s.slots (s.primary key)).val.bind fun a =>
    if s.HoldsKey key (s.primary key) ∧ key.bytes.length ≤ yacStorageMaxKeyLen ∧
        s.Sound env (s.primary key) a then
      some (s.entryOut (s.primary key) a)
    else none

theorem entries_eq_some_iff (key : Key) (out : FindOut) :
    s.entries env key = some out ↔
      ∃ a, s.Verifies key a ∧ s.Sound env (s.primary key) a ∧
        out = s.entryOut (s.primary key) a := by
  unfold entries
  constructor
  · intro hentry
    obtain ⟨a, hval, hentry⟩ := Option.bind_eq_some_iff.mp hentry
    simp only [Option.ite_none_right_eq_some, Option.some.injEq] at hentry
    obtain ⟨⟨hholds, hfits, hsound⟩, hout⟩ := hentry
    exact ⟨a, ⟨hval, hholds.1, hfits, hholds.2⟩, hsound, hout.symm⟩
  · rintro ⟨a, hverifies, hsound, rfl⟩
    rw [hverifies.val_eq, Option.bind_some, if_pos]
    exact ⟨⟨hverifies.hash_len, hverifies.holds⟩, hverifies.fits, hsound⟩

variable {s env} in
/-- The entry of a key depends on its primary slot and the value there. -/
theorem entries_congr {s' : YacStorage} {key : Key} (hmask : s'.slotsMask = s.slotsMask)
    (hslot : s'.slots (s.primary key) = s.slots (s.primary key))
    (hvals : ∀ a, (s.slots (s.primary key)).val = some a → s'.vals a = s.vals a) :
    s'.entries env key = s.entries env key := by
  have hprimary : s'.primary key = s.primary key := by
    rw [primary, slotIndex, hmask]
    rfl
  unfold entries
  rw [hprimary, hslot]
  cases hval : (s.slots (s.primary key)).val with
  | none => rfl
  | some a =>
      simp only [Option.bind_some, HoldsKey, Matches, Sound, entryOut, hslot, hvals a hval]
      congr

end YacStorage

section

variable {env : StorageEnv} {s s' : YacStorage} {call : FindCall} {answer : FindAnswer}

/-- A read-only lookup adds no entry. -/
theorem ReadOnly.entries_within (hread : ReadOnly s call answer s') :
    Within (s'.entries env) (s.entries env) := by
  intro key out hentry
  have hsame := hread.sameEntries
  obtain ⟨a, hverifies, ⟨hmark, hlen, hcrc⟩, rfl⟩ :=
    (s'.entries_eq_some_iff env key out).mp hentry
  have hprimary := hsame.primary_eq key
  have hval := hverifies.val_eq
  have hmatch := (hsame.matches_iff key _).mp hverifies.hash_len
  have hholds := (hsame.holds_iff key _).mp hverifies.holds
  rw [hsame.slot_val, hprimary] at hval
  rw [hprimary] at hmatch hholds hmark hlen hcrc
  -- an expiry mark would be seen afterwards
  have httl : (s.slots (s.primary key)).ttl ≠ 1 := by
    rcases hread.slot_ttl (s.primary key) with hkept | ⟨_, _, _, hone⟩
    · rwa [← hkept]
    · exact absurd hone hmark
  have hslot := hsame.slot_eq (s.primary key)
  have hvlen : (s'.slots (s.primary key)).vlen = (s.slots (s.primary key)).vlen := by
    rw [hslot]
    rfl
  refine (s.entries_eq_some_iff env key _).mpr ⟨a, ⟨hval, hmatch, hverifies.fits, hholds⟩, ?_, ?_⟩
  · refine ⟨httl, ?_, ?_⟩
    · rw [hslot, hsame.val_eq a] at hlen
      exact hlen
    · rw [hvlen, hsame.read_eq, hslot] at hcrc
      exact hcrc
  · rw [hprimary, YacStorage.entryOut, YacStorage.entryOut, hvlen, hsame.read_eq, hslot]

/-- Nor does the probe loop, unless it replaces the key of the primary slot. -/
theorem claimSlots_entries_within {key : Key} (hprobing : s.Probing key)
    (hkept : ¬ ReplacesPrimary env s key) :
    Within ((s.claimSlots key (s.probes env key)).entries env) (s.entries env) := by
  intro other out hentry
  obtain ⟨a, hverifies, _, _⟩ := (YacStorage.entries_eq_some_iff _ env other out).mp hentry
  -- a claimed slot keeps its hash, so a slot that shows the other key's hash stands at home
  have hhome : s.AtHome (s.primary other) := by
    have hhash : ((s.claimSlots key (s.probes env key)).slots (s.primary other)).h =
        hashOf other.bytes := hverifies.hash_len.1
    rw [s.claimSlots_slots] at hhash
    change s.slotIndex (s.slots (s.primary other)).h = s.primary other
    rw [hhash]
    rfl
  have hslot := claimSlots_atHome hprobing hkept hhome
  have hsame := @YacStorage.entries_congr s env (s.claimSlots key (s.probes env key)) other rfl
    hslot fun _ _ => rfl
  rwa [hsame] at hentry

/-- The answer of a completed call as an event of the map. -/
def findEvent (key : Key) (answer : FindAnswer) : MapEvent Key FindOut :=
  if answer.ret = 1 then .answer key answer.out else .idle

theorem VerifyOutcome.lossy {a : ValAddr} (hverifies : s.Verifies call.key a)
    (houtcome : VerifyOutcome env s call (s.primary call.key) a (answer, s')) :
    LossyStep (s.entries env) (findEvent call.key answer) (s'.entries env) := by
  have hwithin : Within (s'.entries env) (s.entries env) :=
    (houtcome.readOnly hverifies.val_eq).entries_within
  cases houtcome with
  | refused => exact .of_within hwithin
  | expired => exact .of_within hwithin
  | corrupt => exact .of_within hwithin
  | found hmark hlen _ hcrc =>
      refine .answer ?_ hwithin
      exact (s.entries_eq_some_iff env call.key _).mpr ⟨a, hverifies, ⟨hmark, hlen, hcrc⟩, rfl⟩

/-- A completed lookup that does not replace the key of its primary slot is a step of
the map: a hit answers with the entry of its key, and nothing is added. -/
theorem yacStorageFind_lossy (hfind : yacStorageFind env s call = .ok (answer, s'))
    (hkept : ¬ ReplacesPrimary env s call.key) :
    LossyStep (s.entries env) (findEvent call.key answer) (s'.entries env) := by
  rcases yacStorageFind_completed hfind with
    ⟨_, heq⟩ | ⟨a, hverifies, houtcome⟩ | ⟨hprobing, _, heq⟩
  · obtain ⟨rfl, rfl⟩ := Prod.mk.inj heq
    exact .of_within (countMiss_readOnly s call .absent).entries_within
  · exact houtcome.lossy hverifies
  · obtain ⟨rfl, rfl⟩ := Prod.mk.inj heq
    exact .of_within (claimSlots_entries_within hprobing hkept)

theorem YacStorage.mark_ttl (s : YacStorage) (p : Nat) : ((s.mark p).slots p).ttl = 1 := by
  rw [mark, setSlot_slots, Function.update_self]

theorem YacStorage.mark_of_ne (s : YacStorage) {p q : Nat} (hne : q ≠ p) :
    (s.mark p).slots q = s.slots q := Function.update_of_ne hne _ _

/-- Marking the primary slot of a key removes its entry. -/
theorem mark_lossy (env : StorageEnv) (s : YacStorage) (key : Key) :
    LossyStep (s.entries env) (.remove key) ((s.mark (s.primary key)).entries env) := by
  refine ⟨(LossyStep.remove _ key).held, ?_⟩
  intro other out hentry
  by_cases hprimary : s.primary other = s.primary key
  · obtain ⟨a, _, hsound, _⟩ := (YacStorage.entries_eq_some_iff _ env other out).mp hentry
    have hmark := s.mark_ttl (s.primary key)
    rw [← hprimary] at hmark hsound
    exact absurd hmark hsound.1
  · have hne : other ≠ key := fun heq => hprimary (congrArg s.primary heq)
    have hsame := @YacStorage.entries_congr s env (s.mark (s.primary key)) other rfl
      (s.mark_of_ne hprimary) fun _ _ => rfl
    rw [hsame] at hentry
    change Function.update (s.entries env) key none other = _
    rwa [Function.update_of_ne hne]

end

end McoWeb.Storage
