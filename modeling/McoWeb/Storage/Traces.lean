import McoWeb.Storage.Accounting

/-! # What a run of lookups leaves

The table after any run of lookups, in closed form: a slot keeps all but its mark and its
key, a value all but its access time, and each of these is decided by the events of
the run that touch it.
-/

namespace McoWeb.Storage

open Foundation

/-- The array after the copy of a key, where the key fits. -/
def KeyField.claim (field : KeyField) (key : Key) : KeyField :=
  if hfits : key.bytes.length ≤ yacStorageMaxKeyLen then field.overwrite key.bytes hfits else field

/-- The lookup copies its key over the slot. -/
def claims (env : StorageEnv) (p : Nat) (e : Event YacStorage FindCall FindAnswer) : Bool :=
  e.before.Probing e.input.key ∧ p ∈ e.before.probes env e.input.key ∧
    e.before.Matches e.input.key p

/-- The lookup finds the slot expired and marks it. -/
def buries (p : Nat) (e : Event YacStorage FindCall FindAnswer) : Bool :=
  e.output.exit = .expired p

/-- The lookup returns the value. -/
def stamps (a : ValAddr) (e : Event YacStorage FindCall FindAnswer) : Bool :=
  match e.output.exit with
  | .found p => (e.before.slots p).val = some a
  | .absent | .refused _ | .expired _ | .corrupt _ => false

/-- A slot after the events: marked if one of them buries it, with the keys copied over it
in order. -/
def slotAfter (env : StorageEnv) (p : Nat) (events : List (Event YacStorage FindCall FindAnswer))
    (k : YacKvKey) : YacKvKey :=
  { k with
    ttl := if events.any (buries p) then 1 else k.ttl
    key := (events.filter (claims env p)).foldl (fun field e => field.claim e.input.key) k.key }

/-- A value after the events, stamped with the clock of the last that returns it. -/
def valAfter (a : ValAddr) (events : List (Event YacStorage FindCall FindAnswer)) (v : YacKvVal) :
    YacKvVal :=
  { v with
    atime := (events.filter (stamps a)).foldl (fun _ e => e.input.time.toUInt64) v.atime }

section

variable (env : StorageEnv) (p : Nat) (a : ValAddr)
  (e : Event YacStorage FindCall FindAnswer) (rest : List (Event YacStorage FindCall FindAnswer))

theorem slotAfter_cons (k : YacKvKey) :
    slotAfter env p (e :: rest) k = slotAfter env p rest (slotAfter env p [e] k) := by
  simp only [slotAfter, List.any_cons, List.any_nil, Bool.or_false, List.filter_cons,
    List.filter_nil, YacKvKey.mk.injEq, true_and]
  refine ⟨?_, ?_⟩
  · by_cases hrest : rest.any (buries p) = true <;> simp [hrest]
  · split <;> rfl

theorem valAfter_cons (v : YacKvVal) :
    valAfter a (e :: rest) v = valAfter a rest (valAfter a [e] v) := by
  simp only [valAfter, List.filter_cons, List.filter_nil, YacKvVal.mk.injEq, and_true]
  split <;> rfl

theorem slotAfter_nil (k : YacKvKey) : slotAfter env p [] k = k := by
  simp [slotAfter]

theorem valAfter_nil (v : YacKvVal) : valAfter a [] v = v := by
  simp [valAfter]

end

section

variable {env : StorageEnv} {s s' : YacStorage} {call : FindCall} {answer : FindAnswer}

theorem slotAfter_of_untouched {p : Nat} (k : YacKvKey)
    (hclaims : claims env p ⟨s, call, answer⟩ = false)
    (hburies : buries p ⟨s, call, answer⟩ = false) :
    slotAfter env p [⟨s, call, answer⟩] k = k := by
  simp [slotAfter, hclaims, hburies]

theorem valAfter_of_unstamped {a : ValAddr} (v : YacKvVal)
    (hstamps : stamps a ⟨s, call, answer⟩ = false) :
    valAfter a [⟨s, call, answer⟩] v = v := by
  simp [valAfter, hstamps]

theorem claims_of_not_probing {p : Nat} (hprobing : ¬ s.Probing call.key) :
    claims env p ⟨s, call, answer⟩ = false :=
  decide_eq_false fun hclaims => hprobing hclaims.1

/-- A verified slot leaves what the event says. -/
theorem VerifyOutcome.leaves {a : ValAddr} (hverifies : s.Verifies call.key a)
    (houtcome : VerifyOutcome env s call (s.primary call.key) a (answer, s')) :
    (∀ p, s'.slots p = slotAfter env p [⟨s, call, answer⟩] (s.slots p)) ∧
      ∀ b, s'.vals b = valAfter b [⟨s, call, answer⟩] (s.vals b) := by
  have hprobing : ¬ s.Probing call.key := fun hprobing =>
    hprobing.2 ⟨hverifies.hash_len, hverifies.holds⟩
  have hclaims : ∀ p answer, claims env p ⟨s, call, answer⟩ = false :=
    fun _ _ => claims_of_not_probing hprobing
  cases houtcome with
  | refused =>
      refine ⟨fun p => ?_, fun b => ?_⟩
      · exact (slotAfter_of_untouched _ (hclaims _ _) rfl).symm
      · exact (valAfter_of_unstamped _ rfl).symm
  | corrupt =>
      refine ⟨fun p => ?_, fun b => ?_⟩
      · exact (slotAfter_of_untouched _ (hclaims _ _) rfl).symm
      · exact (valAfter_of_unstamped _ rfl).symm
  | expired =>
      refine ⟨fun p => ?_, fun b => (valAfter_of_unstamped _ rfl).symm⟩
      by_cases hp : p = s.primary call.key
      · subst hp
        have hburies : ∀ out, buries (s.primary call.key)
            ⟨s, call, ⟨0, .expired (s.primary call.key), out⟩⟩ = true := by simp [buries]
        simp [slotAfter, hclaims, hburies]
      · have hburies : ∀ out, buries p
            ⟨s, call, ⟨0, .expired (s.primary call.key), out⟩⟩ = false := by
          simp [buries, Ne.symm hp]
        rw [slotAfter_of_untouched _ (hclaims _ _) (hburies _)]
        simp [Function.update_of_ne hp]
  | found =>
      refine ⟨fun p => (slotAfter_of_untouched _ (hclaims _ _) rfl).symm, fun b => ?_⟩
      have hval := hverifies.val_eq
      by_cases hb : b = a
      · subst hb
        simp [valAfter, stamps, hval]
      · have hne : (s.slots (s.primary call.key)).val ≠ some b := by
          rw [hval]
          exact fun heq => hb (Option.some.inj heq).symm
        rw [valAfter_of_unstamped _ (by simp [stamps, hne])]
        simp [Function.update_of_ne hb]

/-- A lookup leaves what its event says. -/
theorem yacStorageFind_leaves (hfind : yacStorageFind env s call = .ok (answer, s')) :
    (∀ p, s'.slots p = slotAfter env p [⟨s, call, answer⟩] (s.slots p)) ∧
      ∀ a, s'.vals a = valAfter a [⟨s, call, answer⟩] (s.vals a) := by
  rcases yacStorageFind_completed hfind with ⟨hempty, heq⟩ | ⟨a, hverifies, houtcome⟩ |
    ⟨hprobing, _, heq⟩
  · obtain ⟨rfl, rfl⟩ := Prod.mk.inj heq
    have hclaims : ∀ p, claims env p ⟨s, call, ⟨0, .absent, call.out⟩⟩ = false :=
      fun _ => claims_of_not_probing fun hprobing => hprobing.1 hempty
    exact ⟨fun p => (slotAfter_of_untouched _ (hclaims p) rfl).symm,
      fun a => (valAfter_of_unstamped _ rfl).symm⟩
  · exact houtcome.leaves hverifies
  · obtain ⟨rfl, rfl⟩ := Prod.mk.inj heq
    refine ⟨fun p => ?_, fun a => (valAfter_of_unstamped _ rfl).symm⟩
    by_cases hclaimed : p ∈ s.probes env call.key ∧ s.Matches call.key p
    · have hclaims : ∀ answer, claims env p ⟨s, call, answer⟩ = true :=
        fun _ => decide_eq_true ⟨hprobing, hclaimed⟩
      simp only [slotAfter, hclaims, List.filter_cons, List.filter_nil, if_true, List.foldl_cons,
        List.foldl_nil, YacStorage.countMiss_slots, YacStorage.claimSlots, if_pos hclaimed,
        KeyField.claim]
      split <;> rfl
    · have hclaims : ∀ answer, claims env p ⟨s, call, answer⟩ = false :=
        fun _ => decide_eq_false fun hclaims => hclaimed hclaims.2
      rw [slotAfter_of_untouched _ (hclaims _) rfl]
      simp [YacStorage.claimSlots, hclaimed]

end

/-- Any run of lookups leaves exactly what its events say: a slot is marked if one of them
found it expired, its key is overwritten by those that claimed it, in order, a value
is stamped by the last that returned it, and nothing else of slots and values changes. -/
theorem findRun_leaves {env : StorageEnv} {s last : YacStorage} {calls : List FindCall}
    {events : List (Event YacStorage FindCall FindAnswer)}
    (hrun : findRun env s calls = .ok (events, last)) :
    (∀ p, last.slots p = slotAfter env p events (s.slots p)) ∧
      ∀ a, last.vals a = valAfter a events (s.vals a) := by
  have hcompletes := findRun_completes hrun
  clear hrun
  induction hcompletes with
  | nil s =>
      exact ⟨fun p => (slotAfter_nil env p _).symm, fun a => (valAfter_nil a _).symm⟩
  | cons hstep _ ih =>
      obtain ⟨hslots, hvals⟩ := yacStorageFind_leaves hstep
      refine ⟨fun p => ?_, fun a => ?_⟩
      · rw [slotAfter_cons, ← hslots, ih.1]
      · rw [valAfter_cons, ← hvals, ih.2]

/-- The expiring entry at 50, at 100 and at 50 again: its slot ends marked, and its value
stamped with 50. -/
theorem findRun_leaves_expiring :
    ∃ events last, findRun oddEnv expiringTable
        [⟨keyB, 50, ⟨[], 0, 0⟩⟩, ⟨keyB, 100, ⟨[], 0, 0⟩⟩, ⟨keyB, 50, ⟨[], 0, 0⟩⟩] =
          .ok (events, last) ∧
      (last.slots 0).ttl = 1 ∧ (last.vals 0).atime = 50 ∧
      (∀ p, last.slots p = slotAfter oddEnv p events (expiringTable.slots p)) ∧
      ∀ a, last.vals a = valAfter a events (expiringTable.vals a) := by
  have hleaves := @findRun_leaves oddEnv expiringTable _
    [⟨keyB, 50, ⟨[], 0, 0⟩⟩, ⟨keyB, 100, ⟨[], 0, 0⟩⟩, ⟨keyB, 50, ⟨[], 0, 0⟩⟩] _ rfl
  exact ⟨_, _, rfl, rfl, rfl, hleaves⟩

end McoWeb.Storage
