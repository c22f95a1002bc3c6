import McoWeb.Storage.Ownership

/-! # Runs of lookups

Two safety results over any finite run of lookups, with unrelated clock readings.
A hit returns an entry that was stored under exactly the key asked for, as long
as no lookup of the run replaces another key at its own primary position. And
expiry is final, without any condition.
-/

namespace McoWeb.Storage

open Foundation

/-- The primary slot of a lookup shows the key's hash and length over another
key, and is met again on a probe position. -/
def ReplacesPrimary (env : StorageEnv) (s : YacStorage) (key : Key) : Prop :=
  s.Matches key (s.primary key) ∧ ¬ (s.slots (s.primary key)).HoldsBytes key ∧
    (s.slots (s.primary key)).val ≠ none ∧ s.primary key ∈ s.probes env key

instance (env : StorageEnv) (s : YacStorage) (key : Key) :
    Decidable (ReplacesPrimary env s key) :=
  inferInstanceAs (Decidable (_ ∧ _ ∧ _ ∧ _))

/-- Positions are hash values modulo the number of slots. -/
theorem YacStorage.slotIndex_eq_mod (s : YacStorage) (h : UInt64) :
    s.slotIndex h = h.toNat % s.slotsSize.toNat := by
  obtain ⟨bits, hbits⟩ := s.size_pow
  rw [YacStorage.slotIndex, UInt64.toNat_and, UInt32.toNat_toUInt64, s.slotsMask_toNat, hbits,
    Nat.and_two_pow_sub_one_eq_mod]

/-- Where the secondary hash is odd and there are four slots or more, none of the three probe
positions is the primary one, and no lookup replaces the key there. -/
theorem not_replacesPrimary_of_odd {env : StorageEnv} {s : YacStorage} {key : Key}
    (hodd : (env.yacInlineHashFunc2 key.bytes).toNat % 2 = 1) (hfour : 4 ≤ s.slotsSize.toNat) :
    ¬ ReplacesPrimary env s key := by
  obtain ⟨bits, hbits⟩ := s.size_pow
  have hdvd : 4 ∣ s.slotsSize.toNat := by
    rw [hbits] at hfour ⊢
    have htwo : 2 ^ 2 ≤ 2 ^ bits := hfour
    exact Nat.pow_dvd_pow 2 ((Nat.pow_le_pow_iff_right Nat.one_lt_two).mp htwo)
  have hindex : ∀ h, s.slotIndex h % 4 = h.toNat % 4 := fun h => by
    rw [s.slotIndex_eq_mod, Nat.mod_mod_of_dvd _ hdvd]
  have hstep : (s.probeStep env key).toNat % 2 = 1 := by
    have hmod := s.slotIndex_eq_mod (env.yacInlineHashFunc2 key.bytes)
    change (s.probeStep env key).toNat = _ at hmod
    rw [hmod, Nat.mod_mod_of_dvd _ (Nat.dvd_trans (by decide) hdvd), hodd]
  rintro ⟨_, _, _, hmem⟩
  simp only [YacStorage.probes, YacStorage.positionsFrom, List.mem_cons, List.not_mem_nil,
    or_false, YacStorage.primary] at hmem
  have hfirst := hindex (hashOf key.bytes)
  have hsecond := hindex (hashOf key.bytes + s.probeStep env key)
  have hthird := hindex (hashOf key.bytes + s.probeStep env key + s.probeStep env key)
  have hfourth := hindex
    (hashOf key.bytes + s.probeStep env key + s.probeStep env key + s.probeStep env key)
  simp only [UInt64.toNat_add] at hsecond hthird hfourth
  rcases hmem with heq | heq | heq <;> rw [heq] at hfirst <;> omega

/-- Of the slots a lookup claims, only its primary slot can stand at home. -/
theorem claimSlots_atHome {env : StorageEnv} {s : YacStorage} {key : Key}
    (hprobing : s.Probing key) (hkept : ¬ ReplacesPrimary env s key) {p : Nat}
    (hhome : s.AtHome p) : (s.claimSlots key (s.probes env key)).slots p = s.slots p := by
  simp only [YacStorage.claimSlots]
  split_ifs with hfits hclaimed
  · obtain ⟨hp, hmatch⟩ := hclaimed
    -- a claimed slot shows the key's hash, so at home it is the primary slot
    have hprimary : s.primary key = p := by
      rw [← hhome, hmatch.1]
      rfl
    have hholds : (s.slots p).HoldsBytes key := by
      by_contra hforeign
      subst hprimary
      exact hkept ⟨hmatch, hforeign, hprobing.1, hp⟩
    rw [(KeyField.overwrite_eq_self_iff _ _ hfits).mpr hholds]
  · rfl
  · rfl

theorem boardAnswer_served {answer : FindAnswer} {p : Nat} (hexit : answer.exit = .found p) :
    boardAnswer answer = .served p answer.out := by
  simp [boardAnswer, hexit]

/-- A completed call returns 1 from its last exit only, with the entry of its
primary slot. -/
theorem yacStorageFind_hit {env : StorageEnv} {s s' : YacStorage} {call : FindCall}
    {answer : FindAnswer} (hfind : yacStorageFind env s call = .ok (answer, s')) :
    (answer.ret = 1 ↔ ∃ p, answer.exit = .found p) ∧
      ∀ p, answer.exit = .found p → p = s.primary call.key ∧
        ∃ a, (s.slots p).val = some a ∧ answer.out = s.entryOut p a := by
  rcases yacStorageFind_verifies_or_absent hfind with ⟨a, hverifies, houtcome⟩ | rfl
  · cases houtcome with
    | refused => simp
    | expired => simp
    | corrupt => simp
    | found _ _ _ _ =>
        refine ⟨by simp, ?_⟩
        rintro p hp
        obtain rfl := FindExit.found.inj hp
        exact ⟨rfl, a, hverifies.val_eq, rfl⟩
  · simp

theorem yacStorageFind_slotsSize {env : StorageEnv} {s s' : YacStorage} {call : FindCall}
    {answer : FindAnswer} (hfind : yacStorageFind env s call = .ok (answer, s')) :
    s'.slotsSize = s.slotsSize := by
  rcases yacStorageFind_completed hfind with
    ⟨_, heq⟩ | ⟨a, hverifies, houtcome⟩ | ⟨_, _, heq⟩
  · obtain ⟨rfl, rfl⟩ := Prod.mk.inj heq
    rfl
  · exact (houtcome.readOnly hverifies.val_eq).globals.2.2.1
  · obtain ⟨rfl, rfl⟩ := Prod.mk.inj heq
    rfl

/-- A miss on a verified slot whose time has come is a death on the board. -/
theorem yacStorageFind_dead {env : StorageEnv} {s s' : YacStorage} {call : FindCall}
    {answer : FindAnswer} (hfind : yacStorageFind env s call = .ok (answer, s')) {p : Nat}
    (hverified : answer.exit.verified = some p) (hret : answer.ret = 0)
    (hne : (s.slots p).ttl ≠ 0) (hle : ((s.slots p).ttl.toNat : Int) ≤ call.time.toInt) :
    boardAnswer answer = .dead p := by
  rcases yacStorageFind_verifies_or_absent hfind with ⟨a, _, houtcome⟩ | rfl
  · cases houtcome with
    | refused _ =>
        obtain rfl := Option.some.inj hverified
        rfl
    | expired _ _ _ _ =>
        obtain rfl := Option.some.inj hverified
        rfl
    | corrupt _ _ hlive _ =>
        obtain rfl := Option.some.inj hverified
        have := hlive hne
        omega
    | found _ _ _ _ => simp at hret
  · simp [FindExit.verified] at hverified

section

variable {env : StorageEnv} {s last : YacStorage} {calls : List FindCall}
  {events : List (Event YacStorage FindCall FindAnswer)}
  (hrun : findRun env s calls = .ok (events, last))

include hrun

theorem findRun_completes : Run (Completes (yacStorageFind env)) s events last :=
  (execute_run hrun).1

theorem findRun_slotsSize : ∀ e ∈ events, e.before.slotsSize = s.slotsSize :=
  ((findRun_completes hrun).invariant (fun t => t.slotsSize = s.slotsSize)
    (fun _ _ _ _ hinv hstep => (yacStorageFind_slotsSize hstep).trans hinv) rfl).1

/-- A run that replaces no primary key is a run of the board with its exact keys. -/
theorem findRun_exact_board
    (hkept : ∀ e ∈ events, ¬ ReplacesPrimary env e.before e.input.key) :
    Run Board.LookupStep (KeyView.exact.board s)
      (events.map (Event.map KeyView.exact.board
        (fun call => (KeyView.exact.asked call.key, call.time.toInt)) boardAnswer))
      (KeyView.exact.board last) := by
  have hguarded := (findRun_completes hrun).guarded
    (fun t call => ¬ ReplacesPrimary env t call.key)
  refine (hguarded hkept).simulate _ _ _ ?_
  rintro t call answer next ⟨hkept, hstep⟩
  refine KeyView.exact.yacStorageFind_lookupStep env t next call answer ?_ hstep
  intro hprobing p hhome
  rw [claimSlots_atHome hprobing hkept hhome]

/-- Any run is a run of the board without its keys. -/
theorem findRun_blind_board :
    Run Board.LookupStep (KeyView.blind.board s)
      (events.map (Event.map KeyView.blind.board
        (fun call => (KeyView.blind.asked call.key, call.time.toInt)) boardAnswer))
      (KeyView.blind.board last) := by
  refine (findRun_completes hrun).simulate _ _ _ ?_
  intro t call answer next hstep
  exact KeyView.blind.yacStorageFind_lookupStep env t next call answer
    (fun _ _ _ => Subsingleton.elim _ _) hstep

/-- In a run whose lookups replace no key at their primary positions, every hit
returns the bytes, size and flag of a slot that held exactly the key asked for
in the table the run began with. -/
theorem findRun_hit_owned
    (hkept : ∀ e ∈ events, ¬ ReplacesPrimary env e.before e.input.key) :
    ∀ e ∈ events, e.output.ret = 1 →
      ∃ p < s.slotsSize.toNat, ∃ a, (s.slots p).val = some a ∧
        (s.slots p).klen = e.input.key.len ∧ (s.slots p).HoldsBytes e.input.key ∧
        e.output.out = s.entryOut p a := by
  intro e he hret
  obtain ⟨next, hstep⟩ := (findRun_completes hrun).exists_next e he
  obtain ⟨hhit, hprimary⟩ := yacStorageFind_hit hstep
  obtain ⟨p, hexit⟩ := hhit.mp hret
  have hlt : p < s.slotsSize.toNat := by
    rw [← findRun_slotsSize hrun e he, (hprimary p hexit).1]
    exact e.before.slotIndex_lt _
  have hserved := Board.served_from_start (findRun_exact_board hrun hkept) _
    (List.mem_map_of_mem he) p e.output.out (boardAnswer_served hexit)
  simp only [KeyView.board, Event.map, Option.ite_none_right_eq_some,
    Option.map_eq_some_iff, Prod.mk.injEq] at hserved
  obtain ⟨_, a, hval, howner, hout⟩ := hserved
  obtain ⟨hklen, hbytes⟩ := Prod.mk.inj howner
  refine ⟨p, hlt, a, hval, hklen, ?_, hout.symm⟩
  rwa [hklen, Key.len_toNat] at hbytes

/-- In any run, every hit returns the entry of a slot that was neither marked
nor expired at the call's reading, and once a call has returned 0 on a slot
whose `ttl` was not zero and not greater than its reading, no later call returns
data from that slot. -/
theorem findRun_expiry_final :
    (∀ e ∈ events, e.output.ret = 1 → ∃ p a, e.output.exit = .found p ∧
        (e.before.slots p).val = some a ∧ e.output.out = e.before.entryOut p a ∧
        (e.before.slots p).ttl ≠ 1 ∧
        ((e.before.slots p).ttl ≠ 0 → e.input.time.toInt < (e.before.slots p).ttl.toNat)) ∧
      events.Pairwise fun earlier later => ∀ p, earlier.output.exit.verified = some p →
        earlier.output.ret = 0 → (earlier.before.slots p).ttl ≠ 0 →
        ((earlier.before.slots p).ttl.toNat : Int) ≤ earlier.input.time.toInt →
        later.output.exit ≠ .found p := by
  have hboard := findRun_blind_board hrun
  constructor
  · intro e he hret
    obtain ⟨next, hstep⟩ := (findRun_completes hrun).exists_next e he
    obtain ⟨hhit, hprimary⟩ := yacStorageFind_hit hstep
    obtain ⟨p, hexit⟩ := hhit.mp hret
    obtain ⟨hp, a, hval, hout⟩ := hprimary p hexit
    have hlive := Board.served_live hboard _ (List.mem_map_of_mem he) p e.output.out
      (boardAnswer_served hexit)
    simp only [Event.map, KeyView.board, hval] at hlive
    rw [slotDeadline_live_iff] at hlive
    exact ⟨p, a, hexit, hval, hout, hlive.1, hlive.2.2⟩
  · refine (List.pairwise_map.mp (Board.dead_final hboard)).imp_of_mem ?_
    intro earlier later hearlier _ hfinal p hverified hret hne hle hexit
    obtain ⟨next, hstep⟩ := (findRun_completes hrun).exists_next earlier hearlier
    exact hfinal p (yacStorageFind_dead hstep hverified hret hne hle)
      ⟨later.output.out, boardAnswer_served hexit⟩

end

/-- A run of three lookups of the stored key hits three times. -/
theorem findRun_hit_owned_stored :
    ∃ events last, findRun evenEnv collidingTable
        (List.replicate 3 ⟨keyHigh2, 0, ⟨[], 0, 0⟩⟩) = .ok (events, last) ∧
      events.map (fun e => e.output.ret) = [1, 1, 1] ∧
      ∀ e ∈ events, e.output.ret = 1 →
        ∃ p < collidingTable.slotsSize.toNat, ∃ a, (collidingTable.slots p).val = some a ∧
          (collidingTable.slots p).klen = e.input.key.len ∧
          (collidingTable.slots p).HoldsBytes e.input.key ∧
          e.output.out = collidingTable.entryOut p a := by
  have howned := @findRun_hit_owned evenEnv collidingTable _
    (List.replicate 3 ⟨keyHigh2, 0, ⟨[], 0, 0⟩⟩) _ rfl
  exact ⟨_, _, rfl, rfl, howned (by decide)⟩

/-- Asked twice for a key that no slot holds, the lookup misses, and then
returns what is stored under the other key. -/
theorem findRun_hit_foreign :
    ¬ ∀ (env : StorageEnv) (s last : YacStorage) (calls : List FindCall)
      (events : List (Event YacStorage FindCall FindAnswer)), s.SlotsInitialized →
      (∀ call ∈ calls, call.key.bytes.length ≤ yacStorageMaxKeyLen) →
      findRun env s calls = .ok (events, last) →
      ∀ e ∈ events, e.output.ret = 1 →
        ∃ p < s.slotsSize.toNat, ∃ a, (s.slots p).val = some a ∧
          (s.slots p).klen = e.input.key.len ∧ (s.slots p).HoldsBytes e.input.key ∧
          e.output.out = s.entryOut p a := by
  intro howned
  have hsecond := howned evenEnv collidingTable _ [collidingCall, collidingCall] _
    collidingTable_initialized (by decide) rfl _ (List.mem_cons_of_mem _ List.mem_cons_self) rfl
  obtain ⟨p, hp, _, _, _, hholds, _⟩ := hsecond
  have hslots : ∀ p < 2, ¬ (collidingTable.slots p).HoldsBytes keyHigh1 := by decide
  exact hslots p hp hholds

/-- One entry that lives until 100. -/
def expiringTable : YacStorage :=
  tableWithB.setSlot 0 { tableWithB.slots 0 with ttl := 100 }

/-- The entry is served at 50, found expired at 100, and not served again when the clock
goes back to 50. -/
theorem findRun_expiry_final_backwards :
    ∃ events last, findRun oddEnv expiringTable
        [⟨keyB, 50, ⟨[], 0, 0⟩⟩, ⟨keyB, 100, ⟨[], 0, 0⟩⟩, ⟨keyB, 50, ⟨[], 0, 0⟩⟩] =
          .ok (events, last) ∧
      events.map (fun e => e.output.ret) = [1, 0, 0] ∧
      (∀ e ∈ events, e.output.ret = 1 → ∃ p a, e.output.exit = .found p ∧
        (e.before.slots p).val = some a ∧ e.output.out = e.before.entryOut p a ∧
        (e.before.slots p).ttl ≠ 1 ∧
        ((e.before.slots p).ttl ≠ 0 → e.input.time.toInt < (e.before.slots p).ttl.toNat)) ∧
      events.Pairwise fun earlier later => ∀ p, earlier.output.exit.verified = some p →
        earlier.output.ret = 0 → (earlier.before.slots p).ttl ≠ 0 →
        ((earlier.before.slots p).ttl.toNat : Int) ≤ earlier.input.time.toInt →
        later.output.exit ≠ .found p := by
  have hexpired := @findRun_expiry_final oddEnv expiringTable _
    [⟨keyB, 50, ⟨[], 0, 0⟩⟩, ⟨keyB, 100, ⟨[], 0, 0⟩⟩, ⟨keyB, 50, ⟨[], 0, 0⟩⟩] _ rfl
  exact ⟨_, _, rfl, rfl, hexpired⟩

end McoWeb.Storage
