import McoWeb.Storage.FindRun
import McoWeb.Storage.Interference

/-! # Lookups among themselves

Several lookups at once on a table that nobody else writes, and no lock. Where none
of them meets a foreign key on its probe positions, the table keeps its entries, but
for marks on those that one of the lookups finds expired, and each lookup reports
what it would have reported alone, at its own clock or at that of another lookup of
its key.
-/

namespace McoWeb.Storage

open Foundation

variable {ι : Type}

/-- One of the calls looks for the key at `p` and finds its entry expired. -/
def ExpiredAt (calls : ι → FindCall) (s : YacStorage) (p : Nat) : Prop :=
  (s.slots p).ttl ≠ 0 ∧ ∃ i, s.primary (calls i).key = p ∧ s.HoldsKey (calls i).key p ∧
    ((s.slots p).ttl.toNat : Int) ≤ (calls i).time.toInt

/-- A slot as it was, but for a mark where one of the calls finds it expired. -/
structure SlotAsWas (calls : ι → FindCall) (s : YacStorage) (p : Nat) (k : YacKvKey) : Prop where
  eq : k = { s.slots p with ttl := k.ttl }
  ttl : k.ttl = (s.slots p).ttl ∨ k.ttl = 1 ∧ ExpiredAt calls s p

/-- The table as it was, but for counters, access times, and marks on slots that one of
the calls finds expired. -/
structure MarkedBy (calls : ι → FindCall) (s m : YacStorage) : Prop where
  mask_eq : m.slotsMask = s.slotsMask
  slots : ∀ p, SlotAsWas calls s p (m.slots p)
  val_eq : ∀ a, m.vals a = { s.vals a with atime := (m.vals a).atime }

/-- What a caller gets of a call: the fault, or the return value and the out parameters. -/
def reported (result : Except FindFault FindAnswer) : Except FindFault (Nat × FindOut) :=
  result.map fun answer => (answer.ret, answer.out)

/-- A call reports what it would have reported alone on the table, when one of the lookups
of its key reads the clock. -/
def AsAlone (env : StorageEnv) (calls : ι → FindCall) (s : YacStorage) (i : ι)
    (result : Except FindFault FindAnswer) : Prop :=
  ∃ j, (calls j).key = (calls i).key ∧ reported result =
    reported ((yacStorageFind env s { calls i with time := (calls j).time }).map Prod.fst)

theorem AsAlone.of_eq {env : StorageEnv} {calls : ι → FindCall} {s : YacStorage} {i : ι}
    {result : Except FindFault FindAnswer}
    (heq : result = (yacStorageFind env s (calls i)).map Prod.fst) :
    AsAlone env calls s i result :=
  ⟨i, rfl, congrArg reported heq⟩

theorem KeyField.setByte_byte (field : KeyField) (i : Nat) :
    field.setByte i (field.byte i) = field := by
  cases field with
  | mk bytes length_eq =>
      simp only [setByte, byte, KeyField.mk.injEq]
      by_cases hi : i < bytes.length
      · simp [hi]
      · exact List.set_eq_of_length_le (Nat.le_of_not_lt hi)

/-- A slot that holds a key shows its bytes. -/
theorem YacKvKey.HoldsBytes.byte {k : YacKvKey} {key : Key} (hholds : k.HoldsBytes key) {i : Nat}
    (hi : i < key.bytes.length) : key.bytes.getD i 0 = k.key.byte i := by
  have hget : key.bytes[i]? = (k.key.bytes.take key.bytes.length)[i]? :=
    congrArg (fun bytes => bytes[i]?) (Eq.symm hholds)
  rw [List.getElem?_take_of_lt hi] at hget
  rw [KeyField.byte, List.getD_eq_getElem?_getD, List.getD_eq_getElem?_getD, hget]

namespace MarkedBy

variable {calls : ι → FindCall} {s m : YacStorage}

theorem refl (calls : ι → FindCall) (s : YacStorage) : MarkedBy calls s s where
  mask_eq := rfl
  slots _ := ⟨rfl, .inl rfl⟩
  val_eq _ := rfl

theorem mark (hmarked : MarkedBy calls s m) {p : Nat} (hexpired : ExpiredAt calls s p) :
    MarkedBy calls s (m.mark p) := by
  refine ⟨hmarked.mask_eq, fun q => ?_, hmarked.val_eq⟩
  by_cases hq : q = p
  · subst hq
    refine ⟨?_, .inr ⟨by simp [YacStorage.mark], hexpired⟩⟩
    simp only [YacStorage.mark, YacStorage.setSlot_slots, Function.update_self]
    rw [(hmarked.slots q).eq]
  · simp only [YacStorage.mark, YacStorage.setSlot_slots, Function.update_of_ne hq]
    exact hmarked.slots q

theorem stamp (hmarked : MarkedBy calls s m) (a : ValAddr) (time : Int64) :
    MarkedBy calls s (m.stamp a time) := by
  refine ⟨hmarked.mask_eq, hmarked.slots, fun b => ?_⟩
  by_cases hb : b = a
  · subst hb
    simp only [YacStorage.stamp, YacStorage.setVal_vals, Function.update_self]
    rw [hmarked.val_eq b]
  · simp only [YacStorage.stamp, YacStorage.setVal_vals, Function.update_of_ne hb]
    exact hmarked.val_eq b

/-- Writing a byte of the key that a slot holds changes nothing. -/
theorem setKeyByte (hmarked : MarkedBy calls s m) {p : Nat} {key : Key}
    (hholds : (s.slots p).HoldsBytes key) {i : Nat} (hi : i < key.bytes.length) :
    MarkedBy calls s (m.setKeyByte p i (key.bytes.getD i 0)) := by
  have hbyte : key.bytes.getD i 0 = (m.slots p).key.byte i := by
    rw [hholds.byte hi, (hmarked.slots p).eq]
  have hsame : m.setKeyByte p i (key.bytes.getD i 0) = m := by
    rw [hbyte, YacStorage.setKeyByte, KeyField.setByte_byte]
    simp [YacStorage.setSlot]
  rwa [hsame]

end MarkedBy

section

variable {env : StorageEnv} {calls : ι → FindCall} {s : YacStorage}

theorem countMissProg_keeps : countMissProg.Keeps (MarkedBy calls s) fun _ => True :=
  .bind (.read_any _) fun _ _ =>
    .write fun _ hmarked => ⟨hmarked.mask_eq, hmarked.slots, hmarked.val_eq⟩

theorem countHitProg_keeps : countHitProg.Keeps (MarkedBy calls s) fun _ => True :=
  .bind (.read_any _) fun _ _ =>
    .write fun _ hmarked => ⟨hmarked.mask_eq, hmarked.slots, hmarked.val_eq⟩

theorem readMask_keeps : (Prog.read YacStorage.slotsMask).Keeps (MarkedBy calls s) fun mask =>
    mask = s.slotsMask :=
  .read fun _ hmarked => hmarked.mask_eq

theorem slotIndexProg_keeps (h : UInt64) : (slotIndexProg h).Keeps (MarkedBy calls s) fun p =>
    p = s.slotIndex h := by
  refine .bind readMask_keeps ?_
  rintro _ rfl
  exact .pure rfl

/-- A field that no mark changes is read as it was. -/
theorem readSlot_keeps {α : Type} (f : YacKvKey → α) (p : Nat)
    (hf : ∀ (k : YacKvKey) ttl, f { k with ttl := ttl } = f k) :
    (Prog.read fun m : YacStorage => f (m.slots p)).Keeps (MarkedBy calls s) fun found =>
      found = f (s.slots p) := by
  refine .read fun m hmarked => ?_
  rw [(hmarked.slots p).eq, hf]

theorem copySlotProg_keeps (p : Nat) :
    (copySlotProg p).Keeps (MarkedBy calls s) (SlotAsWas calls s p) := by
  -- field by field, each of which is read at a time of its own
  refine .bind (readSlot_keeps YacKvKey.h p fun _ _ => rfl) ?_
  rintro _ rfl
  refine .bind (readSlot_keeps YacKvKey.crc p fun _ _ => rfl) ?_
  rintro _ rfl
  have hread : (Prog.read fun m : YacStorage => (m.slots p).ttl).Keeps (MarkedBy calls s)
      fun ttl => ttl = (s.slots p).ttl ∨ ttl = 1 ∧ ExpiredAt calls s p :=
    .read fun m hmarked => (hmarked.slots p).ttl
  refine .bind hread fun ttl httl => ?_
  refine .bind (readSlot_keeps YacKvKey.len p fun _ _ => rfl) ?_
  rintro _ rfl
  refine .bind (readSlot_keeps YacKvKey.flag p fun _ _ => rfl) ?_
  rintro _ rfl
  refine .bind (readSlot_keeps YacKvKey.size p fun _ _ => rfl) ?_
  rintro _ rfl
  refine .bind (readSlot_keeps YacKvKey.val p fun _ _ => rfl) ?_
  rintro _ rfl
  have hbytes : ∀ f ∈ (List.range yacStorageMaxKeyLen).map
      fun i (m : YacStorage) => (m.slots p).key.byte i,
      ∀ m, MarkedBy calls s m → f m = f s := by
    intro f hf m hmarked
    obtain ⟨i, _, rfl⟩ := List.mem_map.mp hf
    simp only
    rw [(hmarked.slots p).eq]
  refine .bind (.reads hbytes) ?_
  rintro _ rfl
  refine .pure ⟨?_, httl⟩
  rw [List.map_map]
  exact congrArg (fun field => { s.slots p with ttl := ttl, key := field })
    (s.slots p).key.ofBytes_bytes

theorem copyDataProg_keeps (a : ValAddr) (n : Nat) :
    (copyDataProg a n).Keeps (MarkedBy calls s) fun bytes => bytes = (s.vals a).read n := by
  have hbytes : ∀ f ∈ (List.range n).map fun i (m : YacStorage) => (m.vals a).data i,
      ∀ m, MarkedBy calls s m → f m = f s := by
    intro f hf m hmarked
    obtain ⟨i, _, rfl⟩ := List.mem_map.mp hf
    simp only
    rw [hmarked.val_eq a]
  refine (Prog.Keeps.reads hbytes).mono ?_
  rintro _ rfl
  rw [List.map_map]
  rfl

theorem matchesProg_keeps (p : Nat) (key : Key) :
    (matchesProg p key).Keeps (MarkedBy calls s) fun matching =>
      matching = decide (s.Matches key p) := by
  refine .bind (readSlot_keeps YacKvKey.h p fun _ _ => rfl) ?_
  rintro _ rfl
  split
  next hhash =>
    refine .bind (readSlot_keeps YacKvKey.klen p fun _ _ => rfl) ?_
    rintro _ rfl
    refine .pure (decide_eq_decide.mpr ?_)
    exact ⟨fun hklen => ⟨hhash, hklen⟩, And.right⟩
  next hhash => exact .pure (decide_eq_false fun hmatch => hhash hmatch.1).symm

/-- Copying a key over the same key keeps the table, for every other lookup as well. -/
theorem copyKeyProg_keeps {p : Nat} {key : Key} (hholds : (s.slots p).HoldsBytes key) :
    (copyKeyProg p key.bytes).Keeps (MarkedBy calls s) fun destination =>
      destination = some p := by
  refine copyKeyProg_returns (.writes fun effect heffect m hmarked => ?_)
  obtain ⟨i, hi, rfl⟩ := List.mem_map.mp heffect
  exact hmarked.setKeyByte hholds (List.mem_range.mp hi)

/-- The verification of a copied slot: as of the slot itself, or a miss of an entry that one
of the calls finds expired. -/
theorem verifyProg_keeps {i : ι} {p : Nat} {k : YacKvKey} {a : ValAddr}
    (hprimary : s.primary (calls i).key = p) (hholds : s.HoldsKey (calls i).key p)
    (hslot : SlotAsWas calls s p k) :
    (verifyProg env (calls i) p k a (s.vals a).len).Keeps (MarkedBy calls s) fun answer =>
      answer = (doVerify env s (calls i) p (s.slots p) a (s.vals a)).1 ∨
        answer.ret = 0 ∧ answer.out = (calls i).out ∧ ExpiredAt calls s p := by
  obtain ⟨heq, httl | ⟨hmark, hexpired⟩⟩ := hslot
  · -- not marked since: the copy is the slot
    rw [httl] at heq
    subst heq
    unfold verifyProg doVerify
    dsimp only
    split
    next => exact .bind countMissProg_keeps fun _ _ => .pure (.inl rfl)
    next =>
      split
      next hexpired =>
        refine .bind (.write fun m hmarked => hmarked.mark ?_) fun _ _ =>
          .bind countMissProg_keeps fun _ _ => .pure (.inl rfl)
        exact ⟨hexpired.1, i, hprimary, hholds, hexpired.2⟩
      next =>
        refine .bind (copyDataProg_keeps a _) ?_
        rintro _ rfl
        split
        next => exact .bind countMissProg_keeps fun _ _ => .pure (.inl rfl)
        next =>
          exact .bind (.write fun m hmarked => hmarked.stamp a _) fun _ _ =>
            .bind countHitProg_keeps fun _ _ => .pure (.inl rfl)
  · rw [verifyProg, if_pos (.inl hmark)]
    exact .bind countMissProg_keeps fun _ _ => .pure (.inr ⟨rfl, rfl, hexpired⟩)

/-- The loop over the probe positions where no position shows a foreign key. -/
theorem probeProg_keeps (call : FindCall) (count : Nat) (h : UInt64)
    (hown : ∀ p ∈ s.positionsFrom (s.probeStep env call.key) count h,
      s.Matches call.key p → (s.slots p).HoldsBytes call.key) :
    (probeProg env call count h).Keeps (MarkedBy calls s) fun result =>
      result = (probe env call count h s).map Prod.fst := by
  induction count generalizing h with
  | zero => exact .bind countMissProg_keeps fun _ _ => .pure rfl
  | succ count ih =>
      obtain ⟨hfirst, hrest⟩ := List.forall_mem_cons.mp hown
      have hstep : h + (env.yacInlineHashFunc2 call.key.bytes &&& s.slotsMask.toUInt64) =
          h + s.probeStep env call.key := rfl
      refine .bind readMask_keeps ?_
      rintro _ rfl
      simp only [hstep]
      refine .bind (slotIndexProg_keeps _) ?_
      rintro _ rfl
      refine .bind (matchesProg_keeps _ _) ?_
      rintro _ rfl
      by_cases hmatch : s.Matches call.key (s.slotIndex (h + s.probeStep env call.key))
      · -- the slot holds the key, so copying the key over it changes nothing
        have hholds := hfirst hmatch
        rw [if_pos (decide_eq_true hmatch)]
        refine .bind (readSlot_keeps YacKvKey.val _ fun _ _ => rfl) ?_
        rintro _ rfl
        cases hval : (s.slots (s.slotIndex (h + s.probeStep env call.key))).val with
        | none =>
            rw [probe_succ_of_blocked env call count h s ⟨hmatch, .inl hval⟩]
            refine .pure ?_
            simp only [probeFault, hval]
            rfl
        | some a =>
            refine .bind (.read_any _) fun len _ => ?_
            split
            next hfits =>
              rw [probe_succ_of_fits env call count h s hmatch (by simp [hval]) hfits]
              have hsame := (KeyField.overwrite_eq_self_iff _ _ hfits).mpr hholds
              have hcopy : (s.memcpyKey (s.slotIndex (h + s.probeStep env call.key))
                  call.key.bytes hfits).2 = s := by
                simp only [YacStorage.memcpyKey, hsame]
                simp [YacStorage.setSlot]
              rw [hcopy]
              refine .bind (copyKeyProg_keeps hholds) ?_
              rintro _ rfl
              exact ih _ hrest
            next hfits =>
              rw [probe_succ_of_blocked env call count h s ⟨hmatch, .inr hfits⟩]
              refine .pure ?_
              simp only [probeFault, hval]
              rfl
      · rw [if_neg (by simpa using hmatch), probe_succ_of_not_matches env call count h s hmatch]
        exact ih _ hrest

/-- The verification of an entry that has expired at the call's time is a miss. -/
theorem doVerify_expired {call : FindCall} {p : Nat} {a : ValAddr} (hne : (s.slots p).ttl ≠ 0)
    (hle : ((s.slots p).ttl.toNat : Int) ≤ call.time.toInt) :
    (doVerify env s call p (s.slots p) a (s.vals a)).1.ret = 0 ∧
      (doVerify env s call p (s.slots p) a (s.vals a)).1.out = call.out := by
  unfold doVerify
  dsimp only
  split
  next => exact ⟨rfl, rfl⟩
  next =>
    rw [if_pos ⟨hne, hle⟩]
    exact ⟨rfl, rfl⟩

/-- A lookup that goes on to the probe positions, from there on. -/
theorem probeProg_asAlone {i : ι} (hforeign : ¬ ProbesForeignKey env s (calls i).key)
    (hprobing : s.Probing (calls i).key)
    (hfind : yacStorageFind env s (calls i) =
      probe env (calls i) 3 (hashOf (calls i).key.bytes) s) :
    (probeProg env (calls i) 3 (hashOf (calls i).key.bytes)).Keeps (MarkedBy calls s)
      (AsAlone env calls s i) := by
  have hown : ∀ p ∈ s.positionsFrom (s.probeStep env (calls i).key) 3
      (hashOf (calls i).key.bytes), s.Matches (calls i).key p →
      (s.slots p).HoldsBytes (calls i).key := by
    intro p hp hmatch
    by_contra hne
    exact hforeign ⟨hprobing, p, hp, hmatch, hne⟩
  refine (probeProg_keeps (calls i) 3 _ hown).mono fun result hresult => .of_eq ?_
  rw [hresult, hfind]

/-- A lookup whose primary slot holds the key, once it has copied the slot. -/
theorem verifyProg_asAlone {i : ι} {a : ValAddr} {k : YacKvKey}
    (hverifies : s.Verifies (calls i).key a)
    (hslot : SlotAsWas calls s (s.primary (calls i).key) k) :
    (verifyProg env (calls i) (s.primary (calls i).key) k a (s.vals a).len).Keeps
      (MarkedBy calls s) fun answer => AsAlone env calls s i (.ok answer) := by
  have hholds : s.HoldsKey (calls i).key (s.primary (calls i).key) :=
    ⟨hverifies.hash_len, hverifies.holds⟩
  refine (verifyProg_keeps rfl hholds hslot).mono fun answer hanswer => ?_
  rcases hanswer with rfl | ⟨hret, hout, hne, j, _, hother, hle⟩
  · apply AsAlone.of_eq
    rw [yacStorageFind_of_verifies hverifies]
    rfl
  · -- the mark is of a lookup of the same key, at whose clock this one misses as well
    have hfind := @yacStorageFind_of_verifies env s
      { calls i with time := (calls j).time } a hverifies
    obtain ⟨hret', hout'⟩ := @doVerify_expired env s
      { calls i with time := (calls j).time } (s.primary (calls i).key) a hne hle
    refine ⟨j, hother.unique hholds, ?_⟩
    rw [hfind]
    simp only [reported, Except.map, hret, hout, hret', hout']

theorem findProg_asAlone (i : ι) (hforeign : ¬ ProbesForeignKey env s (calls i).key) :
    (findProg env (calls i)).Keeps (MarkedBy calls s) (AsAlone env calls s i) := by
  refine .bind (slotIndexProg_keeps _) ?_
  rintro _ rfl
  refine .bind (copySlotProg_keeps _) fun k hslot => ?_
  -- a mark changes none of what is tested before the verification
  have hval : k.val = (s.slots (s.primary (calls i).key)).val := by rw [hslot.eq]; rfl
  have hbytes : k.HoldsBytes (calls i).key ↔
      (s.slots (s.primary (calls i).key)).HoldsBytes (calls i).key := by rw [hslot.eq]; rfl
  have hmatches : k.h = hashOf (calls i).key.bytes ∧ k.klen = (calls i).key.len ↔
      s.Matches (calls i).key (s.primary (calls i).key) := by rw [hslot.eq]; rfl
  cases hcases : k.val with
  | none =>
      refine .bind countMissProg_keeps fun _ _ => .pure (.of_eq ?_)
      rw [hval] at hcases
      simp only [yacStorageFind, hcases]
      rfl
  | some a =>
      rw [hval] at hcases
      have hlen : (Prog.read fun m : YacStorage => (m.vals a).len).Keeps (MarkedBy calls s)
          fun len => len = (s.vals a).len := by
        refine .read fun m hmarked => ?_
        rw [hmarked.val_eq a]
      simp only [hmatches, hbytes]
      by_cases hmatch : s.Matches (calls i).key (s.primary (calls i).key)
      · rw [if_pos hmatch]
        refine .bind hlen ?_
        rintro _ rfl
        by_cases hfits : (calls i).key.bytes.length ≤ yacStorageMaxKeyLen
        · rw [if_pos hfits]
          by_cases hholds : (s.slots (s.primary (calls i).key)).HoldsBytes (calls i).key
          · rw [if_pos hholds]
            exact .bind (verifyProg_asAlone ⟨hcases, hmatch, hfits, hholds⟩ hslot)
              fun answer hanswer => .pure hanswer
          · rw [if_neg hholds]
            refine probeProg_asAlone hforeign ⟨by simp [hcases], fun hboth => hholds hboth.2⟩ ?_
            simp only [yacStorageFind, hcases, if_pos hmatch, if_pos hfits, if_neg hholds]
        · rw [if_neg hfits]
          refine .pure (.of_eq ?_)
          simp only [yacStorageFind, hcases, if_pos hmatch, if_neg hfits]
          rfl
      · rw [if_neg hmatch]
        refine probeProg_asAlone hforeign ⟨by simp [hcases], fun hboth => hmatch hboth.1⟩ ?_
        simp only [yacStorageFind, hcases, if_neg hmatch]

end

/-- In any interleaving of any lookups with each other, none of which meets a foreign key
on its probe positions, the table keeps its entries up to marks on expired ones, and
every lookup that has returned reports what it would have reported alone, at its own
clock or at that of another lookup of the same key. -/
theorem lookups_asAlone [DecidableEq ι] (env : StorageEnv) (calls : ι → FindCall) (s : YacStorage)
    (hforeign : ∀ i, ¬ ProbesForeignKey env s (calls i).key)
    (last : Pool YacStorage ι (Except FindFault FindAnswer))
    (events : List (Event (Pool YacStorage ι (Except FindFault FindAnswer)) (Option ι) Unit))
    (hrun : Run (Pool.Step fun _ _ => False) (lookups env calls s) events last) :
    MarkedBy calls s last.memory ∧
      ∀ i result, last.programs i = .ret result → AsAlone env calls s i result := by
  have hsound : (lookups env calls s).Sound (MarkedBy calls s) (AsAlone env calls s) :=
    ⟨.refl calls s, fun i => findProg_asAlone i (hforeign i)⟩
  exact Pool.run_returned (fun _ _ _ hno => hno.elim) hrun hsound

set_option maxRecDepth 100000 in
/-- The lookup at 50 meets the mark of the lookup at 100, and misses an entry that it would
have served alone. -/
theorem lookups_asAlone_pair : ∃ events last,
    Run (Pool.Step fun _ _ => False) (lookups oddEnv pairCalls expiringTable) events last ∧
      last.programs false = .ret (.ok ⟨0, .refused 0, ⟨[], 0, 0⟩⟩) ∧
      MarkedBy pairCalls expiringTable last.memory ∧
      AsAlone oddEnv pairCalls expiringTable false (.ok ⟨0, .refused 0, ⟨[], 0, 0⟩⟩) ∧
      reported ((yacStorageFind oddEnv expiringTable (pairCalls false)).map Prod.fst) =
        .ok (1, ⟨[0], 0, 6⟩) := by
  have hforeign : ∀ i, ¬ ProbesForeignKey oddEnv expiringTable (pairCalls i).key := by
    intro i hprobes
    have hkey : (pairCalls i).key = keyB := by cases i <;> rfl
    rw [hkey] at hprobes
    have hholds : expiringTable.HoldsKey keyB (expiringTable.primary keyB) := by decide
    exact hprobes.1.2 hholds
  obtain ⟨events, hrun⟩ := Pool.exists_run_schedule (fun _ _ => False) (pairSchedule 58)
    (lookups oddEnv pairCalls expiringTable)
  have hreturned : ((pairSchedule 58).foldl Pool.advance
      (lookups oddEnv pairCalls expiringTable)).programs false =
        .ret (.ok ⟨0, .refused 0, ⟨[], 0, 0⟩⟩) := rfl
  obtain ⟨hmarked, halone⟩ := lookups_asAlone oddEnv pairCalls expiringTable hforeign _ events hrun
  exact ⟨events, _, hrun, hreturned, hmarked, halone false _ hreturned, rfl⟩

end McoWeb.Storage
