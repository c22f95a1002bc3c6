import McoWeb.Storage.FindRun

/-! # What a hit is and which entries are hit

A hit comes from one slot of the probe sequence that has passed every check. The
converse holds for the primary position only: the loop that should find an entry
at one of the three further positions never enters the verification block.
-/

namespace McoWeb.Storage

namespace YacStorage

variable (s : YacStorage) (env : StorageEnv) (key : Key)

/-- The positions of the probe sequence, counted from the primary one. -/
def position (i : Nat) : Nat :=
  s.slotIndex (hashOf key.bytes + UInt64.ofNat i * s.probeStep env key)

/-- The slot shows the key's hash and length and holds its bytes. -/
def HoldsKey (p : Nat) : Prop := s.Matches key p ∧ (s.slots p).HoldsBytes key

instance (p : Nat) : Decidable (s.HoldsKey key p) := inferInstanceAs (Decidable (_ ∧ _))

/-- The first of the four positions whose slot holds the key. -/
structure FirstHolding (i : Nat) : Prop where
  lt : i < 4
  holds : s.HoldsKey key (s.position env key i)
  first : ∀ j < i, ¬ s.HoldsKey key (s.position env key j)

/-- A slot and its value as a lookup should return them: neither marked nor
expired, with agreeing length fields and the checksum of its bytes. -/
structure Intact (now : Int64) (p : Nat) (a : ValAddr) : Prop where
  val_eq : (s.slots p).val = some a
  live : (s.slots p).ttl = 0 ∨ (s.slots p).ttl ≠ 1 ∧ now.toInt < (s.slots p).ttl.toNat
  len_eq : (s.slots p).len = (s.vals a).len
  crc_eq : (s.slots p).crc =
    (checksumOf env.crc32Tab ((s.vals a).read (s.slots p).vlen.toNat)).toUInt64

theorem position_zero : s.position env key 0 = s.primary key := by
  have hzero : UInt64.ofNat 0 * s.probeStep env key = 0 := UInt64.zero_mul
  rw [position, hzero, UInt64.add_zero, primary]

variable {s key} in
/-- A slot holds at most one key. -/
theorem HoldsKey.unique {key' : Key} {p : Nat} (hkey : s.HoldsKey key p)
    (hkey' : s.HoldsKey key' p) : key = key' := by
  obtain ⟨⟨_, hlen⟩, hbytes⟩ := hkey
  obtain ⟨⟨_, hlen'⟩, hbytes'⟩ := hkey'
  have hlength : key.bytes.length = key'.bytes.length := by
    rw [← key.len_toNat, ← hlen, hlen', key'.len_toNat]
  apply Key.ext
  rw [← (show _ = key.bytes from hbytes), ← (show _ = key'.bytes from hbytes'), hlength]

end YacStorage

/-- The out parameters after a hit, check by check against the slot at entry. -/
structure VerifiedHit (env : StorageEnv) (s : YacStorage) (call : FindCall) (out : FindOut)
    (p : Nat) (a : ValAddr) : Prop where
  val_eq : (s.slots p).val = some a
  hash : (s.slots p).h = hashOf call.key.bytes
  klen : (s.slots p).klen = call.key.len
  holds : (s.slots p).HoldsBytes call.key
  unmarked : (s.slots p).ttl ≠ 1
  unexpired : (s.slots p).ttl ≠ 0 → call.time.toInt < (s.slots p).ttl.toNat
  len_eq : (s.slots p).len = (s.vals a).len
  size : out.size = (s.slots p).vlen
  data : out.data.take out.size.toNat = (s.vals a).read out.size.toNat
  checksum : (checksumOf env.crc32Tab (out.data.take out.size.toNat)).toUInt64 = (s.slots p).crc
  terminated : out.data[out.size.toNat]? = some 0
  flag : out.flag = (s.slots p).flag

theorem YacKvVal.length_read (v : YacKvVal) (n : Nat) : (v.read n).length = n := by
  simp [YacKvVal.read]

theorem VerifyOutcome.verifiedHit {env : StorageEnv} {s s' : YacStorage} {call : FindCall}
    {a : ValAddr} {answer : FindAnswer} (hverifies : s.Verifies call.key a)
    (houtcome : VerifyOutcome env s call (s.primary call.key) a (answer, s')) :
    answer.ret = 1 ∧ VerifiedHit env s call answer.out (s.primary call.key) a ∨
      answer.ret = 0 ∧ answer.out = call.out := by
  cases houtcome with
  | refused => exact .inr ⟨rfl, rfl⟩
  | expired => exact .inr ⟨rfl, rfl⟩
  | corrupt => exact .inr ⟨rfl, rfl⟩
  | found hmark hlen hlive hcrc =>
      have hread := (s.vals a).length_read (s.slots (s.primary call.key)).vlen.toNat
      have htake : List.take (s.slots (s.primary call.key)).vlen.toNat
          ((s.vals a).read (s.slots (s.primary call.key)).vlen.toNat ++ [0]) =
            (s.vals a).read (s.slots (s.primary call.key)).vlen.toNat := List.take_left' hread
      refine .inl ⟨rfl, ?_⟩
      exact
        { val_eq := hverifies.val_eq
          hash := hverifies.hash_len.1
          klen := hverifies.hash_len.2
          holds := hverifies.holds
          unmarked := hmark
          unexpired := hlive
          len_eq := hlen
          size := rfl
          data := htake
          checksum := by rw [htake, hcrc]
          terminated := by
            rw [List.getElem?_append_right (Nat.le_of_eq hread), hread, Nat.sub_self]
            rfl
          flag := rfl }

/-- A call that exits with a slot has verified the primary one. -/
theorem yacStorageFind_found {env : StorageEnv} {s s' : YacStorage} {call : FindCall}
    {answer : FindAnswer} (hfind : yacStorageFind env s call = .ok (answer, s')) {p : Nat}
    (hexit : answer.exit = .found p) :
    p = s.primary call.key ∧ ∃ a, VerifiedHit env s call answer.out p a := by
  obtain ⟨hhit, hprimary⟩ := yacStorageFind_hit hfind
  have hret := hhit.mpr ⟨p, hexit⟩
  obtain rfl := (hprimary p hexit).1
  refine ⟨rfl, ?_⟩
  rcases yacStorageFind_verifies_or_absent hfind with ⟨a, hverifies, houtcome⟩ | rfl
  · rcases houtcome.verifiedHit hverifies with ⟨_, hverified⟩ | ⟨hzero, _⟩
    · exact ⟨a, hverified⟩
    · exact absurd (hret.symm.trans hzero) (by decide)
  · cases hexit

theorem yacStorageFind_miss_out {env : StorageEnv} {s s' : YacStorage} {call : FindCall}
    {answer : FindAnswer} (hfind : yacStorageFind env s call = .ok (answer, s'))
    (hret : answer.ret = 0) : answer.out = call.out := by
  rcases yacStorageFind_verifies_or_absent hfind with ⟨a, hverifies, houtcome⟩ | rfl
  · rcases houtcome.verifiedHit hverifies with ⟨hone, _⟩ | ⟨_, hout⟩
    · exact absurd (hone.symm.trans hret) (by decide)
    · exact hout
  · rfl

/-- Every hit comes from one position of the probe sequence whose slot passed all
checks, and a call that returns 0 leaves the out parameters alone. -/
theorem yacStorageFind_verified (env : StorageEnv) (s s' : YacStorage) (call : FindCall)
    (answer : FindAnswer) (hfind : yacStorageFind env s call = .ok (answer, s')) :
    (answer.ret = 1 → ∃ i < 4, ∃ a,
        VerifiedHit env s call answer.out (s.position env call.key i) a) ∧
      (answer.ret = 0 → answer.out = call.out) := by
  refine ⟨?_, yacStorageFind_miss_out hfind⟩
  intro hret
  obtain ⟨p, hexit⟩ := (yacStorageFind_hit hfind).1.mp hret
  obtain ⟨rfl, a, hverified⟩ := yacStorageFind_found hfind hexit
  rw [← s.position_zero env call.key] at hverified
  exact ⟨0, by decide, a, hverified⟩

/-- The stored entry of the table with `b`, as a hit returns it. -/
theorem yacStorageFind_verified_keyB :
    ∃ i < 4, ∃ a, VerifiedHit oddEnv tableWithB ⟨keyB, 0, ⟨[], 0, 0⟩⟩ ⟨[0], 0, 6⟩
      (tableWithB.position oddEnv keyB i) a :=
  (yacStorageFind_verified oddEnv tableWithB _ ⟨keyB, 0, ⟨[], 0, 0⟩⟩ _ rfl).1 rfl

section

variable {env : StorageEnv} {s : YacStorage} {call : FindCall}

/-- An intact entry at the primary position is returned. -/
theorem yacStorageFind_primary {a : ValAddr}
    (hlen : call.key.bytes.length ≤ yacStorageMaxKeyLen)
    (hholds : s.HoldsKey call.key (s.primary call.key))
    (hintact : s.Intact env call.time (s.primary call.key) a) :
    ∃ s', yacStorageFind env s call =
      .ok (⟨1, .found (s.primary call.key), s.entryOut (s.primary call.key) a⟩, s') := by
  obtain ⟨hval, hlive, hlens, hcrc⟩ := hintact
  have hmark : (s.slots (s.primary call.key)).ttl ≠ 1 := by
    rcases hlive with hzero | ⟨hmark, _⟩
    · rw [hzero]
      decide
    · exact hmark
  have hrefused : ¬ ((s.slots (s.primary call.key)).ttl = 1 ∨
      (s.slots (s.primary call.key)).len ≠ (s.vals a).len) :=
    fun hrefused => hrefused.elim hmark (not_not.mpr hlens)
  have hexpired : ¬ ((s.slots (s.primary call.key)).ttl ≠ 0 ∧
      ((s.slots (s.primary call.key)).ttl.toNat : Int) ≤ call.time.toInt) := by
    rintro ⟨hne, hle⟩
    rcases hlive with hzero | ⟨_, hlt⟩
    · exact hne hzero
    · omega
  refine ⟨(s.setVal a { s.vals a with atime := call.time.toUInt64 }).countHit, ?_⟩
  rw [yacStorageFind_of_verifies ⟨hval, hholds.1, hlen, hholds.2⟩, doVerify, if_neg hrefused,
    if_neg hexpired]
  simp only [if_neg (not_not.mpr hcrc)]
  rfl

/-- A lookup whose primary position does not hold the key never returns 1. -/
theorem yacStorageFind_ret_of_not_primary {answer : FindAnswer} {s' : YacStorage}
    (hholds : ¬ s.HoldsKey call.key (s.primary call.key))
    (hfind : yacStorageFind env s call = .ok (answer, s')) : answer.ret = 0 := by
  rcases yacStorageFind_verifies_or_absent hfind with ⟨a, hverifies, _⟩ | rfl
  · exact absurd ⟨hverifies.hash_len, hverifies.holds⟩ hholds
  · rfl

end

/-- The first position of the probe sequence that holds the key, holding an intact
entry, is served exactly when it is the primary one. -/
theorem yacStorageFind_complete_iff (env : StorageEnv) (s : YacStorage) (call : FindCall)
    (i : Nat) (a : ValAddr) (hlen : call.key.bytes.length ≤ yacStorageMaxKeyLen)
    (hfirst : s.FirstHolding env call.key i)
    (hintact : s.Intact env call.time (s.position env call.key i) a) :
    (∃ answer s', yacStorageFind env s call = .ok (answer, s') ∧ answer.ret = 1 ∧
        answer.out = s.entryOut (s.position env call.key i) a) ↔ i = 0 := by
  constructor
  · rintro ⟨answer, s', hfind, hret, _⟩
    by_contra hne
    have hprimary := hfirst.first 0 (Nat.pos_of_ne_zero hne)
    rw [s.position_zero] at hprimary
    have hzero := yacStorageFind_ret_of_not_primary hprimary hfind
    exact absurd (hret.symm.trans hzero) (by decide)
  · rintro rfl
    have hholds := hfirst.holds
    rw [s.position_zero] at hholds hintact ⊢
    obtain ⟨s', hfind⟩ := yacStorageFind_primary hlen hholds hintact
    exact ⟨_, s', hfind, rfl, rfl⟩

theorem yacStorageFind_complete_iff_keyB :
    (∃ answer s', yacStorageFind oddEnv tableWithB ⟨keyB, 0, ⟨[], 0, 0⟩⟩ = .ok (answer, s') ∧
        answer.ret = 1 ∧ answer.out = tableWithB.entryOut (tableWithB.position oddEnv keyB 0) 0) ↔
      0 = 0 :=
  yacStorageFind_complete_iff oddEnv tableWithB ⟨keyB, 0, ⟨[], 0, 0⟩⟩ 0 0 (by decide)
    ⟨by decide, by decide, fun _ hj => absurd hj (Nat.not_lt_zero _)⟩
    ⟨by decide, .inl (by decide), by decide, by decide⟩

/-- The key `d`, whose primary position among two slots is the first as well. -/
def keyD : Key := ⟨[0x64], by decide⟩

/-- The entry of `d` stands displaced in the second slot. -/
def displacedTable : YacStorage :=
  twoSlots keyB keyB_fits (emptyStringSlot keyD (by decide) 1)

theorem displacedTable_initialized : displacedTable.SlotsInitialized :=
  twoSlots_initialized keyB keyB_fits (.inr (Option.some_ne_none _))

/-- The lookup of `d` probes the slot that holds it and misses. -/
theorem yacStorageFind_misses_displaced :
    ¬ ∀ (env : StorageEnv) (s : YacStorage) (call : FindCall) (i : Nat) (a : ValAddr),
      s.SlotsInitialized → (s.slots (s.primary call.key)).val ≠ none →
      1 ≤ call.key.bytes.length → call.key.bytes.length ≤ yacStorageMaxKeyLen →
      s.FirstHolding env call.key i →
      s.Intact env call.time (s.position env call.key i) a →
      ∃ answer s', yacStorageFind env s call = .ok (answer, s') ∧ answer.ret = 1 ∧
        answer.out = s.entryOut (s.position env call.key i) a := by
  intro hcomplete
  have hfirst : ∀ j < 1,
      ¬ displacedTable.HoldsKey keyD (displacedTable.position oddEnv keyD j) := by decide
  obtain ⟨answer, s', hfind, hret, _⟩ := hcomplete oddEnv displacedTable ⟨keyD, 0, ⟨[], 0, 0⟩⟩ 1 1
    displacedTable_initialized (by decide) (by decide) (by decide)
    ⟨by decide, by decide, hfirst⟩ ⟨by decide, .inl (by decide), by decide, by decide⟩
  obtain rfl : ⟨0, .absent, ⟨[], 0, 0⟩⟩ = answer := congrArg Prod.fst (Except.ok.inj hfind)
  exact absurd hret (by decide)

end McoWeb.Storage
