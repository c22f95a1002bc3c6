import McoWeb.Storage.FindLaws

/-! # Null value pointers

The primary position of a lookup is guarded by a test of its value pointer, the
probe positions only by the stored hash and key length. An all-zero slot shows
exactly the hash and the length of the empty key, so that key, and no other, can
make the probe loop read through a null pointer.
-/

namespace McoWeb.Storage

/-- An all-zero slot passes for the empty key only. -/
theorem YacStorage.matches_zero_iff (s : YacStorage) (key : Key) {p : Nat}
    (hzero : s.slots p = .zero) : s.Matches key p ↔ key.bytes = [] := by
  rw [Matches, hzero]
  constructor
  · rintro ⟨_, hlen⟩
    have hnat := congrArg UInt32.toNat hlen
    rw [Key.len_toNat] at hnat
    exact List.length_eq_zero_iff.mp hnat.symm
  · intro hnil
    have hlen : key.len = 0 := by simp [Key.len, hnil]
    rw [hnil, hashOf_nil, hlen]
    exact ⟨rfl, rfl⟩

/-- The lookup of the empty key goes past an occupied primary slot to a probe
position whose slot is empty. -/
def ProbesEmptySlot (env : StorageEnv) (s : YacStorage) (key : Key) : Prop :=
  key.bytes = [] ∧ s.Probing key ∧ ∃ p ∈ s.probes env key, (s.slots p).val = none

theorem blocked_val_none {s : YacStorage} {key : Key} {p : Nat}
    (hlen : key.bytes.length ≤ yacStorageMaxKeyLen) (hblocked : Blocked s key p) :
    (s.slots p).val = none :=
  hblocked.2.resolve_right (not_not.mpr hlen)

theorem probeFault_of_none {s : YacStorage} {p : Nat} (hnone : (s.slots p).val = none) :
    probeFault s p = .nullVal p := by
  simp [probeFault, hnone]

theorem not_reads_null_of_not_probesEmptySlot (env : StorageEnv) (s : YacStorage)
    (call : FindCall) (hslots : s.SlotsInitialized)
    (hlen : call.key.bytes.length ≤ yacStorageMaxKeyLen)
    (hsafe : ¬ ProbesEmptySlot env s call.key) (p : Nat) :
    yacStorageFind env s call ≠ .error (.nullVal p) := by
  have houtcome := yacStorageFind_outcome env s call
  intro hfault
  rw [hfault] at houtcome
  generalize hresult : (Except.error (.nullVal p) : Except FindFault (FindAnswer × YacStorage)) =
    result at houtcome
  cases houtcome with
  | empty => simp at hresult
  | overrun => simp at hresult
  | verified => simp at hresult
  | passed => simp at hresult
  | blocked hprobing hq hblocked =>
      have hnone := blocked_val_none hlen hblocked
      have hzero := (hslots _ (s.probes_lt env call.key _ hq)).resolve_right
        (not_not.mpr hnone)
      exact hsafe ⟨(s.matches_zero_iff call.key hzero).mp hblocked.1, hprobing, _, hq, hnone⟩

theorem reads_null_of_probesEmptySlot (env : StorageEnv) (s : YacStorage) (call : FindCall)
    (hslots : s.SlotsInitialized) (hprobes : ProbesEmptySlot env s call.key) :
    ∃ p, yacStorageFind env s call = .error (.nullVal p) := by
  obtain ⟨hnil, hprobing, p, hp, hnone⟩ := hprobes
  have hlen : call.key.bytes.length ≤ yacStorageMaxKeyLen := by simp [hnil, yacStorageMaxKeyLen]
  have hzero := (hslots _ (s.probes_lt env call.key _ hp)).resolve_right (not_not.mpr hnone)
  have hblocked : Blocked s call.key p :=
    ⟨(s.matches_zero_iff call.key hzero).mpr hnil, .inl hnone⟩
  have houtcome := yacStorageFind_outcome env s call
  generalize yacStorageFind env s call = result at houtcome
  cases houtcome with
  | empty hempty => exact absurd hempty hprobing.1
  | overrun _ _ hlong => exact absurd hlen hlong
  | verified hverifies => exact absurd ⟨hverifies.hash_len, hverifies.holds⟩ hprobing.2
  | passed _ hall => exact absurd hblocked (hall p hp)
  | blocked _ _ hq => exact ⟨_, by rw [probeFault_of_none (blocked_val_none hlen hq)]⟩

/-- A lookup of an admissible key reads through occupied slots only, exactly
when it is not the lookup of the empty key that meets an empty probe slot. -/
theorem yacStorageFind_reads_occupied_iff (env : StorageEnv) (s : YacStorage) (call : FindCall)
    (hslots : s.SlotsInitialized) (hlen : call.key.bytes.length ≤ yacStorageMaxKeyLen) :
    (∀ p, yacStorageFind env s call ≠ .error (.nullVal p)) ↔
      ¬ ProbesEmptySlot env s call.key := by
  constructor
  · intro hsafe hprobes
    obtain ⟨p, hfault⟩ := reads_null_of_probesEmptySlot env s call hslots hprobes
    exact hsafe p hfault
  · exact fun hsafe => not_reads_null_of_not_probesEmptySlot env s call hslots hlen hsafe

/-- A slot as a store of a string without bytes leaves it: no expiry, the
checksum of nothing, and the type of a string as its flag. -/
def emptyStringSlot (key : Key) (hfits : key.bytes.length ≤ yacStorageMaxKeyLen) (a : ValAddr) :
    YacKvKey :=
  { YacKvKey.zero.setLen key.len 0 with
    h := hashOf key.bytes
    crc := 0xFFFFFFFF
    flag := 6
    val := some a
    key := KeyField.zero.overwrite key.bytes hfits }

/-- Two slots, of which the first holds the given key and the second the given
slot, with the values their length fields describe. -/
def twoSlots (key : Key) (hfits : key.bytes.length ≤ yacStorageMaxKeyLen) (second : YacKvKey) :
    YacStorage where
  slots p := if p = 0 then emptyStringSlot key hfits 0 else second
  slotsMask := 1
  slotsNum := 1
  slotsSize := 2
  miss := 0
  fails := 0
  kicks := 0
  hits := 0
  vals a := ⟨0, if a = 0 then (emptyStringSlot key hfits 0).len else second.len, fun _ => 0⟩
  size_pow := ⟨1, rfl⟩
  mask_eq := rfl

theorem twoSlots_initialized (key : Key) (hfits : key.bytes.length ≤ yacStorageMaxKeyLen)
    {second : YacKvKey} (hsecond : second = .zero ∨ second.val ≠ none) :
    (twoSlots key hfits second).SlotsInitialized := by
  intro p _
  by_cases hp : p = 0
  · subst hp
    exact .inr (Option.some_ne_none _)
  · have hslot : (twoSlots key hfits second).slots p = second := if_neg hp
    rwa [hslot]

/-- The key `b`, whose primary position among two slots is the first. -/
def keyB : Key := ⟨[0x62], by decide⟩

theorem keyB_fits : keyB.bytes.length ≤ yacStorageMaxKeyLen := by decide

/-- The empty key, which the callers admit. -/
def emptyKey : Key := ⟨[], by decide⟩

/-- One key stored under `b` and an empty slot beside it. -/
def tableWithB : YacStorage := twoSlots keyB keyB_fits .zero

/-- A secondary hash that is odd on every key. -/
def oddEnv : StorageEnv := ⟨fun _ => 1, fun _ => 0⟩

theorem tableWithB_initialized : tableWithB.SlotsInitialized :=
  twoSlots_initialized keyB keyB_fits (.inl rfl)

theorem yacStorageFind_reads_occupied_iff_keyB :
    (∀ p, yacStorageFind oddEnv tableWithB ⟨keyB, 0, ⟨[], 0, 0⟩⟩ ≠ .error (.nullVal p)) ↔
      ¬ ProbesEmptySlot oddEnv tableWithB keyB :=
  yacStorageFind_reads_occupied_iff oddEnv tableWithB ⟨keyB, 0, ⟨[], 0, 0⟩⟩
    tableWithB_initialized (by decide)

/-- Asking for the empty key in a table with one entry reads a null pointer. -/
theorem yacStorageFind_reads_null :
    ¬ ∀ (env : StorageEnv) (s : YacStorage) (call : FindCall), s.SlotsInitialized →
      call.key.bytes.length ≤ yacStorageMaxKeyLen →
      ∀ p, yacStorageFind env s call ≠ .error (.nullVal p) := by
  intro hsafe
  refine hsafe oddEnv tableWithB ⟨emptyKey, 0, ⟨[], 0, 0⟩⟩ tableWithB_initialized (by decide) 1 ?_
  rfl

end McoWeb.Storage
