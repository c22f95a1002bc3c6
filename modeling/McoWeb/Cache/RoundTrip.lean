import McoWeb.Cache.GetImpl
import McoWeb.Cache.StoreArguments

/-! # Reading back what was stored

The decoder of `yac_get_impl` undoes the encoder of `yac_add_impl`: for every
type but the constants, on the plain and on the compressed path.
-/

namespace McoWeb.Cache

open Foundation Storage

/-- The values a script can hold and store. -/
def Zval.Data : Zval → Prop
  | .null | .bool _ | .long _ | .double _ | .string _ | .array _ | .object _ _ => True
  | _ => False

/-- The types that a store accepts. -/
def Zval.Storable : Zval → Prop
  | .resource _ | .other _ _ _ => False
  | _ => True

namespace Zval

theorem Data.storable {value : Zval} (hdata : value.Data) : value.Storable := by
  cases value <;> first | exact hdata.elim | trivial

variable {value : Zval} (hstorable : value.Storable)

include hstorable

theorem Storable.type_lt : value.type.toUInt32.toNat < 2 ^ 5 := by
  cases value <;> simp only [type] <;> first | exact hstorable.elim | decide

theorem Storable.type_masked : value.type.toUInt32 &&& yacEntryTypeMask = value.type.toUInt32 := by
  cases value <;> simp only [type] <;> first | exact hstorable.elim | decide

theorem Storable.type_plain : value.type.toUInt32 &&& yacEntryCompressed = 0 := by
  cases value <;> simp only [type] <;> first | exact hstorable.elim | decide

end Zval

namespace Yac

variable {σ : Type} {yac : Yac σ} {value : Zval} {data : List UInt8} {flag : UInt32}

/-- The fields of an entry's flag word as the decoder reads them: the type, the
compression bit, and the original length of compressed data. -/
structure FlagFields (yac : Yac σ) (value : Zval) (data : List UInt8) (flag : UInt32) :
    Prop where
  type : flag &&& yacEntryTypeMask = value.type.toUInt32
  plain : flag &&& yacEntryCompressed = 0 → flag = value.type.toUInt32 ∧
    ∀ bytes, yac.payload value = some bytes → data = bytes
  compressed : flag &&& yacEntryCompressed ≠ 0 → ∃ bytes, yac.payload value = some bytes ∧
    bytes ≠ [] ∧ data = yac.fastlz.compress bytes ∧ data ≠ [] ∧
    (flag >>> yacEntryOrigLenShit).toNat = bytes.length

theorem payload_ne_of_word {word bytes : List UInt8} (hword : value.word = some word) :
    yac.payload value ≠ some bytes := by
  intro hpayload
  cases value <;> simp_all [payload, Zval.word]

theorem Encodes.of_word {word : List UInt8} (hword : value.word = some word)
    (hencodes : yac.Encodes value data flag) : data = word ∧ flag = value.type.toUInt32 := by
  cases hencodes with
  | word hbytes => exact ⟨Option.some.inj (hbytes.symm.trans hword), rfl⟩
  | plain hpayload _ => exact absurd hpayload (payload_ne_of_word hword)
  | compressed hpayload _ _ _ _ => exact absurd hpayload (payload_ne_of_word hword)

theorem Encodes.exists_payload (hword : value.word = none)
    (hencodes : yac.Encodes value data flag) : ∃ bytes, yac.payload value = some bytes := by
  cases hencodes with
  | word hbytes => rw [hword] at hbytes; cases hbytes
  | plain hpayload _ => exact ⟨_, hpayload⟩
  | compressed hpayload _ _ _ _ => exact ⟨_, hpayload⟩

theorem Encodes.storable (hencodes : yac.Encodes value data flag) : value.Storable := by
  cases hencodes with
  | word hword => cases value <;> trivial
  | plain hpayload _ => cases value <;> trivial
  | compressed hpayload _ _ _ _ => cases value <;> trivial

theorem FlagFields.of_type (hstorable : value.Storable)
    (hbytes : ∀ bytes, yac.payload value = some bytes → data = bytes) :
    yac.FlagFields value data value.type.toUInt32 :=
  ⟨hstorable.type_masked, fun _ => ⟨rfl, hbytes⟩, fun hne => absurd hstorable.type_plain hne⟩

theorem Encodes.flagFields (hencodes : yac.Encodes value data flag) :
    yac.FlagFields value data flag := by
  have hstorable := hencodes.storable
  cases hencodes with
  | word hword =>
      refine .of_type hstorable fun bytes hbytes => ?_
      exact absurd hbytes (payload_ne_of_word hword)
  | plain hpayload _ =>
      refine .of_type hstorable fun bytes hbytes => ?_
      exact Option.some.inj (hpayload.symm.trans hbytes)
  | @compressed bytes hpayload hlong hmax hcompress hshort =>
      refine ⟨compressedFlag_type hstorable.type_lt hmax, ?_, ?_⟩
      · intro hplain
        exact absurd hplain (compressedFlag_compressed _ _)
      · intro _
        refine ⟨bytes, hpayload, ?_, rfl, hcompress, compressedFlag_origLen hstorable.type_lt hmax⟩
        rintro rfl
        simp [overLimit] at hlong

/-- The compression bit says which way the payload went. -/
theorem Encodes.compressed_iff {bytes : List UInt8} (hpayload : yac.payload value = some bytes)
    (hencodes : yac.Encodes value data flag) :
    flag &&& yacEntryCompressed ≠ 0 ↔ overLimit yac.compressThreshold bytes.length := by
  have hplain := hencodes.storable.type_plain
  cases hencodes with
  | word hword => exact absurd hpayload (payload_ne_of_word hword)
  | plain hpayload' hshort =>
      obtain rfl := Option.some.inj (hpayload.symm.trans hpayload')
      exact iff_of_false (not_not.mpr hplain) hshort
  | compressed hpayload' hlong _ _ _ =>
      obtain rfl := Option.some.inj (hpayload.symm.trans hpayload')
      exact iff_of_true (compressedFlag_compressed _ _) hlong

/-- No entry is larger than the store's limit. -/
theorem Encodes.length_le (hencodes : yac.Encodes value data flag) :
    data.length ≤ yacStorageMaxEntryLen := by
  have hlimit : ∀ {bytes : List UInt8}, ¬ overLimit yac.compressThreshold bytes.length →
      bytes.length ≤ yacStorageMaxEntryLen := by
    intro bytes hshort
    exact Nat.le_of_not_lt fun hlt => hshort (.inr hlt)
  cases hencodes with
  | word hword =>
      cases value <;> cases hword <;> simp [yacStorageMaxEntryLen]
  | plain _ hshort => exact hlimit hshort
  | compressed _ _ _ _ hshort => exact hlimit hshort

theorem readWord_toWord (n : UInt64) : UInt64.ofNat (ofWord (toWord 8 n.toNat)) = n := by
  have hlt : n.toNat < 256 ^ 8 := n.toNat_lt
  rw [ofWord_toWord_of_lt hlt, UInt64.ofNat_toNat]

/-- The uncompressed bytes of an entry, as both variable-size branches of the decoder
obtain them. -/
def restored (yac : Yac σ) (found : Fetched) : List UInt8 :=
  if found.flag &&& yacEntryCompressed ≠ 0 then (yac.origin found).bytes else found.data

variable {w : World σ} {found : Fetched}

theorem FlagFields.origin (hlz : yac.fastlz.Undoes)
    (hfields : yac.FlagFields value found.data found.flag) {bytes : List UInt8}
    (hpayload : yac.payload value = some bytes)
    (hcompressed : found.flag &&& yacEntryCompressed ≠ 0) :
    (yac.origin found).bytes = bytes ∧ (yac.origin found).length ≠ 0 := by
  obtain ⟨original, horiginal, hnonempty, hdata, hpacked, hlen⟩ :=
    hfields.compressed hcompressed
  obtain rfl : original = bytes := Option.some.inj (horiginal.symm.trans hpayload)
  have hbytes : (yac.origin found).bytes = original := by
    change yac.fastlz.decompress found.data _ = original
    rw [hlen, hdata]
    exact hlz original (hdata ▸ hpacked)
  refine ⟨hbytes, ?_⟩
  rw [PhpString.length, hbytes]
  exact fun hzero => hnonempty (List.length_eq_zero_iff.mp hzero)

theorem FlagFields.restored_eq (hlz : yac.fastlz.Undoes)
    (hfields : yac.FlagFields value found.data found.flag) {bytes : List UInt8}
    (hpayload : yac.payload value = some bytes) : yac.restored found = bytes := by
  unfold restored
  split
  next hcompressed => exact (hfields.origin hlz hpayload hcompressed).1
  next hplain => exact (hfields.plain (not_not.mp hplain)).2 bytes hpayload

/-- Compressed bytes always come back as a string, plain ones as the type of the entry. -/
theorem decodeEntry_bytes (hlz : yac.fastlz.Undoes) {str : PhpString}
    (hfields : yac.FlagFields value found.data found.flag)
    (hmask : value.type.toUInt32.toNat = 6 ∨ value.type.toUInt32.toNat = 8)
    (hpayload : yac.payload value = some str.bytes) :
    yac.decodeEntry w found =
      (some (if found.flag &&& yacEntryCompressed ≠ 0 then .string str
        else .ofStr value.type str), w) := by
  have hbranch : yac.decodeEntry w found =
      if found.flag &&& yacEntryCompressed ≠ 0 then
        if (yac.origin found).length = 0 then (none, w.warn "Decompression failed")
        else (some (.string (yac.origin found)), w)
      else (some (.ofStr found.flag.toUInt8
        ⟨found.data, Nat.lt_trans found.size_lt (by decide)⟩), w) := by
    rw [← hfields.type] at hmask
    rcases hmask with hmask | hmask <;> simp only [decodeEntry, hmask]
  have hrestored := hfields.restored_eq hlz hpayload
  rw [hbranch]
  unfold restored at hrestored
  split
  next hcompressed =>
    rw [if_pos hcompressed] at hrestored
    rw [if_neg (hfields.origin hlz hpayload hcompressed).2,
      show yac.origin found = str from PhpString.ext hrestored]
  next hplain =>
    rw [if_neg hplain] at hrestored
    rw [(hfields.plain (not_not.mp hplain)).1]
    simp only [hrestored, UInt8.toUInt8_toUInt32]

theorem decodeEntry_string (hlz : yac.fastlz.Undoes) {str : PhpString}
    (hfields : yac.FlagFields (.string str) found.data found.flag) :
    yac.decodeEntry w found = (some (.string str), w) := by
  rw [decodeEntry_bytes hlz hfields (.inl rfl) rfl]
  split
  next => rfl
  next => rfl

theorem decodeEntry_packed (hlz : yac.fastlz.Undoes)
    (hser : ∀ bytes, yac.serializer.pack value = some bytes →
      yac.serializer.unpack bytes = some value)
    (hfields : yac.FlagFields value found.data found.flag)
    (hmask : value.type.toUInt32.toNat = 4 ∨ value.type.toUInt32.toNat = 9 ∨
      value.type.toUInt32.toNat = 5)
    {bytes : List UInt8} (hpayload : yac.payload value = some bytes)
    (hpack : yac.serializer.pack value = some bytes) :
    yac.decodeEntry w found = (some value, w) := by
  have hbranch : yac.decodeEntry w found =
      if found.flag &&& yacEntryCompressed ≠ 0 then
        if (yac.origin found).length = 0 then (none, w.warn "Decompression failed")
        else yac.unpackData w (yac.origin found).bytes
      else yac.unpackData w found.data := by
    rw [← hfields.type] at hmask
    rcases hmask with hmask | hmask | hmask <;> simp only [decodeEntry, hmask]
  have hrestored : yac.decodeEntry w found = yac.unpackData w bytes := by
    rw [hbranch, ← hfields.restored_eq hlz hpayload, restored]
    split
    next hcompressed => rw [if_neg (hfields.origin hlz hpayload hcompressed).2]
    next => rfl
  rw [hrestored, unpackData, hser bytes hpack]

theorem decodeEntry_word {word : List UInt8} (hword : value.word = some word)
    (hdata : value.Data) (hbytes : found.data = word) (hflag : found.flag = value.type.toUInt32) :
    yac.decodeEntry w found = (some value, w) := by
  have hmask := hdata.storable.type_masked
  cases value with
  | null =>
      obtain rfl := Option.some.inj hword
      simp only [decodeEntry, hflag, hmask, hbytes, length_toWord, if_true]
      rfl
  | bool | long | double =>
      obtain rfl := Option.some.inj hword
      simp only [decodeEntry, hflag, hmask, hbytes, length_toWord, readWord_toWord, if_true]
      rfl
  | _ => cases hword

/-- Decoding an entry of a value gives the value. -/
theorem decodeEntry_of_encodes (hlz : yac.fastlz.Undoes)
    (hser : ∀ bytes, yac.serializer.pack value = some bytes →
      yac.serializer.unpack bytes = some value)
    (hdata : value.Data) (hencodes : yac.Encodes value found.data found.flag) (w : World σ) :
    yac.decodeEntry w found = (some value, w) := by
  have hfields := hencodes.flagFields
  -- a value without a machine word goes through its payload
  by_cases hword : value.word = none
  · obtain ⟨bytes, hpayload⟩ := hencodes.exists_payload hword
    cases value with
    | string str => exact decodeEntry_string hlz hfields
    | array ht => exact decodeEntry_packed hlz hser hfields (.inl rfl) hpayload hpayload
    | object ce properties =>
        exact decodeEntry_packed hlz hser hfields (.inr (.inr rfl)) hpayload hpayload
    | null | bool | long | double => cases hword
    | resource | constant | constantArray | other => exact hdata.elim
  · obtain ⟨word, hword⟩ := Option.ne_none_iff_exists'.mp hword
    obtain ⟨hbytes, hflag⟩ := hencodes.of_word hword
    exact decodeEntry_word hword hdata hbytes hflag

/-- A lookup that finds an entry decodes it. -/
theorem yacGetImpl_found {pfx key : PhpString} (haccepted : ¬ KeyTooLong pfx key)
    (hfind : (yac.store.find (storageKey pfx key) w.store).1 = some found) :
    ∃ next, yac.yacGetImpl w pfx key = yac.decodeEntry next found := by
  rw [yacGetImpl, if_neg haccepted]
  split
  next answer next hanswer =>
    have hsame : some answer = some found :=
      (congrArg Prod.fst hanswer).symm.trans hfind
    obtain rfl := Option.some.inj hsame
    exact ⟨next, rfl⟩
  next next hanswer =>
    have hmissed : none = some found := (congrArg Prod.fst hanswer).symm.trans hfind
    cases hmissed

/-- Looking up an entry that a store of the value made gives back the value. The
entry is well formed for the store, and its flag word gives back the type, the
compression bit and the original length. -/
theorem yacGetImpl_stored (hlz : yac.fastlz.Undoes)
    (hser : ∀ bytes, yac.serializer.pack value = some bytes →
      yac.serializer.unpack bytes = some value)
    (hdata : value.Data) {w : World σ} {pfx key : PhpString} {ttl add : Int32}
    {call : UpdateCall} (hstores : yac.Stores w pfx key value ttl add call) :
    call.data.length ≤ yacStorageMaxEntryLen ∧ yac.FlagFields value call.data call.flag ∧
      ∀ (w' : World σ) (pfx' key' : PhpString) (found : Fetched), ¬ KeyTooLong pfx' key' →
        (yac.store.find (storageKey pfx' key') w'.store).1 = some found →
        found.data = call.data → found.flag = call.flag →
        (yac.yacGetImpl w' pfx' key').1 = some value := by
  obtain ⟨_, _, hencodes, _⟩ := hstores.carried
  refine ⟨hencodes.length_le, hencodes.flagFields, ?_⟩
  intro w' pfx' key' found haccepted hfind hbytes hflag
  have hfound : yac.Encodes value found.data found.flag := by rwa [hbytes, hflag]
  obtain ⟨next, hget⟩ := yacGetImpl_found haccepted hfind
  rw [hget, decodeEntry_of_encodes hlz hser hdata hfound]

end Yac

/-- A compressor seen on one string; it refuses any other. -/
def lzOn (plain packed : List UInt8) : FastLz where
  compress data := if data = plain then packed else []
  decompress data bound := if data = packed then plain.take bound else []
  decompress_length_le data bound := by
    split
    · exact List.length_take_le bound plain
    · exact Nat.zero_le bound

theorem lzOn_compress (plain packed : List UInt8) : (lzOn plain packed).compress plain = packed :=
  if_pos rfl

theorem lzOn_undoes (plain packed : List UInt8) : (lzOn plain packed).Undoes := by
  intro data hpacked
  by_cases hplain : data = plain
  · rw [hplain, lzOn_compress]
    change (if packed = packed then plain.take plain.length else []) = plain
    rw [if_pos rfl, List.take_length]
  · exact absurd (if_neg hplain) hpacked

/-- A string over the compression threshold: 1100 times the letter `a`. -/
def runBytes : List UInt8 := List.replicate 1100 0x61

theorem length_runBytes : runBytes.length = 1100 := List.length_replicate

/-- The run as the compressor leaves it: two letters, a match of distance 2 in five
parts, and three letters. -/
def packedRun : List UInt8 :=
  [1, 97, 97, 224, 253, 1, 224, 253, 1, 224, 253, 1, 224, 253, 1, 224, 38, 1, 2, 97, 97, 97]

/-- The string of the run. -/
def runString : PhpString := ⟨runBytes, by rw [length_runBytes]; decide⟩

/-- A store that finds the compressed run under every key. -/
def runYac : Yac Unit :=
  { plainYac with
    fastlz := lzOn runBytes packedRun
    store :=
      { plainYac.store with
        find := fun _ _ => (some ⟨packedRun, compressedFlag 6 1100, by decide⟩, ()) } }

/-- The run is stored compressed over a threshold of 1024. -/
theorem updateBytes_run {σ : Type} (yac : Yac σ) (hlz : yac.fastlz = lzOn runBytes packedRun)
    (hthreshold : yac.compressThreshold = 1024) (w : World σ) (key : Key) (flag : UInt32)
    (tooLong : String) (ttl add : Int32) :
    (yac.updateBytes w key runBytes flag tooLong ttl add).2.requests =
      w.requests ++ [.update ⟨key, packedRun, compressedFlag flag 1100, ttl, add⟩] := by
  have hlong : overLimit yac.compressThreshold runBytes.length := by
    rw [hthreshold, length_runBytes]
    decide
  have hmax : ¬ yacEntryMaxOrigLen < runBytes.length := by
    rw [length_runBytes]
    decide
  have hcompress : yac.fastlz.compress runBytes = packedRun := by
    rw [hlz, lzOn_compress]
  have hshort : ¬ (packedRun.length = 0 ∨ runBytes.length < packedRun.length) := by
    rw [length_runBytes]
    decide
  have hlimit : ¬ overLimit yac.compressThreshold packedRun.length := by
    rw [hthreshold]
    decide
  simp only [Yac.updateBytes, if_pos hlong, if_neg hmax, hcompress, if_neg hshort, if_neg hlimit,
    Yac.yacStorageUpdate_requests]
  rw [length_runBytes]

theorem runYac_stores : runYac.Stores freshWorld .empty .empty (.string runString) 60 60
    ⟨storageKey .empty .empty, packedRun, compressedFlag 6 1100, 60, 60⟩ := by
  have hkey : ¬ KeyTooLong .empty .empty := by decide
  have hbytes : runString.bytes = runBytes := rfl
  have hflag : (Zval.string runString).type.toUInt32 = 6 := rfl
  simp only [Yac.Stores, Yac.yacAddImpl, if_neg hkey, hbytes, hflag]
  rw [updateBytes_run runYac rfl rfl]

theorem yacGetImpl_stored_run :
    (runYac.yacGetImpl freshWorld .empty .empty).1 = some (.string runString) := by
  have hser : ∀ bytes, runYac.serializer.pack (.string runString) = some bytes →
      runYac.serializer.unpack bytes = some (.string runString) := by
    intro bytes hpack
    cases hpack
  have hstored := Yac.yacGetImpl_stored (lzOn_undoes runBytes packedRun) hser trivial
    runYac_stores
  exact hstored.2.2 freshWorld .empty .empty _ (by decide) rfl rfl rfl

end McoWeb.Cache
