import McoWeb.Cache.RoundTrip
import McoWeb.Cache.StorageKey

/-! # The compression threshold

The threshold decides whether an entry is compressed, and a reader should not see
which way it went. For a constant it does: a compressed entry comes back as a
string, because its branch of the decoder never puts the type back.
-/

namespace McoWeb.Cache

open Foundation Storage

/-- The types that are stored by their bytes, of any length. -/
def Zval.Sized : Zval → Prop
  | .string _ | .constant _ | .array _ | .constantArray _ | .object _ _ => True
  | _ => False

/-- `IS_CONSTANT`. -/
def Zval.IsConstant : Zval → Prop
  | .constant _ => True
  | _ => False

/-- What a reader gets for a value that was stored compressed. -/
def Zval.uncompressed : Zval → Zval
  | .constant name => .string name
  | value => value

theorem Zval.uncompressed_eq_iff (value : Zval) :
    value.uncompressed = value ↔ ¬ value.IsConstant := by
  cases value <;> simp [uncompressed, IsConstant]

theorem Zval.ite_uncompressed {value : Zval} (hplain : ¬ value.IsConstant) (c : Prop)
    [Decidable c] : (if c then value.uncompressed else value) = value := by
  rw [value.uncompressed_eq_iff.mpr hplain, ite_self]

namespace Yac

variable {σ : Type}

/-- The same module with another `yac.compress_threshold`. -/
def withThreshold (yac : Yac σ) (compressThreshold : UInt64) : Yac σ :=
  { yac with compressThreshold := compressThreshold }

/-- The length that is compared with the threshold. -/
def payloadLength (yac : Yac σ) (value : Zval) : Nat :=
  ((yac.payload value).getD []).length

/-- A lookup that finds what an update stored. -/
structure Finds (yac : Yac σ) (w : World σ) (pfx key : PhpString) (call : UpdateCall) : Prop where
  accepted : ¬ KeyTooLong pfx key
  found : ∃ found, (yac.store.find (storageKey pfx key) w.store).1 = some found ∧
    found.data = call.data ∧ found.flag = call.flag

variable {yac : Yac σ} {value : Zval} {found : Fetched}

/-- Decoding an entry of a sized value. -/
theorem decodeEntry_sized (hlz : yac.fastlz.Undoes)
    (hser : ∀ bytes, yac.serializer.pack value = some bytes →
      yac.serializer.unpack bytes = some value)
    (hsized : value.Sized) (hencodes : yac.Encodes value found.data found.flag) (w : World σ) :
    yac.decodeEntry w found =
      (some (if overLimit yac.compressThreshold (yac.payloadLength value) then value.uncompressed
        else value), w) := by
  have hword : value.word = none := by
    cases value <;> first | rfl | exact hsized.elim
  obtain ⟨bytes, hpayload⟩ := hencodes.exists_payload hword
  have hfields := hencodes.flagFields
  have hlength : yac.payloadLength value = bytes.length := by
    rw [payloadLength, hpayload, Option.getD_some]
  cases value with
  | string str =>
      rw [decodeEntry_string hlz hfields, Zval.ite_uncompressed id]
  | constant name =>
      have hname : yac.payload (.constant name) = some name.bytes := rfl
      rw [decodeEntry_bytes hlz hfields (.inr rfl) hname,
        if_congr (hencodes.compressed_iff hname) rfl rfl]
      rfl
  | array ht =>
      rw [decodeEntry_packed hlz hser hfields (.inl rfl) hpayload hpayload,
        Zval.ite_uncompressed id]
  | constantArray ht =>
      rw [decodeEntry_packed hlz hser hfields (.inr (.inl rfl)) hpayload hpayload,
        Zval.ite_uncompressed id]
  | object ce properties =>
      rw [decodeEntry_packed hlz hser hfields (.inr (.inr rfl)) hpayload hpayload,
        Zval.ite_uncompressed id]
  | null | bool | long | double | resource | other => exact hsized.elim

/-- What a reader gets for a sized value that was stored under a threshold. -/
theorem yacGetImpl_sized {compressThreshold : UInt64} {w w' : World σ}
    {pfx key pfx' key' : PhpString} {ttl add : Int32} {call : UpdateCall}
    (hlz : yac.fastlz.Undoes)
    (hser : ∀ bytes, yac.serializer.pack value = some bytes →
      yac.serializer.unpack bytes = some value)
    (hsized : value.Sized)
    (hstores : (yac.withThreshold compressThreshold).Stores w pfx key value ttl add call)
    (hfinds : yac.Finds w' pfx' key' call) :
    (yac.yacGetImpl w' pfx' key').1 =
      some (if overLimit compressThreshold (yac.payloadLength value) then value.uncompressed
        else value) := by
  obtain ⟨haccepted, found, hfind, hdata, hflag⟩ := hfinds
  obtain ⟨_, _, hencodes, _⟩ := hstores.carried
  obtain ⟨next, hget⟩ := yacGetImpl_found haccepted hfind
  -- decoding does not look at the threshold
  have hfound : (yac.withThreshold compressThreshold).Encodes value found.data found.flag := by
    rwa [hdata, hflag]
  have hdecode := @decodeEntry_sized σ (yac.withThreshold compressThreshold) value found hlz hser
    hsized hfound next
  rw [hget]
  exact congrArg Prod.fst hdecode

/-- Of a value stored under two thresholds, readers of the two entries get the same
value exactly when it is no constant or its length is over both limits or neither. -/
theorem yacGetImpl_threshold_iff (yac : Yac σ) (hlz : yac.fastlz.Undoes) (value : Zval)
    (hsized : value.Sized)
    (hser : ∀ bytes, yac.serializer.pack value = some bytes →
      yac.serializer.unpack bytes = some value)
    (threshold₁ threshold₂ : UInt64) (w₁ w₂ : World σ) (pfx₁ key₁ pfx₂ key₂ : PhpString)
    (ttl₁ add₁ ttl₂ add₂ : Int32) (call₁ call₂ : UpdateCall)
    (hstores₁ : (yac.withThreshold threshold₁).Stores w₁ pfx₁ key₁ value ttl₁ add₁ call₁)
    (hstores₂ : (yac.withThreshold threshold₂).Stores w₂ pfx₂ key₂ value ttl₂ add₂ call₂)
    (w₁' w₂' : World σ) (pfx₁' key₁' pfx₂' key₂' : PhpString)
    (hfinds₁ : yac.Finds w₁' pfx₁' key₁' call₁) (hfinds₂ : yac.Finds w₂' pfx₂' key₂' call₂) :
    (yac.yacGetImpl w₁' pfx₁' key₁').1 = (yac.yacGetImpl w₂' pfx₂' key₂').1 ↔
      ¬ value.IsConstant ∨ (overLimit threshold₁ (yac.payloadLength value) ↔
        overLimit threshold₂ (yac.payloadLength value)) := by
  rw [yacGetImpl_sized hlz hser hsized hstores₁ hfinds₁,
    yacGetImpl_sized hlz hser hsized hstores₂ hfinds₂, Option.some_inj,
    ← value.uncompressed_eq_iff]
  by_cases hover₁ : overLimit threshold₁ (yac.payloadLength value)
  · by_cases hover₂ : overLimit threshold₂ (yac.payloadLength value)
    · simp [hover₁, hover₂]
    · simp [hover₁, hover₂]
  · by_cases hover₂ : overLimit threshold₂ (yac.payloadLength value)
    · simp [hover₁, hover₂, eq_comm]
    · simp [hover₁, hover₂]

end Yac

theorem runBytes_lt : runBytes.length < 2 ^ 24 := by
  rw [length_runBytes]
  decide

theorem packedRun_lt : packedRun.length < 2 ^ 24 := by decide

/-- A module that finds the compressed run under the empty key and the plain one under
any other, as entries of the given type. -/
def twoEntries (type : UInt32) : Yac Unit :=
  { runYac with
    store :=
      { plainYac.store with
        find := fun key _ =>
          (some (if key.bytes = [] then ⟨packedRun, compressedFlag type 1100, packedRun_lt⟩
            else ⟨runBytes, type, runBytes_lt⟩), ()) } }

/-- The update of the run under a threshold of 1024. -/
def compressedCall (type : UInt32) : UpdateCall :=
  ⟨storageKey .empty .empty, packedRun, compressedFlag type 1100, 0, 0⟩

/-- The update of the run under a threshold of 2048. -/
def plainCall (type : UInt32) : UpdateCall := ⟨storageKey .empty .empty, runBytes, type, 0, 0⟩

theorem twoEntries_finds (type : UInt32) :
    (twoEntries type).Finds freshWorld .empty .empty (compressedCall type) ∧
      (twoEntries type).Finds freshWorld .empty prefixP (plainCall type) := by
  refine ⟨⟨by decide, _, rfl, ?_, ?_⟩, ⟨by decide, _, rfl, ?_, ?_⟩⟩
  · rfl
  · rfl
  · rfl
  · rfl

theorem twoEntries_updateBytes (type : UInt32) (key : Key) (flag : UInt32) (tooLong : String)
    (ttl add : Int32) :
    (((twoEntries type).withThreshold 1024).updateBytes freshWorld key runBytes flag tooLong ttl
        add).2.requests = [.update ⟨key, packedRun, compressedFlag flag 1100, ttl, add⟩] ∧
      (((twoEntries type).withThreshold 2048).updateBytes freshWorld key runBytes flag tooLong ttl
        add).2.requests = [.update ⟨key, runBytes, flag, ttl, add⟩] := by
  refine ⟨updateBytes_run ((twoEntries type).withThreshold 1024) rfl rfl freshWorld key flag tooLong
    ttl add, ?_⟩
  have hshort : ¬ overLimit ((twoEntries type).withThreshold 2048).compressThreshold
      runBytes.length := by
    change ¬ overLimit 2048 runBytes.length
    rw [length_runBytes]
    decide
  rw [Yac.updateBytes, if_neg hshort]
  rfl

/-- A string or a constant of the run's bytes is stored compressed under the one
threshold and plain under the other. -/
theorem twoEntries_stores {value : Zval}
    (hvalue : value = .string runString ∨ value = .constant runString) :
    ((twoEntries value.type.toUInt32).withThreshold 1024).Stores freshWorld .empty .empty value 0 0
        (compressedCall value.type.toUInt32) ∧
      ((twoEntries value.type.toUInt32).withThreshold 2048).Stores freshWorld .empty .empty value
        0 0 (plainCall value.type.toUInt32) := by
  have hkey : ¬ KeyTooLong .empty .empty := by decide
  have hbytes : runString.bytes = runBytes := rfl
  rcases hvalue with rfl | rfl
  · simp only [Yac.Stores, Yac.yacAddImpl, if_neg hkey, hbytes, twoEntries_updateBytes]
    exact ⟨rfl, rfl⟩
  · simp only [Yac.Stores, Yac.yacAddImpl, if_neg hkey, hbytes, twoEntries_updateBytes]
    exact ⟨rfl, rfl⟩

theorem twoEntries_serializes (type : UInt32) (value : Zval) : ∀ bytes,
    (twoEntries type).serializer.pack value = some bytes →
      (twoEntries type).serializer.unpack bytes = some value := by
  intro bytes hpack
  cases hpack

/-- The string reads back the same from both entries. -/
theorem yacGetImpl_threshold_iff_run :
    ((twoEntries 6).yacGetImpl freshWorld .empty .empty).1 =
        ((twoEntries 6).yacGetImpl freshWorld .empty prefixP).1 ↔
      ¬ (Zval.string runString).IsConstant ∨
        (overLimit 1024 ((twoEntries 6).payloadLength (.string runString)) ↔
          overLimit 2048 ((twoEntries 6).payloadLength (.string runString))) :=
  Yac.yacGetImpl_threshold_iff (twoEntries 6) (lzOn_undoes runBytes packedRun) (.string runString)
    trivial (twoEntries_serializes 6 _) 1024 2048 freshWorld freshWorld .empty .empty .empty .empty
    0 0 0 0 _ _ (twoEntries_stores (.inl rfl)).1 (twoEntries_stores (.inl rfl)).2 freshWorld
    freshWorld .empty .empty .empty prefixP (twoEntries_finds 6).1 (twoEntries_finds 6).2

/-- The constant comes back as a string from the compressed entry. -/
theorem yacGetImpl_threshold_constant :
    ¬ ∀ (yac : Yac Unit) (value : Zval) (threshold₁ threshold₂ : UInt64) (w : World Unit)
      (pfx key pfx₁ key₁ pfx₂ key₂ : PhpString) (ttl add : Int32) (call₁ call₂ : UpdateCall),
      yac.fastlz.Undoes →
      (∀ bytes, yac.serializer.pack value = some bytes →
        yac.serializer.unpack bytes = some value) →
      value.Sized → 1024 ≤ threshold₁ → 1024 ≤ threshold₂ →
      (yac.withThreshold threshold₁).Stores w pfx key value ttl add call₁ →
      (yac.withThreshold threshold₂).Stores w pfx key value ttl add call₂ →
      yac.Finds w pfx₁ key₁ call₁ → yac.Finds w pfx₂ key₂ call₂ →
      (yac.yacGetImpl w pfx₁ key₁).1 = (yac.yacGetImpl w pfx₂ key₂).1 := by
  intro hall
  have hlz := lzOn_undoes runBytes packedRun
  have hser := twoEntries_serializes 8 (.constant runString)
  obtain ⟨hstores₁, hstores₂⟩ := twoEntries_stores (.inr rfl : _ ∨ Zval.constant runString = _)
  obtain ⟨hfinds₁, hfinds₂⟩ := twoEntries_finds 8
  have hsame := hall (twoEntries 8) (.constant runString) 1024 2048 freshWorld .empty .empty .empty
    .empty .empty prefixP 0 0 _ _ hlz hser trivial (by decide) (by decide) hstores₁ hstores₂
    hfinds₁ hfinds₂
  have hlength : (twoEntries 8).payloadLength (.constant runString) = 1100 := length_runBytes
  rw [Yac.yacGetImpl_sized hlz hser trivial hstores₁ hfinds₁,
    Yac.yacGetImpl_sized hlz hser trivial hstores₂ hfinds₂, hlength, if_pos (by decide),
    if_neg (by decide)] at hsame
  cases Option.some.inj hsame

end McoWeb.Cache
