import McoWeb.Cache.AddImpl

/-! # Looking up

`yac_get_impl`, with its switch over the type bits of the entry found, and
`yac_get_multi_impl`, which looks up every element of an array and collects the
answers under the text of the key.
-/

namespace McoWeb.Cache

open Foundation Storage

theorem origLen_lt (flag : UInt32) : (flag >>> yacEntryOrigLenShit).toNat < 2 ^ 31 := by
  have hlt := flag.toNat_lt
  rw [UInt32.toNat_shiftRight]
  change flag.toNat >>> 6 < 2 ^ 31
  rw [Nat.shiftRight_eq_div_pow]
  omega

namespace Yac

variable {σ : Type} (yac : Yac σ) (w : World σ)

/-- The decompressed bytes of an entry, as a string. -/
def origin (found : Fetched) : PhpString :=
  ⟨yac.fastlz.decompress found.data (found.flag >>> yacEntryOrigLenShit).toNat,
    Nat.lt_of_le_of_lt (yac.fastlz.decompress_length_le _ _) (origLen_lt found.flag)⟩

/-- Unserialization of an entry's bytes. -/
def unpackData (data : List UInt8) : Option Zval × World σ :=
  match yac.serializer.unpack data with
  | some ret => (some ret, w)
  | none => (none, w.warn "Unserialization failed")

/-- The switch of `yac_get_impl`. -/
def decodeEntry (found : Fetched) : Option Zval × World σ :=
  let size := found.data.length
  match (found.flag &&& yacEntryTypeMask).toNat with
  | 0 => (if size = 4 then some .null else none, w)
  | 3 | 1 =>
      (if size = 8 then
        some (.ofLval found.flag.toUInt8 (UInt64.ofNat (ofWord found.data)).toInt64)
      else none, w)
  | 2 =>
      (if size = 8 then some (.ofDval found.flag.toUInt8 (UInt64.ofNat (ofWord found.data)))
      else none, w)
  | 6 | 8 =>
      if found.flag &&& yacEntryCompressed ≠ 0 then
        if (yac.origin found).length = 0 then (none, w.warn "Decompression failed")
        else (some (.string (yac.origin found)), w)
      else
        (some (.ofStr found.flag.toUInt8
          ⟨found.data, Nat.lt_trans found.size_lt (by decide)⟩), w)
  | 4 | 9 | 5 =>
      if found.flag &&& yacEntryCompressed ≠ 0 then
        if (yac.origin found).length = 0 then (none, w.warn "Decompression failed")
        else yac.unpackData w (yac.origin found).bytes
      else yac.unpackData w found.data
  | _ =>
      (none, w.warn ("unexpected value type '" ++ toString found.flag.toInt32.toInt ++ "'"))

/-- `yac_get_impl`. -/
def yacGetImpl (pfx key : PhpString) : Option Zval × World σ :=
  if KeyTooLong pfx key then (none, w.warn (keyTooLongText "Key" pfx))
  else
    match yac.yacStorageFind w (storageKey pfx key) with
    | (some found, w) => yac.decodeEntry w found
    | (none, w) => (none, w)

/-- The loop of `yac_get_multi_impl`, from an element on: the entries it adds to
its result. -/
def yacGetElements (pfx copy : PhpString) :
    List (HashKey × Zval) → World σ → List (PhpString × Zval) × World σ
  | [], w => ([], w)
  | (_, value) :: rest, w =>
      let key := yac.engine.keyText value copy
      let (v, w) := yac.yacGetImpl w pfx key
      let (ret, w) := yacGetElements pfx copy rest w
      ((key, v.getD (.bool 0)) :: ret, w)

/-- `yac_get_multi_impl`. -/
def yacGetMultiImpl (pfx copy : PhpString) (keys : Zval) : Option Zval × World σ :=
  let (ret, w) := yac.yacGetElements pfx copy keys.arrval w
  (some (.array (yac.engine.assoc ret)), w)

/-- Decoding touches the world only to warn. -/
theorem decodeEntry_world (found : Fetched) :
    (yac.decodeEntry w found).2 = w ∨
      ∃ warning, (yac.decodeEntry w found).2 = w.warn warning := by
  have hunpack : ∀ data, (yac.unpackData w data).2 = w ∨
      ∃ warning, (yac.unpackData w data).2 = w.warn warning := by
    intro data
    unfold unpackData
    split
    next => exact .inl rfl
    next => exact .inr ⟨_, rfl⟩
  unfold decodeEntry
  dsimp only
  repeat' split
  all_goals first | exact .inl rfl | exact .inr ⟨_, rfl⟩ | exact hunpack _

theorem decodeEntry_requests (found : Fetched) :
    (yac.decodeEntry w found).2.requests = w.requests := by
  rcases yac.decodeEntry_world w found with hworld | ⟨warning, hworld⟩
  · rw [hworld]
  · rw [hworld]
    rfl

theorem decodeEntry_entered (found : Fetched) :
    (yac.decodeEntry w found).2.entered = w.entered := by
  rcases yac.decodeEntry_world w found with hworld | ⟨warning, hworld⟩
  · rw [hworld]
  · rw [hworld]
    rfl

theorem yacGetImpl_entered (pfx key : PhpString) :
    (yac.yacGetImpl w pfx key).2.entered = w.entered := by
  unfold yacGetImpl
  split
  next => rfl
  next =>
    split
    next found next hfind =>
      rw [decodeEntry_entered]
      exact congrArg (fun answer => answer.2.entered) hfind.symm
    next next hfind => exact congrArg (fun answer => answer.2.entered) hfind.symm

/-- An accepted lookup makes one request, for the key's address. -/
theorem yacGetImpl_requests {pfx key : PhpString} (haccepted : ¬ KeyTooLong pfx key) :
    (yac.yacGetImpl w pfx key).2.requests = w.requests ++ [.find (storageKey pfx key)] := by
  rw [yacGetImpl, if_neg haccepted]
  split
  next found next hfind =>
    rw [decodeEntry_requests]
    exact congrArg (fun answer => answer.2.requests) hfind.symm
  next next hfind => exact congrArg (fun answer => answer.2.requests) hfind.symm

end Yac

end McoWeb.Cache
