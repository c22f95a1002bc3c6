import McoWeb.Cache.EntryFormat
import McoWeb.Cache.LossyStore

/-! # Prefixes as namespaces

An object's prefix is there to keep its entries from those of other objects. Two
prefixes keep apart what is stored under them exactly when neither starts with
the other, as far as either can be seen in an address: its first 47 bytes, up to
a zero byte.
-/

namespace McoWeb.Cache

open Foundation Storage

/-- What an address shows of a prefix. -/
def PhpString.shown (pfx : PhpString) : List UInt8 :=
  (untilNul pfx.bytes).take (yacStorageMaxKeyLen - 1)

/-- One of two prefixes starts with the other, as far as they are shown. -/
def Overlap (pfx pfx' : PhpString) : Prop := pfx.shown <+: pfx'.shown ∨ pfx'.shown <+: pfx.shown

instance (pfx pfx' : PhpString) : Decidable (Overlap pfx pfx') :=
  inferInstanceAs (Decidable (_ ∨ _))

/-- The text an address is printed from. -/
def addressText (pfx key : PhpString) : List UInt8 := untilNul pfx.bytes ++ untilNul key.bytes

theorem storageKey_printed {pfx : PhpString} (hpfx : pfx.length ≠ 0) (key : PhpString) :
    (storageKey pfx key).bytes =
      ((addressText pfx key).take (yacStorageMaxKeyLen - 1) ++ [0]).take
        (addressText pfx key).length := by
  simp only [storageKey, hpfx, ne_eq, not_false_eq_true, if_true, snprintf, addressText]
  rfl

/-- An address starts with what is shown of its prefix. -/
theorem shown_starts (pfx key : PhpString) : pfx.shown <+: (storageKey pfx key).bytes := by
  by_cases hpfx : pfx.length = 0
  · have hnil : pfx.bytes = [] := List.length_eq_zero_iff.mp hpfx
    rw [PhpString.shown, hnil]
    exact List.nil_prefix
  · have htext : pfx.shown <+: addressText pfx key :=
      (List.take_prefix _ _).trans (List.prefix_append _ _)
    have htake : pfx.shown <+: (addressText pfx key).take (yacStorageMaxKeyLen - 1) := by
      refine List.prefix_take_iff.mpr ⟨htext, ?_⟩
      rw [PhpString.shown, List.length_take]
      exact Nat.min_le_left _ _
    rw [storageKey_printed hpfx]
    exact List.prefix_take_iff.mpr ⟨htake.trans (List.prefix_append _ _), htext.length_le⟩

/-- Prefixes under which two keys have one address overlap. -/
theorem overlap_of_storageKey_eq {pfx pfx' key key' : PhpString}
    (heq : storageKey pfx key = storageKey pfx' key') : Overlap pfx pfx' := by
  have hshown := shown_starts pfx key
  rw [heq] at hshown
  exact List.prefix_or_prefix_of_prefix hshown (shown_starts pfx' key')

/-- Of two lists that agree as far as the shorter one goes below a bound, each followed by
what the other has beyond it, the texts agree up to the bound. -/
theorem take_append_drop_of_prefix {α : Type} {l l' : List α} {n : Nat}
    (hstarts : l.take n <+: l'.take n) :
    (l ++ l'.drop l.length).take n = l'.take n ∧ (l' ++ l.drop l'.length).take n = l'.take n := by
  by_cases hshort : l.length ≤ n
  · rw [List.take_of_length_le hshort] at hstarts
    obtain ⟨rest, rfl⟩ := hstarts.trans (List.take_prefix n l')
    have hdrop : l.drop (l ++ rest).length = [] := by
      apply List.drop_eq_nil_of_le
      rw [List.length_append]
      exact Nat.le_add_right _ _
    rw [List.drop_left, hdrop, List.append_nil]
    exact ⟨rfl, rfl⟩
  · have hlong : n ≤ l.length := by omega
    have hlen := hstarts.length_le
    rw [List.length_take, List.length_take] at hlen
    have hlong' : n ≤ l'.length := by omega
    have heq : l.take n = l'.take n := hstarts.eq_of_length (by
      rw [List.length_take, List.length_take]
      omega)
    rw [List.take_append_of_le_length hlong, List.take_append_of_le_length hlong', heq]
    exact ⟨rfl, rfl⟩

/-- What a prefix has beyond the length of another, as a key. -/
def PhpString.beyond (pfx pfx' : PhpString) : PhpString :=
  ⟨pfx.bytes.drop pfx'.length, Nat.lt_of_le_of_lt (by simp) pfx.length_lt⟩

theorem addressText_beyond {pfx pfx' : PhpString} (hnul : 0 ∉ pfx.bytes) (hnul' : 0 ∉ pfx'.bytes) :
    addressText pfx (pfx'.beyond pfx) = pfx.bytes ++ pfx'.bytes.drop pfx.bytes.length := by
  have hrest : 0 ∉ (pfx'.beyond pfx).bytes := fun hmem => hnul' (List.mem_of_mem_drop hmem)
  rw [addressText, untilNul_of_notMem hnul, untilNul_of_notMem hrest]
  rfl

theorem length_beyond (pfx pfx' : PhpString) :
    pfx.length + (pfx'.beyond pfx).length = max pfx.length pfx'.length := by
  simp only [PhpString.length, PhpString.beyond, List.length_drop]
  omega

theorem not_keyTooLong_beyond {pfx pfx' : PhpString} (hlen : pfx.length ≤ yacStorageMaxKeyLen)
    (hlen' : pfx'.length ≤ yacStorageMaxKeyLen) : ¬ KeyTooLong pfx (pfx'.beyond pfx) := by
  rw [keyTooLong_iff, length_beyond]
  omega

/-- Two prefixes have an address in common. -/
def Share (pfx pfx' : PhpString) : Prop :=
  ∃ key key', ¬ KeyTooLong pfx key ∧ ¬ KeyTooLong pfx' key' ∧
    storageKey pfx key = storageKey pfx' key'

theorem Share.symm {pfx pfx' : PhpString} (hshare : Share pfx pfx') : Share pfx' pfx := by
  obtain ⟨key, key', haccepted, haccepted', heq⟩ := hshare
  exact ⟨key', key, haccepted', haccepted, heq.symm⟩

/-- Without a prefix every address can be written down as a key. -/
theorem share_of_empty {pfx pfx' : PhpString} (hpfx : pfx.length = 0)
    (hlen' : pfx'.length ≤ yacStorageMaxKeyLen) : Share pfx pfx' := by
  have haccepted' : ¬ KeyTooLong pfx' .empty := by
    rw [keyTooLong_iff]
    exact Nat.not_lt_of_le hlen'
  have haddress := length_storageKey_le haccepted'
  refine ⟨⟨(storageKey pfx' .empty).bytes, Nat.lt_of_le_of_lt haddress (by decide)⟩, .empty, ?_,
    haccepted', ?_⟩
  · rw [keyTooLong_iff, hpfx, Nat.zero_add]
    exact Nat.not_lt_of_le haddress
  · apply Key.ext
    rw [storageKey, if_neg (not_not.mpr hpfx)]

section

variable {pfx pfx' : PhpString} (hnul : 0 ∉ pfx.bytes) (hnul' : 0 ∉ pfx'.bytes)
  (hlen : pfx.length ≤ yacStorageMaxKeyLen) (hlen' : pfx'.length ≤ yacStorageMaxKeyLen)

include hnul hnul'

/-- Each prefix followed by what the other has beyond it is one address. -/
theorem storageKey_beyond_eq (hpfx : pfx.length ≠ 0) (hpfx' : pfx'.length ≠ 0)
    (hstarts : pfx.shown <+: pfx'.shown) :
    storageKey pfx (pfx'.beyond pfx) = storageKey pfx' (pfx.beyond pfx') := by
  rw [PhpString.shown, PhpString.shown, untilNul_of_notMem hnul, untilNul_of_notMem hnul']
    at hstarts
  obtain ⟨htake, htake'⟩ := take_append_drop_of_prefix hstarts
  have hlength : (pfx.bytes ++ pfx'.bytes.drop pfx.bytes.length).length =
      (pfx'.bytes ++ pfx.bytes.drop pfx'.bytes.length).length := by
    simp only [List.length_append, List.length_drop]
    omega
  apply Key.ext
  rw [storageKey_printed hpfx, storageKey_printed hpfx', addressText_beyond hnul hnul',
    addressText_beyond hnul' hnul, htake, htake', hlength]

include hlen hlen'

theorem share_of_starts (hstarts : pfx.shown <+: pfx'.shown) : Share pfx pfx' := by
  by_cases hpfx : pfx.length = 0
  · exact share_of_empty hpfx hlen'
  · by_cases hpfx' : pfx'.length = 0
    · exact (share_of_empty hpfx' hlen).symm
    · exact ⟨pfx'.beyond pfx, pfx.beyond pfx', not_keyTooLong_beyond hlen hlen',
        not_keyTooLong_beyond hlen' hlen, storageKey_beyond_eq hnul hnul' hpfx hpfx' hstarts⟩

/-- Two prefixes that can be used at all, without zero bytes, have an address in common
exactly when one of them starts with the other as far as they are shown. -/
theorem prefixes_share_iff : Share pfx pfx' ↔ Overlap pfx pfx' := by
  constructor
  · rintro ⟨key, key', _, _, heq⟩
    exact overlap_of_storageKey_eq heq
  · rintro (hstarts | hstarts)
    · exact share_of_starts hnul hnul' hlen hlen' hstarts
    · exact (share_of_starts hnul' hnul hlen' hlen hstarts).symm

end

/-- The prefix `user` is met again under the prefix `user_`. -/
theorem prefixes_share_iff_user :
    Share ⟨[0x75, 0x73, 0x65, 0x72], by decide⟩ ⟨[0x75, 0x73, 0x65, 0x72, 0x5f], by decide⟩ ↔
      Overlap ⟨[0x75, 0x73, 0x65, 0x72], by decide⟩
        ⟨[0x75, 0x73, 0x65, 0x72, 0x5f], by decide⟩ :=
  prefixes_share_iff (by decide) (by decide) (by decide) (by decide)

/-- The prefix of a call. -/
def SingleCall.pfx : SingleCall → PhpString
  | add pfx _ _ _ _ | get pfx _ | delete pfx _ _ => pfx

namespace Yac

variable {σ : Type} {yac : Yac σ}

/-- A call writes addresses of its own prefix only. -/
theorem observe_writes {call : SingleCall} {answer : SingleAnswer} {address : Key}
    (hwrites : (yac.observe call answer).Writes address) :
    ∃ key, storageKey call.pfx key = address := by
  have haddress := yac.writes_of_observe hwrites
  cases call with
  | add pfx key value ttl add => exact ⟨key, Option.some.inj haddress⟩
  | get pfx key => cases haddress
  | delete pfx key ttl => exact ⟨key, Option.some.inj haddress⟩

/-- The calls whose prefix overlaps with the given one. -/
def overlapping (pfx : PhpString) (events : List (Event σ SingleCall SingleAnswer)) :
    List (Event σ SingleCall SingleAnswer) :=
  events.filter fun e => Overlap pfx e.input.pfx

end Yac

end McoWeb.Cache
