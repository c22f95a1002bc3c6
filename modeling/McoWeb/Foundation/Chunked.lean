import McoWeb.Foundation.Bytes

/-! # The chunked transfer coding

A receiver of a message body in chunks, byte by byte: each chunk is its length as a
hexadecimal numeral on a line of its own, its bytes, and the end of a line; a chunk of
length zero ends the body, up to trailer lines. The receiver may stop anywhere and go
on later, so what it has received after any part of a stream is defined.
-/

namespace McoWeb.Foundation

/-- An unsigned number as `%x` prints it. -/
def hexNumeral (n : Nat) : List UInt8 :=
  (Nat.toDigits 16 n).map fun c => UInt8.ofNat c.toNat

/-- The value of a hexadecimal digit of either case. -/
def hexValue (b : UInt8) : Option Nat :=
  if 0x30 ≤ b ∧ b ≤ 0x39 then some (b.toNat - 0x30)
  else if 0x61 ≤ b ∧ b ≤ 0x66 then some (b.toNat - 0x61 + 10)
  else if 0x41 ≤ b ∧ b ≤ 0x46 then some (b.toNat - 0x41 + 10)
  else none

/-- Where a receiver is in a body. -/
inductive ChunkPhase
  | size (digits : Option Nat)
  | extension (length : Nat)
  | sizeEnd (length : Nat)
  | data (bytes : List UInt8) (left : Nat)
  | dataEnd (bytes : List UInt8)
  | dataLineEnd (bytes : List UInt8)
  | trailer
  | trailerField
  | trailerEnd
  | ended (rest : List UInt8)
  | broken
deriving DecidableEq

/-- A receiver, with the chunks that it has received completely. -/
structure ChunkReader where
  chunks : List (List UInt8)
  phase : ChunkPhase
deriving DecidableEq

namespace ChunkReader

/-- Nothing has been received. -/
def start : ChunkReader := ⟨[], .size none⟩

/-- One more byte. -/
def feed (r : ChunkReader) (b : UInt8) : ChunkReader :=
  match r.phase with
  | .size digits =>
      match hexValue b with
      | some value => { r with phase := .size (some (digits.getD 0 * 16 + value)) }
      | none =>
          match digits with
          | none => { r with phase := .broken }
          | some length =>
              if b = 0x0D then { r with phase := .sizeEnd length }
              else if b = 0x3B then { r with phase := .extension length }
              else { r with phase := .broken }
  | .extension length => if b = 0x0D then { r with phase := .sizeEnd length } else r
  | .sizeEnd length =>
      if b ≠ 0x0A then { r with phase := .broken }
      else if length = 0 then { r with phase := .trailer }
      else { r with phase := .data [] length }
  | .data bytes left =>
      if left ≤ 1 then { r with phase := .dataEnd (bytes ++ [b]) }
      else { r with phase := .data (bytes ++ [b]) (left - 1) }
  | .dataEnd bytes =>
      if b = 0x0D then { r with phase := .dataLineEnd bytes } else { r with phase := .broken }
  | .dataLineEnd bytes =>
      if b = 0x0A then ⟨r.chunks ++ [bytes], .size none⟩ else { r with phase := .broken }
  | .trailer =>
      if b = 0x0D then { r with phase := .trailerEnd } else { r with phase := .trailerField }
  | .trailerField => if b = 0x0A then { r with phase := .trailer } else r
  | .trailerEnd =>
      if b = 0x0A then { r with phase := .ended [] } else { r with phase := .broken }
  | .ended rest => { r with phase := .ended (rest ++ [b]) }
  | .broken => r

/-- The receiver after more of the stream. -/
def feedAll (r : ChunkReader) (bytes : List UInt8) : ChunkReader := bytes.foldl feed r

@[simp] theorem feedAll_nil (r : ChunkReader) : r.feedAll [] = r := rfl

@[simp] theorem feedAll_cons (r : ChunkReader) (b : UInt8) (rest : List UInt8) :
    r.feedAll (b :: rest) = (r.feed b).feedAll rest := rfl

theorem feedAll_append (r : ChunkReader) (a b : List UInt8) :
    r.feedAll (a ++ b) = (r.feedAll a).feedAll b :=
  List.foldl_append

/-- A complete chunk stays received. -/
theorem chunks_prefix_feed (r : ChunkReader) (b : UInt8) : r.chunks <+: (r.feed b).chunks := by
  unfold feed
  split
  case h_6 =>
    split
    next => exact List.prefix_append _ _
    next => exact List.prefix_rfl
  all_goals repeat' split
  all_goals exact List.prefix_rfl

theorem chunks_prefix_feedAll (r : ChunkReader) (bytes : List UInt8) :
    r.chunks <+: (r.feedAll bytes).chunks := by
  induction bytes generalizing r with
  | nil => exact List.prefix_rfl
  | cons b rest ih => exact (r.chunks_prefix_feed b).trans (ih (r.feed b))

/-- Behind the end of a body nothing is read. -/
theorem feedAll_ended (chunks : List (List UInt8)) (rest bytes : List UInt8) :
    feedAll ⟨chunks, .ended rest⟩ bytes = ⟨chunks, .ended (rest ++ bytes)⟩ := by
  induction bytes generalizing rest with
  | nil => rw [feedAll_nil, List.append_nil]
  | cons b tail ih =>
      have happend : rest ++ b :: tail = (rest ++ [b]) ++ tail := by simp
      rw [feedAll_cons, happend]
      exact ih (rest ++ [b])

theorem hexValue_digitChar {d : Nat} (hd : d < 16) :
    hexValue (UInt8.ofNat d.digitChar.toNat) = some d := by
  have hall : ∀ d : Fin 16, hexValue (UInt8.ofNat d.val.digitChar.toNat) = some d.val := by decide
  exact hall ⟨d, hd⟩

/-- The receiver reads back the numeral that was printed. -/
theorem feedAll_hexNumeral (chunks : List (List UInt8)) (n : Nat) :
    feedAll ⟨chunks, .size none⟩ (hexNumeral n) = ⟨chunks, .size (some n)⟩ := by
  induction n using Nat.strongRecOn with
  | _ n ih =>
      by_cases hlt : n < 16
      · have hdigit := hexValue_digitChar hlt
        simp [hexNumeral, Nat.toDigits_of_lt_base hlt, feed, hdigit]
      · have hle : 16 ≤ n := Nat.le_of_not_lt hlt
        have hsplit : hexNumeral n =
            hexNumeral (n / 16) ++ [UInt8.ofNat (n % 16).digitChar.toNat] := by
          rw [hexNumeral, Nat.toDigits_of_base_le (by decide) hle, List.map_append]
          rfl
        have hdigit := hexValue_digitChar (Nat.mod_lt n (show 0 < 16 by decide))
        rw [hsplit, feedAll_append, ih (n / 16) (Nat.div_lt_self (by omega) (by decide))]
        simp [feed, hdigit, Nat.div_add_mod']

/-- The bytes of a chunk, as many as were announced. -/
theorem feedAll_data (chunks : List (List UInt8)) (got bytes : List UInt8) (hne : bytes ≠ []) :
    feedAll ⟨chunks, .data got bytes.length⟩ bytes = ⟨chunks, .dataEnd (got ++ bytes)⟩ := by
  induction bytes generalizing got with
  | nil => exact absurd rfl hne
  | cons b rest ih =>
      rw [feedAll_cons]
      cases rest with
      | nil => rfl
      | cons next tail =>
          have hfeed : feed ⟨chunks, .data got (b :: next :: tail).length⟩ b =
              ⟨chunks, .data (got ++ [b]) (next :: tail).length⟩ := by
            simp [feed]
          rw [hfeed, ih (got ++ [b]) (by simp), List.append_assoc, List.singleton_append]

end ChunkReader

end McoWeb.Foundation
