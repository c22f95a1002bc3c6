import Mathlib.Data.List.Basic

/-! # The primary key hash

`yac_inline_hash_func1` is a MurmurHash2-style mix of four characters at a time.
It is written over an arbitrary monad with a read operation for the characters,
so that one text serves for the value of the hash and for the positions it
reads. `char` is signed and `int` has 32 bits, as on the deployment targets.
-/

namespace McoWeb.Storage

universe u

/-- A `char` operand of an `int` expression: the usual promotions extend its sign. -/
def charToInt (c : UInt8) : UInt32 := ⟨c.toBitVec.signExtend 32⟩

/-- The odd multiplier of the hash. -/
def hashMultiplier : UInt32 := 0x5db1e995

/-- The mixing of one block value `k` into the running hash `h`. -/
def mixBlock (h k : UInt32) : UInt32 :=
  let k := k * hashMultiplier
  let k := k ^^^ (k >>> 24)
  let k := k * hashMultiplier
  (h * hashMultiplier) ^^^ k

/-- The final avalanche. -/
def finishHash (h : UInt32) : UInt32 :=
  let h := h ^^^ (h >>> 13)
  let h := h * hashMultiplier
  h ^^^ (h >>> 15)

section

variable {m : Type → Type u} [Monad m] (data : Nat → m UInt8)

/-- The block value assembled from the four characters at `off`. -/
def readBlock (off : Nat) : m UInt32 := do
  let k := charToInt (← data off)
  let k := k ||| (charToInt (← data (off + 1)) <<< 8)
  let k := k ||| (charToInt (← data (off + 2)) <<< 16)
  let k := k ||| (charToInt (← data (off + 3)) <<< 24)
  pure k

/-- `while (len >= 4)`: what is left of `data` and `len`, and the hash so far. -/
def hashBlocks : Nat → Nat → UInt32 → m (Nat × Nat × UInt32)
  | off, len + 4, h => do
      let k ← readBlock data off
      hashBlocks (off + 4) len (mixBlock h k)
  | off, len, h => pure (off, len, h)

/-- `case 1` of the tail switch. -/
def hashTail1 (off : Nat) (h : UInt32) : m UInt32 := do
  let h := h ^^^ charToInt (← data off)
  pure (h * hashMultiplier)

/-- `case 2`, falling through. -/
def hashTail2 (off : Nat) (h : UInt32) : m UInt32 := do
  let h := h ^^^ (charToInt (← data (off + 1)) <<< 8)
  hashTail1 data off h

/-- `case 3`, falling through. -/
def hashTail3 (off : Nat) (h : UInt32) : m UInt32 := do
  let h := h ^^^ (charToInt (← data (off + 2)) <<< 16)
  hashTail2 data off h

/-- `switch (len)` on the characters the loop left. -/
def hashTail (off len : Nat) (h : UInt32) : m UInt32 :=
  match len with
  | 3 => hashTail3 data off h
  | 2 => hashTail2 data off h
  | 1 => hashTail1 data off h
  | _ => pure h

/-- `yac_inline_hash_func1`: the 32-bit hash, returned as an `unsigned long`. -/
def yacInlineHashFunc1 (len : Nat) : m UInt64 := do
  let h := 0 ^^^ UInt32.ofNat len
  let (off, len, h) ← hashBlocks data 0 len h
  let h ← hashTail data off len h
  pure (finishHash h).toUInt64

end

/-- Reading the bytes of a buffer by index. -/
def charsOf (bytes : List UInt8) : Nat → Id UInt8 := fun i => pure (bytes.getD i 0)

theorem drop_eq_getD_cons {bytes : List UInt8} {off : Nat} (hoff : off < bytes.length) :
    bytes.drop off = bytes.getD off 0 :: bytes.drop (off + 1) := by
  rw [List.drop_eq_getElem_cons hoff]
  simp [hoff]

/-- The hash of a byte string. -/
def hashOf (bytes : List UInt8) : UInt64 :=
  Id.run (yacInlineHashFunc1 (charsOf bytes) bytes.length)

/-- The hash of the empty key is the hash an empty slot shows. -/
@[simp] theorem hashOf_nil : hashOf [] = 0 := by decide

example : hashOf [0x80, 0x61, 0x61, 0x61] = hashOf [0x80, 0x62, 0x62, 0x62] := by decide

end McoWeb.Storage
