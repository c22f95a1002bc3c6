import McoWeb.Storage.Hash

/-! # The value checksum

`yac_crc32` checks a short value whole and a long one through 128 sampled
characters. The table `crc32_tab` is not part of the repository and is a
parameter here. The register is a signed `int`, so its right shift is
arithmetic.
-/

namespace McoWeb.Storage

universe u

/-- `crc >> 8` on the signed register. -/
def shiftRegister (crc : UInt32) : UInt32 := ⟨crc.toBitVec.sshiftRight 8⟩

/-- One character entering the register. -/
def crcStep (crc32Tab : UInt8 → UInt32) (crc : UInt32) (c : UInt8) : UInt32 :=
  crc32Tab ((crc ^^^ charToInt c) &&& 0xFF).toUInt8 ^^^ shiftRegister crc

/-- `sizeof(crc_contents)`. -/
def sampleSize : Nat := 128

section

variable {m : Type → Type u} [Monad m] (crc32Tab : UInt8 → UInt32) (data : Nat → m UInt8)

/-- `while (size--)` from the character at `p` on. -/
def crcLoop : Nat → Nat → UInt32 → m UInt32
  | 0, _, crc => pure crc
  | size + 1, p, crc => do
      let c ← data p
      crcLoop size (p + 1) (crcStep crc32Tab crc c)

/-- `crc32`. -/
def crc32 (size : Nat) : m UInt32 := do
  let crc ← crcLoop crc32Tab data size 0 0
  pure (crc ^^^ 0xFFFFFFFF)

/-- The sampling loop of `yac_crc32`: `count` characters from index `j` on,
`step` apart. -/
def sample (step : Nat) : Nat → Nat → m (List UInt8)
  | 0, _ => pure []
  | count + 1, j => do
      let c ← data j
      let rest ← sample step count (j + step)
      pure (c :: rest)

/-- `yac_crc32`. -/
def yacCrc32 (size : Nat) : m UInt32 :=
  if size < sampleSize then crc32 crc32Tab data size
  else do
    let contents ← sample data (size / sampleSize) sampleSize 0
    crc32 crc32Tab (fun i => pure (contents.getD i 0)) sampleSize

end

/-- The checksum of a byte string. -/
def checksumOf (crc32Tab : UInt8 → UInt32) (bytes : List UInt8) : UInt32 :=
  Id.run (yacCrc32 crc32Tab (charsOf bytes) bytes.length)

end McoWeb.Storage
