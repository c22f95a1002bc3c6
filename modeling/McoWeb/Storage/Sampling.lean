import McoWeb.Foundation.Reads
import McoWeb.Storage.ChecksumLaws

/-! # How the checksum samples a long value

The 128 characters that `yac_crc32` takes of a long value stand a quotient apart,
and the remainder of the division is left over behind the last of them. A stretch
at the end of the value can be as long as a step and the remainder without being
sampled.
-/

namespace McoWeb.Storage

open Foundation

/-- The positions of a value of `n` bytes that its checksum reads. -/
def checkedPositions (crc32Tab : UInt8 → UInt32) (data : Nat → UInt8) (n : Nat) : List Nat :=
  positionsRead (yacCrc32 crc32Tab (logged data) n)

/-- The run length of `2 * ceil(n / 128)` positions. -/
def twoSteps (n : Nat) : Nat := 2 * ((n + (sampleSize - 1)) / sampleSize)

section

variable (tab : UInt8 → UInt32) (data : Nat → UInt8)

theorem crcLoop_reads (size p : Nat) (crc : UInt32) :
    Reads (crcLoop tab (logged data) size p crc) ((List.range size).map (p + ·)) := by
  induction size generalizing p crc with
  | zero => exact .pure crc
  | succ size ih =>
      rw [crcLoop, List.range_succ_eq_map, List.map_cons, List.map_map]
      refine .bind (.read data p) fun c => ?_
      have hrest := ih (p + 1) (crcStep tab crc c)
      have hshift : ((p + ·) ∘ Nat.succ) = (p + 1 + ·) := by
        funext i
        exact (Nat.add_assoc p i 1).symm.trans (Nat.add_right_comm p i 1)
      rwa [hshift]

theorem crc32_reads (size : Nat) :
    Reads (crc32 tab (logged data) size) (List.range size) := by
  have hloop := (crcLoop_reads tab data size 0 0).bind fun crc =>
    Reads.pure (ι := Nat) (crc ^^^ 0xFFFFFFFF)
  simp only [Nat.zero_add, List.map_id', List.append_nil] at hloop
  exact hloop

theorem sample_reads (step count j : Nat) :
    Reads (sample (logged data) step count j) ((List.range count).map (j + · * step)) := by
  induction count generalizing j with
  | zero => exact .pure []
  | succ count ih =>
      rw [sample, List.range_succ_eq_map, List.map_cons, List.map_map, Nat.zero_mul, Nat.add_zero]
      refine .bind (.read data j) fun c => ?_
      have hrest := (ih (j + step)).bind fun rest => Reads.pure (ι := Nat) (c :: rest)
      have hshift : (j + · * step) ∘ Nat.succ = (j + step + · * step) := by
        funext i
        change j + (i + 1) * step = j + step + i * step
        rw [Nat.succ_mul]
        omega
      rwa [hshift, ← List.append_nil (List.map _ _)]

/-- The copy of the sample is read instead of the value. -/
theorem crcLoop_copy_reads (contents : List UInt8) (size p : Nat) (crc : UInt32) :
    Reads (ι := Nat) (crcLoop tab (fun i => pure (contents.getD i 0)) size p crc) [] := by
  induction size generalizing p crc with
  | zero => exact .pure crc
  | succ size ih =>
      rw [crcLoop]
      exact .bind (.pure (contents.getD p 0)) fun c => ih (p + 1) (crcStep tab crc c)

theorem yacCrc32_reads (n : Nat) :
    Reads (yacCrc32 tab (logged data) n)
      (if n < sampleSize then List.range n
      else (List.range sampleSize).map (· * (n / sampleSize))) := by
  rw [yacCrc32]
  split
  next => exact crc32_reads tab data n
  next =>
    have hsample := sample_reads data (n / sampleSize) sampleSize 0
    simp only [Nat.zero_add] at hsample
    rw [← List.append_nil (List.map _ _)]
    refine hsample.bind fun contents => ?_
    exact .bind (crcLoop_copy_reads tab contents sampleSize 0 0) fun crc => .pure _

/-- The positions read are the ones at which a change is detected. -/
theorem mem_checkedPositions_iff (n j : Nat) :
    j ∈ checkedPositions tab data n ↔ Sampled n j := by
  rw [checkedPositions, (yacCrc32_reads tab data n).positionsRead_eq, Sampled]
  split
  next hshort => simp [hshort]
  next hlong =>
    simp only [List.mem_map, List.mem_range, hlong, false_or]
    constructor
    · rintro ⟨i, hi, rfl⟩
      exact ⟨sample_lt hlong hi, i, hi, rfl⟩
    · rintro ⟨_, i, hi, rfl⟩
      exact ⟨i, hi, rfl⟩

/-- A long value's sample covers it for runs of a step and the remainder, and for no
shorter ones. -/
theorem checkedPositions_covers_iff {n : Nat} (hlong : sampleSize ≤ n) (len : Nat) :
    Covers (checkedPositions tab data n) n len ↔ n / sampleSize + n % sampleSize ≤ len := by
  have hpos : 0 < n / sampleSize := Nat.div_pos hlong (by decide)
  have hsplit : n = 127 * (n / sampleSize) + (n / sampleSize + n % sampleSize) := by
    have hdivmod := Nat.div_add_mod n sampleSize
    simp only [sampleSize] at hdivmod ⊢
    omega
  have hlast : 127 * (n / sampleSize) < n := by omega
  have hcovers := covers_multiples_iff hpos hlast (by omega) len
  rw [checkedPositions, (yacCrc32_reads tab data n).positionsRead_eq,
    if_neg (Nat.not_lt.mpr hlong)]
  rw [show n - 127 * (n / sampleSize) = n / sampleSize + n % sampleSize by omega] at hcovers
  exact hcovers

/-- Every run of two rounded-up steps, and of a step and the remainder where that is
longer, contains a position that the checksum of a long value reads. Two
rounded-up steps alone are enough exactly when the remainder does not exceed a
step by more than two. -/
theorem yacCrc32_covers (n : Nat) (hlong : sampleSize ≤ n) :
    Covers (checkedPositions tab data n) n
        (max (twoSteps n) (n / sampleSize + n % sampleSize)) ∧
      (Covers (checkedPositions tab data n) n (twoSteps n) ↔
        n % sampleSize ≤ n / sampleSize + 2) := by
  refine ⟨?_, ?_⟩
  · rw [checkedPositions_covers_iff tab data hlong]
    exact Nat.le_max_right _ _
  · rw [checkedPositions_covers_iff tab data hlong]
    simp only [twoSteps, sampleSize]
    omega

end

theorem yacCrc32_covers_kilobyte :
    Covers (checkedPositions standardTable (fun _ => 0) 1024) 1024 16 :=
  (yacCrc32_covers standardTable (fun _ => 0) 1024 (by decide)).1

/-- The last four bytes of a value of 132 are not read. -/
theorem yacCrc32_leaves_end :
    ¬ ∀ (crc32Tab : UInt8 → UInt32) (data : Nat → UInt8) (n : Nat), sampleSize ≤ n → n < 2 ^ 24 →
      Covers (checkedPositions crc32Tab data n) n (twoSteps n) := by
  intro hcovers
  have hend := hcovers standardTable (fun _ => 0) 132 (by decide) (by decide)
  rw [checkedPositions_covers_iff standardTable (fun _ => 0) (by decide)] at hend
  exact absurd hend (by decide)

end McoWeb.Storage
