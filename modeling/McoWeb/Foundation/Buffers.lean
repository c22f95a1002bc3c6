import Mathlib.Data.List.Basic

/-! # Buffers

Loads and stores of a few elements somewhere in a buffer, which fail beyond its end, and
reallocation, which keeps what the old buffer and the new one have in common.
-/

namespace McoWeb.Foundation

variable {α : Type}

/-- So many elements of a buffer from an offset on. -/
def load (width offset : Nat) (buffer : List α) : Option (List α) :=
  if offset + width ≤ buffer.length then some ((buffer.drop offset).take width) else none

/-- A buffer with these elements from an offset on. -/
def store (elements : List α) (offset : Nat) (buffer : List α) : Option (List α) :=
  if offset + elements.length ≤ buffer.length then
    some (buffer.take offset ++ elements ++ buffer.drop (offset + elements.length))
  else none

/-- Reallocation. What is in the new part of a buffer that grows is not said. -/
structure Realloc (α : Type) where
  realloc : List α → Nat → List α
  length_realloc : ∀ buffer size, (realloc buffer size).length = size
  take_realloc : ∀ buffer size, (realloc buffer size).take buffer.length = buffer.take size

/-- The new part filled with one element. -/
def Realloc.filled (a : α) : Realloc α where
  realloc buffer size := buffer.take size ++ List.replicate (size - buffer.length) a
  length_realloc := by
    intro buffer size
    rw [List.length_append, List.length_take, List.length_replicate]
    omega
  take_realloc := by
    intro buffer size
    rcases Nat.le_total buffer.length size with hle | hle
    · rw [List.take_of_length_le hle, List.take_left]
    · rw [Nat.sub_eq_zero_of_le hle, List.replicate_zero, List.append_nil, List.take_take,
        Nat.min_eq_right hle]

variable {buffer elements : List α} {width offset : Nat}

theorem Realloc.realloc_length (alloc : Realloc α) (buffer : List α) :
    alloc.realloc buffer buffer.length = buffer := by
  have hkept := alloc.take_realloc buffer buffer.length
  rwa [List.take_of_length_le (Nat.le_of_eq (alloc.length_realloc buffer buffer.length)),
    List.take_length] at hkept

/-- What the old buffer and the new one both have room for is kept. -/
theorem Realloc.take_of_le (alloc : Realloc α) {size count : Nat} (hsize : count ≤ size)
    (hcount : count ≤ buffer.length) :
    (alloc.realloc buffer size).take count = buffer.take count := by
  calc (alloc.realloc buffer size).take count
      = ((alloc.realloc buffer size).take buffer.length).take count := by
        rw [List.take_take, Nat.min_eq_left hcount]
    _ = (buffer.take size).take count := by rw [alloc.take_realloc]
    _ = buffer.take count := by rw [List.take_take, Nat.min_eq_left hsize]

/-- A store inside a buffer can be loaded, and keeps the length and what is before it. -/
theorem store_of_le (hinside : offset + elements.length ≤ buffer.length) :
    ∃ stored, store elements offset buffer = some stored ∧ stored.length = buffer.length ∧
      stored.take offset = buffer.take offset ∧
      load elements.length offset stored = some elements := by
  have hoffset : (buffer.take offset).length = offset := by
    rw [List.length_take, Nat.min_eq_left (by omega)]
  have hlength : (buffer.take offset ++ elements ++
      buffer.drop (offset + elements.length)).length = buffer.length := by
    rw [List.length_append, List.length_append, hoffset, List.length_drop]
    omega
  refine ⟨_, if_pos hinside, hlength, ?_, ?_⟩
  · rw [List.append_assoc, List.take_left' hoffset]
  · rw [load, if_pos (by omega), List.append_assoc, List.drop_left' hoffset, List.take_left]

/-- Storing what a load has read changes nothing. -/
theorem store_of_load (hload : load width offset buffer = some elements) :
    store elements offset buffer = some buffer := by
  unfold load at hload
  split at hload
  next hinside =>
    obtain rfl := Option.some.inj hload
    have hlength : ((buffer.drop offset).take width).length = width := by
      rw [List.length_take, List.length_drop]
      omega
    rw [store, hlength, if_pos hinside, List.append_assoc, ← List.drop_drop,
      List.take_append_drop, List.take_append_drop]
  next => cases hload

end McoWeb.Foundation
