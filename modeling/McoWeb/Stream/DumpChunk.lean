import McoWeb.Foundation.Chunked

/-! # Sending a page in chunks

The controller of `chunked.php` sends each part of its page through `dump_chunk`. A
receiver gets every chunk as it was sent up to the first empty one, which ends the body;
and as the controller sends none, its page is never ended.
-/

namespace McoWeb.Stream

open Foundation

/-- `dump_chunk`. -/
def dumpChunk (chunk : List UInt8) : List UInt8 :=
  hexNumeral chunk.length ++ [0x0D, 0x0A] ++ chunk ++ [0x0D, 0x0A]

/-- What a sequence of calls has sent. -/
def dumpChunks (chunks : List (List UInt8)) : List UInt8 := chunks.flatMap dumpChunk

/-- `'Sending data chunk ' . ($i+1) . ' of 1000 <br />'`. -/
def chunkText (i : Nat) : List UInt8 :=
  ascii "Sending data chunk " ++ unsignedDecimal (i + 1) ++ ascii " of 1000 <br />"

/-- What `someFunctionInsideController` sends behind its headers. -/
def someFunctionInsideController : List UInt8 := dumpChunks ((List.range 1000).map chunkText)

section

variable (received : List (List UInt8))

/-- The size line of a chunk. -/
theorem feedAll_sizeLine (n : Nat) :
    ChunkReader.feedAll ⟨received, .size none⟩ (hexNumeral n ++ [0x0D, 0x0A]) =
      if n = 0 then ⟨received, .trailer⟩ else ⟨received, .data [] n⟩ := by
  rw [ChunkReader.feedAll_append, ChunkReader.feedAll_hexNumeral]
  by_cases hn : n = 0
  · subst hn
    rfl
  · simp [ChunkReader.feed, hexValue, hn]

/-- A chunk with bytes is received as it was sent. -/
theorem feedAll_dumpChunk {chunk : List UInt8} (hne : chunk ≠ []) :
    ChunkReader.feedAll ⟨received, .size none⟩ (dumpChunk chunk) =
      ⟨received ++ [chunk], .size none⟩ := by
  have hlength : chunk.length ≠ 0 := fun hzero => hne (List.length_eq_zero_iff.mp hzero)
  rw [dumpChunk, ChunkReader.feedAll_append, ChunkReader.feedAll_append, feedAll_sizeLine,
    if_neg hlength, ChunkReader.feedAll_data received [] chunk hne]
  rfl

/-- An empty chunk ends the body. -/
theorem feedAll_dumpChunk_nil :
    ChunkReader.feedAll ⟨received, .size none⟩ (dumpChunk []) = ⟨received, .ended []⟩ := by
  rw [dumpChunk, List.append_nil, ChunkReader.feedAll_append, feedAll_sizeLine,
    if_pos List.length_nil]
  rfl

/-- Chunks with bytes are received one by one, and the body goes on. -/
theorem feedAll_dumpChunks {chunks : List (List UInt8)} (hne : [] ∉ chunks) :
    ChunkReader.feedAll ⟨received, .size none⟩ (dumpChunks chunks) =
      ⟨received ++ chunks, .size none⟩ := by
  induction chunks generalizing received with
  | nil => simp [dumpChunks]
  | cons chunk rest ih =>
      rw [List.mem_cons, not_or] at hne
      rw [dumpChunks, List.flatMap_cons, ChunkReader.feedAll_append,
        feedAll_dumpChunk received (Ne.symm hne.1)]
      have hrest := ih (received ++ [chunk]) hne.2
      rwa [List.append_assoc, List.singleton_append] at hrest

end

/-- Whatever chunks are sent, a receiver gets them unchanged up to the first empty one: the
body ends there and what is sent behind it is no part of it. Without an empty
chunk the body goes on after the last, and at every moment the chunks received are the
first of those sent. -/
theorem dumpChunks_received (chunks : List (List UInt8)) :
    ([] ∉ chunks → ChunkReader.start.feedAll (dumpChunks chunks) = ⟨chunks, .size none⟩) ∧
      (∀ pre post, chunks = pre ++ [] :: post → [] ∉ pre →
        ChunkReader.start.feedAll (dumpChunks chunks) = ⟨pre, .ended (dumpChunks post)⟩) ∧
      ∀ bytes, bytes <+: dumpChunks chunks →
        (ChunkReader.start.feedAll bytes).chunks <+: chunks := by
  have hwhole : [] ∉ chunks →
      ChunkReader.start.feedAll (dumpChunks chunks) = ⟨chunks, .size none⟩ :=
    feedAll_dumpChunks []
  have hsplit : ∀ pre post, chunks = pre ++ [] :: post → [] ∉ pre →
      ChunkReader.start.feedAll (dumpChunks chunks) = ⟨pre, .ended (dumpChunks post)⟩ := by
    rintro pre post rfl hpre
    have hbytes : dumpChunks (pre ++ [] :: post) =
        dumpChunks pre ++ (dumpChunk [] ++ dumpChunks post) := by
      simp [dumpChunks]
    rw [hbytes, ChunkReader.feedAll_append, ChunkReader.start, feedAll_dumpChunks [] hpre,
      ChunkReader.feedAll_append, feedAll_dumpChunk_nil, ChunkReader.feedAll_ended]
    rfl
  refine ⟨hwhole, hsplit, ?_⟩
  rintro bytes ⟨later, hbytes⟩
  have hgrows := (ChunkReader.start.feedAll bytes).chunks_prefix_feedAll later
  rw [← ChunkReader.feedAll_append, hbytes] at hgrows
  by_cases hnil : [] ∈ chunks
  · obtain ⟨pre, post, rfl, hpre⟩ := List.eq_append_cons_of_mem hnil
    rw [hsplit pre post rfl hpre] at hgrows
    exact hgrows.trans (List.prefix_append _ _)
  · rwa [hwhole hnil] at hgrows

theorem chunkText_ne_nil (i : Nat) : chunkText i ≠ [] := by
  intro hempty
  have hnumeral := (List.append_eq_nil_iff.mp (List.append_eq_nil_iff.mp hempty).1).2
  rw [unsignedDecimal, List.map_eq_nil_iff] at hnumeral
  exact Nat.toDigits_ne_nil hnumeral

/-- The controller's page arrives in its thousand parts and is never ended. -/
theorem someFunctionInsideController_unended :
    ChunkReader.start.feedAll someFunctionInsideController =
      ⟨(List.range 1000).map chunkText, .size none⟩ := by
  have hne : [] ∉ (List.range 1000).map chunkText := by
    intro hmem
    obtain ⟨i, _, hempty⟩ := List.mem_map.mp hmem
    exact chunkText_ne_nil i hempty
  exact (dumpChunks_received _).1 hne

end McoWeb.Stream
