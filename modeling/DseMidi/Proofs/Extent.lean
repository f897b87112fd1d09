import DseMidi.Proofs.Composition

/-!
# DseMidi.Proofs.Extent

**How far a track is read.** Decoding reads a track up to its first end opcode, and that byte
by byte: what is read decides the track, and none of it can be missing (`Chunk.Takes`).

The declared length of a chunk is no bound on this. It leads to the next chunk, and a track
that has not ended within its own region is read on from there (`overrunFile`). A track stays
in its region exactly if the region holds all of a track (`load_extents`).
-/

namespace DseMidi

namespace Dse

/-- The size of a track of these words, with its end opcode. -/
def trackSize (words : List Bytes) : Nat :=
  words.flatten.length + 1

/-- Where a track of these words ends. -/
def Chunk.streamEnd (chunk : Chunk) (words : List Bytes) : Nat :=
  chunk.streamStart + trackSize words

/-- Where the data of a chunk ends, as declared. -/
def Chunk.dataEnd (chunk : Chunk) : Nat :=
  chunk.dataStart + chunk.length

/-- Decoding takes the words and the end opcode out of a file, and nothing else. -/
structure Chunk.Takes (chunk : Chunk) (data : Bytes) (words : List Bytes) : Prop where
  /-- What is taken are complete instructions up to the first end opcode among them. -/
  spells : Spells (data.drop chunk.streamStart) words endOpcode
  streamEnd_le : chunk.streamEnd words ≤ data.length
  /-- A file with the same bytes there decodes to the same. -/
  congr : ∀ (data' : Bytes) (track : Nat) (tables : SideTables) (state : State),
    (data'.drop chunk.streamStart).take (trackSize words) =
      (data.drop chunk.streamStart).take (trackSize words) →
    chunk.decode data' track tables state = chunk.decode data track tables state
  /-- A file that breaks off there does not decode. -/
  truncated : ∀ n < trackSize words, ∀ (track : Nat) (tables : SideTables) (state : State),
    chunk.decode (data.take (chunk.streamStart + n)) track tables state =
      .error (.truncated (chunk.streamStart + n) (chunk.streamStart + n))

section Takes

variable {chunk : Chunk} {data : Bytes} {words : List Bytes}

theorem Spells.takes (h : Spells (data.drop chunk.streamStart) words endOpcode) :
    chunk.Takes data words where
  spells := h
  streamEnd_le := by
    have hlt := h.length_lt
    rw [List.length_drop] at hlt
    rw [Chunk.streamEnd, trackSize]
    omega
  congr := by
    intro data' track tables state hagree
    have htaken : Spells ((data.drop chunk.streamStart).take (trackSize words)) words endOpcode :=
      h.take (Nat.lt_succ_self _)
    rw [← hagree] at htaken
    have hstream := htaken.append ((data'.drop chunk.streamStart).drop (trackSize words))
    rw [List.take_append_drop] at hstream
    exact Chunk.decode_congr h hstream
  truncated := by
    intro n hn track tables state
    exact Chunk.decode_take_of_le h (Nat.le_of_lt_succ hn)

/-- A track ends within its region exactly if the region holds all of a track. -/
theorem Spells.streamEnd_le_dataEnd_iff
    (h : Spells (data.drop chunk.streamStart) words endOpcode) :
    chunk.streamEnd words ≤ chunk.dataEnd ↔
      ∃ words', Spells (chunk.region data) words' endOpcode := by
  rw [Chunk.streamEnd, Chunk.streamStart, Chunk.dataEnd, trackSize]
  constructor
  · intro hinside
    refine ⟨words, ?_⟩
    rw [Chunk.region_eq_take]
    apply h.take
    omega
  · rintro ⟨words', h'⟩
    have hlt := h'.length_lt
    rw [h'.of_region.words_unique h, Chunk.region_eq_take, List.length_take] at hlt
    omega

end Takes

theorem Spells.next_mem {stream : Bytes} {words : List Bytes} {next : UInt8}
    (h : Spells stream words next) : next ∈ stream := by
  obtain ⟨-, rest, rfl⟩ := h
  simp

theorem Chunk.Plays.exists_spells {tables : SideTables} {data : Bytes} {name : String}
    {chunk : Chunk} {index : Nat} {t : Track} (h : chunk.Plays tables data name index t) :
    ∃ words, Spells (data.drop chunk.streamStart) words endOpcode := by
  obtain ⟨is, rest, channel, hlist, -⟩ := h
  have hspells := Listing.spells_of_ending (data.drop chunk.streamStart)
  rw [hlist] at hspells
  exact ⟨_, hspells⟩

end Dse

/-- **How far tracks are read.** Decoding a chunk of a file that loads takes the opcodes and
operands up to the first end opcode of its stream. All of them are in the file, and they are in
the region of the chunk exactly if the region holds a whole track. Otherwise, and so whenever
the region holds no end opcode, what is behind the region is read as part of the track. -/
theorem load_extents {tables : SideTables} {data : Bytes} {loaded : Loaded}
    (h : load tables data = .ok loaded) :
    ∃ header, Dse.Header.read data = .ok header ∧ ∀ chunk ∈ header.tracks,
      ∃ words, chunk.Takes data words ∧
        (chunk.streamEnd words ≤ chunk.dataEnd ↔
          ∃ words', Dse.Spells (chunk.region data) words' Dse.endOpcode) ∧
        (Dse.endOpcode ∉ chunk.region data → chunk.dataEnd < chunk.streamEnd words) := by
  obtain ⟨header, hheader, -, -, htracks⟩ := load_inv h
  refine ⟨header, hheader, ?_⟩
  intro chunk hchunk
  have hstreams : List.Forall₂ (fun (chunk : Dse.Chunk) (_ : Track) =>
      ∃ words, Dse.Spells (data.drop chunk.streamStart) words Dse.endOpcode)
      header.tracks loaded.sequence.tracks :=
    forall₂_of_zipIdx (htracks.imp fun _ _ hplays => hplays.exists_spells)
  obtain ⟨_, -, words, hwords⟩ := exists_mem_of_forall₂ hstreams.flip hchunk
  have hiff := hwords.streamEnd_le_dataEnd_iff
  refine ⟨words, hwords.takes, hiff, ?_⟩
  intro hregion
  apply Nat.lt_of_not_le
  intro hinside
  obtain ⟨words', hwhole⟩ := hiff.mp hinside
  exact hregion hwhole.next_mem

/-- The voices of a duet are read from their chunks. -/
theorem load_extents_duetFile :
    ∃ loaded, load .default (Dse.duetFile 0).bytes = .ok loaded ∧
      ∀ chunk ∈ Dse.chunkTable Dse.firstChunkOffset (Dse.duetFile 0).chunks,
        ∃ words, chunk.Takes (Dse.duetFile 0).bytes words ∧
          chunk.streamEnd words ≤ chunk.dataEnd := by
  have hcarries := Dse.carries_duetFile 0
  obtain ⟨loaded, hload, -⟩ := hcarries.exists_load .default
  refine ⟨loaded, hload, ?_⟩
  obtain ⟨header, hheader, hextents⟩ := load_extents hload
  rw [Dse.FileLayout.read_bytes] at hheader
  obtain rfl := Except.ok.inj hheader
  intro chunk hchunk
  obtain ⟨words, htakes, hinside, -⟩ := hextents chunk hchunk
  obtain ⟨words', -, hregion⟩ := exists_mem_of_forall₂ hcarries.spells_region.flip hchunk
  exact ⟨words, htakes, hinside.mpr ⟨words', hregion⟩⟩

/-! ### A track without an end -/

/-- A file whose first chunk holds no opcodes at all. -/
def overrunFile : Dse.FileLayout :=
  Dse.filledFile 0 [Dse.filledChunk 0 [0, 0, 0, 0] (by simp),
    Dse.filledChunk 0 [0x40, 0, 0, 0, 0x98] (by simp)] (by simp)

/-- The second chunk up to its opcodes, as notes: the identifier, the zeros behind it, the length
and the preamble. -/
def overrunNotes : List Dse.Instruction :=
  [.note 0x74 0x72 [0x6B], .note 0x20 0 []] ++ List.replicate 5 (.note 0 0 []) ++
    [.note 5 0x40 [0], .note 0 0 []]

/-- The track of the first chunk, whose region is empty, is what stands in the second chunk up
to the end of the second track. -/
theorem load_overrunFile :
    (∃ loaded, load .default overrunFile.bytes = .ok loaded) ∧
    ∃ header, Dse.Header.read overrunFile.bytes = .ok header ∧
      ∃ chunk ∈ header.tracks, Dse.endOpcode ∉ chunk.region overrunFile.bytes ∧
        chunk.Takes overrunFile.bytes (overrunNotes.map Dse.Instruction.bytes) ∧
        chunk.dataEnd < chunk.streamEnd (overrunNotes.map Dse.Instruction.bytes) := by
  have hfirst : Dse.Spells (overrunFile.bytes.drop (⟨0x80, 0x90, 4⟩ : Dse.Chunk).streamStart)
      (overrunNotes.map Dse.Instruction.bytes) Dse.endOpcode := by
    have hwell : ∀ i ∈ overrunNotes, i.WellFormed := by decide
    refine ⟨List.forall_mem_map.mpr fun i hi => (hwell i hi).isWord, [0, 0, 0], ?_⟩
    decide +kernel
  have hsecond : Dse.Spells (overrunFile.bytes.drop (⟨0x94, 0xA4, 5⟩ : Dse.Chunk).streamStart)
      [] Dse.endOpcode := by
    refine ⟨by simp, [0, 0, 0], ?_⟩
    decide +kernel
  have hread := overrunFile.read_bytes
  constructor
  · obtain ⟨loaded, hload, -⟩ :=
      load_of_spells hread (.cons hfirst (.cons hsecond .nil))
    exact ⟨loaded, hload⟩
  · refine ⟨_, hread, ⟨0x80, 0x90, 4⟩, List.mem_cons_self, ?_, hfirst.takes, ?_⟩
    · decide +kernel
    · decide +kernel

end DseMidi
