import DseMidi.Proofs.Dse.FileLayout
import DseMidi.Proofs.Dse.Locality
import DseMidi.Proofs.Loading

/-!
# DseMidi.Proofs.Composition

**Tracks are put together and not mixed.** A file whose chunks carry the words of tracks loads,
and what it loads to is a function of its name and of these words (`load_of_spells`,
`FileLayout.load_bytes`). Everything else that a file holds, around the fields and around the
words, is without effect; and the words of one track reach the others through the choice of
channels alone.
-/

namespace DseMidi

/-! ### Words to tracks -/

/-- What the words of track number `index` play. -/
def playedWords (tables : SideTables) (index : Nat) (words : List Bytes) : Dse.Decoded :=
  Dse.Context.decoded ⟨tables, index⟩ 0 .initial (Dse.instructionsOf words)

/-- The tracks that words play, the first of them as number `index`. -/
def playedTracks (tables : SideTables) (name : String) (index : Nat)
    (wordss : List (List Bytes)) : List Track :=
  (wordss.zipIdx index).map fun p => (playedWords tables p.2 p.1).toTrack name p.2

/-- The warnings that they give, without positions. -/
def playedWarnings (tables : SideTables) (index : Nat) (wordss : List (List Bytes)) :
    List Fault :=
  (wordss.zipIdx index).flatMap fun p => (playedWords tables p.2 p.1).warnings.map Fault.unplaced

namespace Dse

theorem Decoded.toTrack_congr {d d' : Decoded} (h : d.events = d'.events) (name : String)
    (index : Nat) : d.toTrack name index = d'.toTrack name index := by
  rw [toTrack_eq, toTrack_eq, h]

/-- Up to the channel, a track is its events up to the channel. -/
theorem Decoded.onChannel_toTrack_congr {d d' : Decoded} {channel : UInt8}
    (h : d.events.map (Event.onChannel channel) = d'.events.map (Event.onChannel channel))
    (name : String) (index : Nat) :
    (d.toTrack name index).onChannel channel = (d'.toTrack name index).onChannel channel := by
  rw [toTrack_eq, toTrack_eq, Track.onChannel_sort, Track.onChannel_sort, Track.onChannel,
    Track.onChannel, List.map_append, List.map_append, h]

/-- Without the title, the number of a track goes no further than its channel. -/
theorem Decoded.onChannel_toTrack_of_ne_zero (d : Decoded) {index : Nat} (h : index ≠ 0)
    (name name' : String) (channel : UInt8) :
    (d.toTrack name index).onChannel channel = (d.toTrack name' index).onChannel channel := by
  rw [toTrack_eq, toTrack_eq, titleEvents, titleEvents, if_neg h, if_neg h]

/-- A chunk decodes to what the words in it play, up to the positions of warnings. -/
theorem Chunk.exists_decode {chunk : Chunk} {data : Bytes} {words : List Bytes}
    (h : Spells (data.drop chunk.streamStart) words endOpcode) (tables : SideTables)
    (index : Nat) :
    ∃ d, chunk.decode data index tables .initial = .ok d ∧
      d.events = (playedWords tables index words).events ∧
      d.warnings.map Fault.unplaced =
        (playedWords tables index words).warnings.map Fault.unplaced := by
  obtain ⟨rest, hlist⟩ := h.exists_ofBytes
  exact ⟨_, Chunk.decode_of_complete hlist, Context.events_decoded_eq _ _,
    Context.unplaced_warnings_play _ _⟩

end Dse

theorem loadTracks_of_spells {tables : SideTables} {data : Bytes} {chunks : List Dse.Chunk}
    {wordss : List (List Bytes)}
    (h : List.Forall₂ (fun chunk words =>
      Dse.Spells (data.drop chunk.streamStart) words Dse.endOpcode) chunks wordss)
    (name : String) (index : Nat) :
    ∃ tracks, loadTracks tables data name index chunks = .ok tracks ∧
      tracks.map Prod.fst = playedTracks tables name index wordss ∧
      (tracks.flatMap Prod.snd).map Fault.unplaced = playedWarnings tables index wordss := by
  induction h generalizing index with
  | nil => exact ⟨[], rfl, rfl, rfl⟩
  | @cons chunk words chunks wordss hwords _ ih =>
    obtain ⟨d, hdecode, hevents, hwarnings⟩ := Dse.Chunk.exists_decode hwords tables index
    obtain ⟨tracks, hload, htracks, hrest⟩ := ih (index + 1)
    refine ⟨(d.toTrack name index, d.warnings) :: tracks, ?_, ?_, ?_⟩
    · exact bind_eq_ok_iff.mpr ⟨d, hdecode, bind_eq_ok_iff.mpr ⟨tracks, hload, rfl⟩⟩
    · rw [List.map_cons, htracks, Dse.Decoded.toTrack_congr hevents]
      rfl
    · rw [List.flatMap_cons, List.map_append, hrest, hwarnings]
      rfl

/-- A file whose chunks spell tracks loads to what these play. -/
theorem load_of_spells {tables : SideTables} {data : Bytes} {header : Dse.Header}
    {wordss : List (List Bytes)} (hheader : Dse.Header.read data = .ok header)
    (h : List.Forall₂ (fun chunk words =>
      Dse.Spells (data.drop chunk.streamStart) words Dse.endOpcode) header.tracks wordss) :
    ∃ loaded, load tables data = .ok loaded ∧
      loaded.sequence = ⟨header.name, outputDivision,
        allocateChannels (playedTracks tables header.name 0 wordss)⟩ ∧
      loaded.warnings.map Fault.unplaced = playedWarnings tables 0 wordss := by
  obtain ⟨tracks, hload, htracks, hwarnings⟩ := loadTracks_of_spells h header.name 0
  refine ⟨_, bind_eq_ok_iff.mpr ⟨header, hheader, bind_eq_ok_iff.mpr ⟨tracks, hload, rfl⟩⟩, ?_,
    hwarnings⟩
  rw [← htracks]

/-! ### One track among others -/

/-- The choice of channels is all that tracks have to do with each other. -/
theorem map_onChannel_allocateChannelsFrom (next channel : UInt8) (tracks : List Track) :
    (allocateChannelsFrom next tracks).map (fun t => t.onChannel channel) =
      tracks.map fun t => t.onChannel channel := by
  induction tracks generalizing next with
  | nil => rfl
  | cons t tracks ih =>
    rw [allocateChannelsFrom]
    split
    · rw [List.map_cons, List.map_cons, ih, Track.onChannel_onChannel]
    · rw [List.map_cons, List.map_cons, ih, Track.onChannel_onChannel]

/-- Up to its channel, a track of a sequence depends on its own words, and the first one on
the name. -/
theorem map_onChannel_getElem?_playedTracks {tables : SideTables} {name name' : String}
    {wordss wordss' : List (List Bytes)} {k : Nat} (hwords : wordss'[k]? = wordss[k]?)
    (hname : k = 0 → name' = name) (channel : UInt8) :
    (allocateChannels (playedTracks tables name' 0 wordss'))[k]?.map
        (fun t => t.onChannel channel) =
      (allocateChannels (playedTracks tables name 0 wordss))[k]?.map
        (fun t => t.onChannel channel) := by
  have htrack : ∀ d : Dse.Decoded,
      (d.toTrack name' k).onChannel channel = (d.toTrack name k).onChannel channel := by
    intro d
    by_cases hk : k = 0
    · rw [hname hk]
    · exact d.onChannel_toTrack_of_ne_zero hk name' name channel
  rw [← List.getElem?_map, ← List.getElem?_map, allocateChannels, allocateChannels,
    map_onChannel_allocateChannelsFrom, map_onChannel_allocateChannelsFrom, playedTracks,
    playedTracks, List.map_map, List.map_map, List.getElem?_map, List.getElem?_map,
    List.getElem?_zipIdx, List.getElem?_zipIdx, hwords]
  cases wordss[k]? with
  | none => rfl
  | some words => simpa using htrack _

/-! ### Files by layout -/

namespace Dse

/-- The bodies of the chunks are tracks: four bytes, the words, the end opcode, and anything
behind it. -/
def FileLayout.Carries (f : FileLayout) (wordss : List (List Bytes)) : Prop :=
  List.Forall₂ (fun c words => Spells (c.body.drop preambleLength) words endOpcode) f.chunks
    wordss

/-- What a chunk holds is the front of the stream that its track is read from. -/
theorem Chunk.region_eq_take (chunk : Chunk) (data : Bytes) :
    chunk.region data = (data.drop chunk.streamStart).take (chunk.length - preambleLength) := by
  rw [region, List.drop_take, List.drop_drop, streamStart]

theorem Spells.of_region {chunk : Chunk} {data : Bytes} {words : List Bytes} {next : UInt8}
    (h : Spells (chunk.region data) words next) :
    Spells (data.drop chunk.streamStart) words next := by
  rw [Chunk.region_eq_take] at h
  have hstream := h.append ((data.drop chunk.streamStart).drop (chunk.length - preambleLength))
  rwa [List.take_append_drop] at hstream

theorem FileLayout.Carries.spells_region {f : FileLayout} {wordss : List (List Bytes)}
    (h : f.Carries wordss) :
    List.Forall₂ (fun chunk words => Spells (chunk.region f.bytes) words endOpcode)
      (chunkTable firstChunkOffset f.chunks) wordss := by
  have hbodies : List.Forall₂ (fun body words => Spells body words endOpcode)
      (f.chunks.map fun c => c.body.drop preambleLength) wordss := List.forall₂_map_left_iff.mpr h
  rw [← f.map_region] at hbodies
  exact List.forall₂_map_left_iff.mp hbodies

/-- A body decodes by itself, as track number zero of a file without anything else, to the
events of its words. -/
theorem Spells.exists_decode_body {body : Bytes} {words : List Bytes}
    (h : Spells (body.drop preambleLength) words endOpcode) (tables : SideTables)
    (index : Nat) (channel : UInt8) :
    ∃ d, (⟨0, 0, body.length⟩ : Chunk).decode body 0 tables .initial = .ok d ∧
      (playedWords tables index words).events.map (Event.onChannel channel) =
        d.events.map (Event.onChannel channel) := by
  have hstream : Spells (body.drop (⟨0, 0, body.length⟩ : Chunk).streamStart) words endOpcode := h
  obtain ⟨d, hdecode, hevents, -⟩ := Chunk.exists_decode hstream tables 0
  refine ⟨d, hdecode, ?_⟩
  rw [hevents]
  exact Context.map_onChannel_decoded _ _ _ _ _ _

/-- Tracks that words play are what the bodies that carry them decode to by themselves, ordered
by tick and with the title in front of the first, up to channels. -/
theorem forall₂_playedTracks {chunks : List ChunkLayout} {wordss : List (List Bytes)}
    (h : List.Forall₂ (fun c words => Spells (c.body.drop preambleLength) words endOpcode)
      chunks wordss) (tables : SideTables) (name : String) (index : Nat) :
    List.Forall₂ (fun (p : ChunkLayout × Nat) (t : Track) => ∃ d,
        (⟨0, 0, p.1.body.length⟩ : Chunk).decode p.1.body 0 tables .initial = .ok d ∧
        t.onChannel 0 = (Track.sort ⟨0, titleEvents name p.2 ++ d.events⟩).onChannel 0)
      (chunks.zipIdx index) (playedTracks tables name index wordss) := by
  induction h generalizing index with
  | nil => exact List.Forall₂.nil
  | cons hwords _ ih =>
    obtain ⟨d, hdecode, hevents⟩ := hwords.exists_decode_body tables index 0
    exact List.Forall₂.cons ⟨d, hdecode, Decoded.onChannel_toTrack_congr hevents name index⟩
      (ih (index + 1))

/-- What a layout loads to. -/
theorem FileLayout.Carries.exists_load {f : FileLayout} {wordss : List (List Bytes)}
    (h : f.Carries wordss) (tables : SideTables) :
    ∃ loaded, load tables f.bytes = .ok loaded ∧
      loaded.sequence = ⟨asciiText f.name, outputDivision,
        allocateChannels (playedTracks tables (asciiText f.name) 0 wordss)⟩ ∧
      loaded.warnings.map Fault.unplaced = playedWarnings tables 0 wordss :=
  load_of_spells f.read_bytes (h.spells_region.imp fun _ _ => Spells.of_region)

/-- **Files are put together from tracks.** A layout whose bodies carry the words of tracks
loads, under its name. Up to its channel, each track is what its body decodes to by itself,
ordered by tick, and the first has the title besides. Nothing else matters:

* a layout with the same name and the same words loads to the same sequence, and to the same
  warnings up to their positions;
* a layout that carries the same words as track `k` loads to the same track there, up to its
  channel, whatever its other tracks are (and for the first track, under the same name). -/
theorem FileLayout.load_bytes (tables : SideTables) {f : FileLayout}
    {wordss : List (List Bytes)} (h : f.Carries wordss) :
    ∃ loaded, load tables f.bytes = .ok loaded ∧
      loaded.sequence.name = asciiText f.name ∧
      loaded.sequence.timeDivision = outputDivision ∧
      List.Forall₂ (fun (p : ChunkLayout × Nat) (t : Track) => ∃ d,
          (⟨0, 0, p.1.body.length⟩ : Chunk).decode p.1.body 0 tables .initial = .ok d ∧
          t.onChannel 0 =
            (Track.sort ⟨0, titleEvents (asciiText f.name) p.2 ++ d.events⟩).onChannel 0)
        f.chunks.zipIdx loaded.sequence.tracks ∧
      (∀ f' : FileLayout, f'.name = f.name → f'.Carries wordss →
        ∃ loaded', load tables f'.bytes = .ok loaded' ∧
          loaded'.sequence = loaded.sequence ∧
          loaded'.warnings.map Fault.unplaced = loaded.warnings.map Fault.unplaced) ∧
      (∀ (f' : FileLayout) (wordss' : List (List Bytes)) (k : Nat), f'.Carries wordss' →
        wordss'[k]? = wordss[k]? → (k = 0 → f'.name = f.name) →
        ∃ loaded', load tables f'.bytes = .ok loaded' ∧
          loaded'.sequence.tracks[k]?.map (fun t => t.onChannel 0) =
            loaded.sequence.tracks[k]?.map fun t => t.onChannel 0) := by
  obtain ⟨loaded, hload, hsequence, hwarnings⟩ := h.exists_load tables
  refine ⟨loaded, hload, ?_, ?_, ?_, ?_, ?_⟩
  · rw [hsequence]
  · rw [hsequence]
  · rw [hsequence]
    refine (forall₂_allocateChannelsFrom
      (forall₂_playedTracks h tables (asciiText f.name) 0) 0).imp ?_
    rintro p _ ⟨t, channel, ⟨d, hdecode, htrack⟩, rfl⟩
    refine ⟨d, hdecode, ?_⟩
    rw [Track.onChannel_onChannel]
    exact htrack
  · intro f' hname h'
    obtain ⟨loaded', hload', hsequence', hwarnings'⟩ := h'.exists_load tables
    refine ⟨loaded', hload', ?_, ?_⟩
    · rw [hsequence, hsequence', hname]
    · rw [hwarnings, hwarnings']
  · intro f' wordss' k h' hwords hname
    obtain ⟨loaded', hload', hsequence', -⟩ := h'.exists_load tables
    refine ⟨loaded', hload', ?_⟩
    rw [hsequence, hsequence']
    refine map_onChannel_getElem?_playedTracks hwords ?_ 0
    intro hk
    rw [hname hk]

/-- What one voice of a duet plays: an octave and a note in it. -/
def voiceWords (octave : UInt8) : List Bytes :=
  [[0xA0, octave], [0x64, 0x60, 0x08]]

/-- The data of a voice, with one byte in all places that could hold any. -/
def voiceBody (fill octave : UInt8) : Bytes :=
  List.replicate 4 fill ++ ((voiceWords octave).flatten ++ [endOpcode, fill])

theorem length_voiceBody_lt (fill octave : UInt8) : (voiceBody fill octave).length < 2 ^ 32 := by
  simp [voiceBody, voiceWords]

/-- A file of two voices, an octave apart. -/
def duetFile (fill : UInt8) : FileLayout :=
  filledFile fill [filledChunk fill (voiceBody fill 4) (length_voiceBody_lt fill 4),
    filledChunk fill (voiceBody fill 5) (length_voiceBody_lt fill 5)] (by simp)

theorem spells_voiceBody (fill octave : UInt8) :
    Spells ((voiceBody fill octave).drop preambleLength) (voiceWords octave) endOpcode := by
  refine ⟨?_, [fill], List.drop_left' rfl⟩
  intro w hw
  rcases List.mem_cons.mp hw with rfl | hw
  · exact IsWord.fixed (show (0xA0, 1) ∈ operandCounts by decide)
  · obtain rfl := List.mem_singleton.mp hw
    exact IsWord.note (by decide) rfl

theorem carries_duetFile (fill : UInt8) :
    (duetFile fill).Carries [voiceWords 4, voiceWords 5] :=
  .cons (spells_voiceBody fill 4) (.cons (spells_voiceBody fill 5) .nil)

/-- Two files with different bytes in the places that do not count load to the same sequence. -/
theorem FileLayout.load_bytes_duetFile :
    ∃ loaded loaded', load .default (duetFile 0).bytes = .ok loaded ∧
      load .default (duetFile 0xFF).bytes = .ok loaded' ∧
      loaded.sequence.name = "demo" ∧ loaded.sequence.tracks.length = 2 ∧
      loaded'.sequence = loaded.sequence := by
  obtain ⟨loaded, hload, hname, -, htracks, hsame, -⟩ :=
    FileLayout.load_bytes .default (carries_duetFile 0)
  obtain ⟨loaded', hload', hsequence, -⟩ := hsame (duetFile 0xFF) rfl (carries_duetFile 0xFF)
  refine ⟨loaded, loaded', hload, hload', ?_, htracks.length_eq.symm, hsequence⟩
  rw [hname]
  decide

end Dse

end DseMidi
