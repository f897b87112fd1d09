import DseMidi.Proofs.Dse.Duration
import DseMidi.Proofs.Dse.Messages
import DseMidi.Proofs.Gaps
import DseMidi.Proofs.Loading
import DseMidi.Proofs.Smf.RoundTrip
import DseMidi.Proofs.Smf.Walk

/-!
# DseMidi.Proofs.DeltaTimes

**How long the times of a written file are.** The times in a written track are the gaps
between the ticks of its neighbouring events. The writer has no limit on them, whereas a time
of more than four groups is not one that readers have to take, and the reader of this library
does not. So a file keeps to the limit exactly if no gap of its tracks is too long
(`Track.ShortGaps`), and exactly then the reader finds what was written.

A gap is at most as long as its track or as a note: a track of up to 1024 bytes of
instructions has none that is too long (`Dse.Chunk.Plays.shortGaps_of_length_le`).
-/

namespace DseMidi

/-! ### The times of a written track -/

namespace Track

theorem forall_delta_le_iff (t : Track) :
    (∀ w ∈ Smf.wireEvents 0 t.events ++ [Smf.endMark], w.delta ≤ 0x0FFFFFFF) ↔
      t.ShortGaps := by
  rw [ShortGaps, ← map_delta_wireEvents, List.forall_mem_map, List.forall_mem_append]
  constructor
  · intro h
    exact h.1
  · intro h
    refine ⟨h, ?_⟩
    intro w hw
    rw [List.mem_singleton.mp hw]
    exact Nat.zero_le _

/-- The reader finds what stands in a written track exactly if no gap is too long for it. -/
theorem readEvents_trackBody_iff {t : Track} (hordered : Ordered t.events)
    (hmessages : ∀ e ∈ t.events, e.message.Portable) :
    Smf.readEvents (Smf.trackBody t) = Smf.wireEvents 0 t.events ++ [Smf.endMark] ↔
      t.ShortGaps := by
  constructor
  · intro h
    refine t.forall_delta_le_iff.mp ?_
    intro w hw
    rw [← h] at hw
    exact Smf.delta_le_of_mem_readEventsFrom hw
  · intro h
    have hspaced := (shortGaps_iff hordered).mp h
    have hlegible : ∀ e ∈ t.events, e.message.Legible :=
      fun e he => Smf.legible_of_portable (hmessages e he)
    exact Smf.readEventsFrom_eventsBytes hspaced hlegible none

/-- The times in a written track are its gaps, and each fits four groups exactly if its gap
does. -/
theorem walk_trackBody {t : Track} (hordered : Ordered t.events)
    (hmessages : ∀ e ∈ t.events, e.message.Portable) :
    ∃ records, Smf.walk (Smf.trackBody t) = some records ∧
      records.map (fun r => r.event.delta) = gaps 0 (t.events.map Event.tick) ++ [0] ∧
      ((∀ r ∈ records, r.event.delta ≤ 0x0FFFFFFF) ↔ t.ShortGaps) ∧
      ((∀ r ∈ records, r.time.length ≤ 4) ↔ t.ShortGaps) ∧
      (Smf.readEvents (Smf.trackBody t) = records.map Smf.Record.event ↔ t.ShortGaps) ∧
      (t.ShortGaps → Smf.trackEvents (Smf.trackBody t) = t.events.map Event.normalized) := by
  have hframed : ∀ e ∈ t.events, e.message.Framed := by
    intro e he
    exact (hmessages e he).framed
  have hevent : (Smf.wireEvents 0 t.events ++ [Smf.endMark]).map
      (Smf.Record.event ∘ Smf.Record.ofWire) = Smf.wireEvents 0 t.events ++ [Smf.endMark] :=
    List.map_id _
  have hlength : ∀ w : Smf.WireEvent,
      (Smf.Record.ofWire w).time.length ≤ 4 ↔ w.delta ≤ 0x0FFFFFFF := by
    intro w
    rw [Smf.Record.ofWire, Quantity.length_encode_le_iff (by decide)]
    exact Nat.lt_succ_iff
  refine ⟨_, Smf.walk_eventsBytes hframed 0, ?_, ?_, ?_, ?_, ?_⟩
  · rw [List.map_map, List.map_append, ← map_delta_wireEvents]
    rfl
  · rw [List.forall_mem_map]
    exact t.forall_delta_le_iff
  · rw [List.forall_mem_map]
    simp only [hlength]
    exact t.forall_delta_le_iff
  · rw [List.map_map, hevent]
    exact readEvents_trackBody_iff hordered hmessages
  · intro h
    have hlegible : ∀ e ∈ t.events, e.message.Legible :=
      fun e he => Smf.legible_of_portable (hmessages e he)
    exact Smf.trackEvents_eventsBytes ((shortGaps_iff hordered).mp h) hlegible

end Track

/-! ### Loaded tracks -/

namespace Dse

section Plays

variable {tables : SideTables} {data : Bytes} {name : String} {chunk : Chunk} {index : Nat}
  {t : Track}

/-- The reader keeps what a chunk plays. -/
theorem Chunk.Plays.portable (h : chunk.Plays tables data name index t)
    (hname : name.toList.length ≤ nameFieldSize) :
    ∀ e ∈ t.events, e.message.Portable := by
  obtain ⟨is, rest, hlist, hmem⟩ := h.mem_events_iff
  intro e he
  obtain ⟨emitted, rfl, hemitted⟩ := (hmem e).mp he
  rw [Event.onChannel_message]
  rcases hemitted with htitle | hplay | rfl
  · rw [eq_of_mem_titleEvents htitle]
    have hlength := length_utf8Bytes_le name
    have hshort : nameFieldSize = 15 := rfl
    exact ⟨by decide, fun h51 => absurd h51 (by decide), by omega⟩
  · exact Context.portable_of_mem_play (Listing.wellFormed_of_eq hlist) hplay
  · exact portable_text (by decide)

/-- A gap is at most as long as the track or as a note. -/
theorem Chunk.Plays.gaps_le (h : chunk.Plays tables data name index t) :
    ∃ is rest, Listing.ofBytes (data.drop chunk.streamStart) = ⟨is, .complete rest⟩ ∧
      ∀ gap ∈ gaps 0 (t.events.map Event.tick),
        gap ≤ max (is.foldl State.after .initial).tick (2 ^ 25) := by
  have hordered := h.ordered
  obtain ⟨is, rest, channel, hlist, rfl⟩ := h
  have hwell := Listing.wellFormed_of_eq hlist
  refine ⟨is, rest, hlist, ?_⟩
  rw [← Context.state_play ⟨tables, index⟩ chunk.streamStart]
  have hperm := Decoded.map_tick_toTrack_perm
    (Context.decoded ⟨tables, index⟩ chunk.streamStart .initial is) name index channel
  refine DseMidi.gaps_le (hperm.mem_iff.mpr ?_) hordered.zero_cons_ticks ?_
  · -- The mark at the end stands at the last position of the cursor.
    rw [Context.decoded, List.map_append, List.map_append]
    exact List.mem_append_right _ (List.mem_append_right _ List.mem_cons_self)
  · intro tick htick
    obtain ⟨e, he, rfl⟩ := List.mem_map.mp (hperm.mem_iff.mp htick)
    rcases List.mem_append.mp he with he | he
    · rw [tick_of_mem_titleEvents he]
      exact Nat.zero_le _
    · rcases List.mem_append.mp he with he | he
      · exact Context.tick_le_of_mem_play State.bounded_initial hwell he
      · obtain rfl := List.mem_singleton.mp he
        exact Nat.le_add_right _ _

/-- A track of up to 1024 bytes of instructions has no gap that is too long. -/
theorem Chunk.Plays.shortGaps_of_length_le (h : chunk.Plays tables data name index t)
    {words : List Bytes} (hwords : Spells (data.drop chunk.streamStart) words endOpcode)
    (hlength : words.flatten.length ≤ 1024) : t.ShortGaps := by
  obtain ⟨is, rest, hlist, hgaps⟩ := h.gaps_le
  obtain ⟨is', rest', rfl, hlist'⟩ := hwords.ofBytes_of_end
  rw [hlist] at hlist'
  cases hlist'
  rw [length_flatten_map_bytes] at hlength
  have hwell := Listing.wellFormed_of_eq hlist
  have hend : (Context.play ⟨tables, index⟩ 0 .initial is).state.tick ≤ _ :=
    Context.tick_play_le State.bounded_initial hwell
  have hproduct : is.length * (131070 + 127 * (0 + streamSize is)) ≤
      1024 * (131070 + 127 * 1024) :=
    Nat.mul_le_mul (Nat.le_trans (length_le_streamSize is) hlength) (by omega)
  have hstart : State.initial.tick = 0 := rfl
  rw [Context.state_play, hstart] at hend
  intro gap hgap
  have hgap := hgaps gap hgap
  omega

end Plays

end Dse

/-! ### Written files -/

/-- **Times of written files.** A written file is a header and one chunk for each loaded
track. The times in a chunk are the gaps between the ticks of its track, and zero in front of
the mark at its end. They keep to the limit of four groups exactly if the track has short
gaps, and exactly then the reader finds what stands in the chunk, which is then the track at
its own ticks. Tracks of up to 1024 bytes of instructions always have short gaps. -/
theorem convert_deltas {tables : SideTables} {data file : Bytes}
    (h : convert tables data = .ok file) :
    ∃ header loaded bodies, Dse.Header.read data = .ok header ∧
      load tables data = .ok loaded ∧
      file = Smf.chunkBytes Smf.headerTag (Smf.Image.headerData ⟨outputDivision, bodies⟩) ++
        bodies.flatMap (Smf.chunkBytes Smf.trackTag) ∧
      List.Forall₂ (fun t body => ∃ records, Smf.walk body = some records ∧
          records.map (fun r => r.event.delta) = gaps 0 (t.events.map Event.tick) ++ [0] ∧
          ((∀ r ∈ records, r.event.delta ≤ 0x0FFFFFFF) ↔ t.ShortGaps) ∧
          ((∀ r ∈ records, r.time.length ≤ 4) ↔ t.ShortGaps) ∧
          (Smf.readEvents body = records.map Smf.Record.event ↔ t.ShortGaps) ∧
          (t.ShortGaps → Smf.trackEvents body = t.events.map Event.normalized))
        loaded.sequence.tracks bodies ∧
      List.Forall₂ (fun chunk t => ∀ words,
          Dse.Spells (data.drop chunk.streamStart) words Dse.endOpcode →
            words.flatten.length ≤ 1024 → t.ShortGaps)
        header.tracks loaded.sequence.tracks := by
  cases hload : load tables data with
  | error fault =>
    rw [convert, hload] at h
    cases h
  | ok loaded =>
    rw [convert, hload] at h
    cases h
    obtain ⟨header, hheader, -, hdivision, htracks⟩ := load_inv hload
    have hname := Dse.Header.length_name_le hheader
    refine ⟨header, loaded, loaded.sequence.tracks.map Smf.trackBody, hheader, rfl, ?_, ?_, ?_⟩
    · show (Smf.image loaded.sequence).bytes = _
      rw [Smf.image_eq, hdivision]
      rfl
    · rw [List.forall₂_map_right_iff, List.forall₂_same]
      intro t ht
      obtain ⟨p, -, hplays⟩ := exists_mem_of_forall₂ htracks ht
      exact Track.walk_trackBody hplays.ordered (hplays.portable hname)
    · refine forall₂_of_zipIdx (htracks.imp ?_)
      intro p t hplays words hwords hlength
      exact hplays.shortGaps_of_length_le hwords hlength

/-- The longest delay there is, 2049 times. -/
def longDelays : List Dse.Instruction :=
  .delay16 0xFF 0xFF :: List.replicate 2048 .repeatDelay

/-- A stream with nothing but delays. -/
def longStream : Bytes := Dse.streamBytes longDelays ++ [Dse.endOpcode]

theorem ticks_longDelays (channel : UInt8) :
    (((Dse.Context.decoded ⟨.default, 0⟩ 0x94 .initial longDelays).toTrack "" 0).onChannel
      channel).events.map Event.tick = [0, 268562430] := by
  have hdecoded : (Dse.Context.decoded ⟨.default, 0⟩ 0x94 .initial longDelays).events =
      [.ofMeta 268562430 (.text Dse.endMarker)] := by
    rw [Dse.Context.decoded, longDelays, Dse.Context.play_cons,
      Dse.Context.play_replicate_repeatDelay]
    rfl
  rw [Dse.Decoded.toTrack_eq, Track.sort_onChannel_events, hdecoded, Track.sort,
    List.mergeSort_of_pairwise (by decide)]
  simp [Dse.titleEvents, Event.ofMeta]

/-- The end of the track comes a gap of five groups after the title. The converter writes it,
and the reader does not find it. -/
theorem convert_deltas_longStream :
    ∃ file loaded t body records,
      convert .default (singleTrackFile longStream) = .ok file ∧
      load .default (singleTrackFile longStream) = .ok loaded ∧
      loaded.sequence.tracks = [t] ∧ t.events.map Event.tick = [0, 268562430] ∧
      file = Smf.chunkBytes Smf.headerTag (Smf.Image.headerData ⟨outputDivision, [body]⟩) ++
        Smf.chunkBytes Smf.trackTag body ∧
      Smf.walk body = some records ∧
      records.map (fun r => r.event.delta) = [0, 268562430, 0] ∧
      ¬ (∀ r ∈ records, r.event.delta ≤ 0x0FFFFFFF) ∧
      ¬ (∀ r ∈ records, r.time.length ≤ 4) ∧
      Smf.readEvents body ≠ records.map Smf.Record.event := by
  have hwell : ∀ i ∈ longDelays, i.WellFormed := by
    intro i hi
    rcases List.mem_cons.mp hi with rfl | hi
    · trivial
    · rw [List.eq_of_mem_replicate hi]
      trivial
  have hload := load_singleTrackFile .default (Dse.Listing.ofBytes_streamBytes hwell [])
  obtain ⟨file, hconvert⟩ : ∃ file, convert .default (singleTrackFile longStream) = .ok file := by
    rw [convert, longStream, hload]
    exact ⟨_, rfl⟩
  obtain ⟨header, loaded, bodies, -, hloaded, hfile, hbodies, -⟩ := convert_deltas hconvert
  obtain ⟨channel, hchannel⟩ := allocateChannels_singleton
    ((Dse.Context.decoded ⟨.default, 0⟩ 0x94 .initial longDelays).toTrack "" 0)
  have hticks := ticks_longDelays channel
  have htracks : loaded.sequence.tracks =
      [((Dse.Context.decoded ⟨.default, 0⟩ 0x94 .initial longDelays).toTrack "" 0).onChannel
        channel] := by
    rw [longStream, hload] at hloaded
    cases hloaded
    exact hchannel
  rw [htracks] at hbodies
  obtain ⟨body, _, ⟨records, hwalk, hdeltas, hlimit, hwidths, hreader, -⟩, hnil, rfl⟩ :=
    List.forall₂_cons_left_iff.mp hbodies
  obtain rfl := List.forall₂_nil_left_iff.mp hnil
  have hlong : ¬ (((Dse.Context.decoded ⟨.default, 0⟩ 0x94 .initial longDelays).toTrack ""
      0).onChannel channel).ShortGaps := by
    intro h
    rw [Track.ShortGaps, hticks] at h
    exact absurd (h 268562430 (by simp [gaps])) (by decide)
  rw [hticks] at hdeltas
  refine ⟨file, loaded, _, body, records, hconvert, hloaded, htracks, hticks, ?_, hwalk, hdeltas,
    mt hlimit.mp hlong, mt hwidths.mp hlong, mt hreader.mp hlong⟩
  rw [hfile, List.flatMap_singleton]

end DseMidi
