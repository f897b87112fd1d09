import Mathlib.Data.List.Forall2
import DseMidi.Conversion
import DseMidi.Proofs.Bytes
import DseMidi.Proofs.Dse.Container
import DseMidi.Proofs.Dse.Timeline

/-!
# DseMidi.Proofs.Loading

**What a loaded sequence is made of.** `load` is inverted once (`load_inv`): its tracks are,
one by one, what the streams of the chunks play, with the title in front of the first of
them, ordered by tick and moved to a channel (`Dse.Chunk.Plays`). Facts about loaded tracks
are read off that and not off the loader.
-/

namespace DseMidi

namespace Dse

/-- The events in front of those of track number `index`: the first track carries the
title. -/
def titleEvents (name : String) (index : Nat) : List Event :=
  if index = 0 then [Event.ofMeta 0 (.metaEvent .sequenceName (utf8Bytes name))] else []

theorem eq_of_mem_titleEvents {name : String} {index : Nat} {e : Event}
    (h : e ∈ titleEvents name index) :
    e = Event.ofMeta 0 (.metaEvent .sequenceName (utf8Bytes name)) := by
  rw [titleEvents] at h
  split at h
  · exact List.mem_singleton.mp h
  · cases h

theorem tick_of_mem_titleEvents {name : String} {index : Nat} {e : Event}
    (h : e ∈ titleEvents name index) : e.tick = 0 := by
  rw [eq_of_mem_titleEvents h]
  rfl

/-- What is decoded is in order at the cursor, and it still is behind the title. -/
theorem Context.ordered_title_decoded (ctx : Context) (offset : Nat) (is : List Instruction)
    (name : String) (index : Nat) :
    Ordered ((titleEvents name index ++ (ctx.decoded offset .initial is).events).filter
      Event.atCursor) :=
  Decoded.ordered_title_append (ordered_decoded ctx offset .initial is) fun _ =>
    tick_of_mem_titleEvents

theorem Decoded.toTrack_eq (d : Decoded) (name : String) (index : Nat) :
    d.toTrack name index = Track.sort ⟨UInt8.ofNat index, titleEvents name index ++ d.events⟩ :=
  rfl

/-- Ordering and moving a track keep the ticks of its events. -/
theorem Decoded.map_tick_toTrack_perm (d : Decoded) (name : String) (index : Nat)
    (channel : UInt8) :
    (((d.toTrack name index).onChannel channel).events.map Event.tick).Perm
      ((titleEvents name index ++ d.events).map Event.tick) := by
  have hmoved : Event.tick ∘ Event.onChannel channel = Event.tick :=
    funext (Event.onChannel_tick channel)
  rw [toTrack_eq, Track.sort_onChannel_events, List.map_map, hmoved]
  exact (Track.sort_events_perm _).map Event.tick

/-- The track is, on some channel, what the stream of a chunk plays as track number
`index`. -/
def Chunk.Plays (tables : SideTables) (data : Bytes) (name : String) (chunk : Chunk)
    (index : Nat) (t : Track) : Prop :=
  ∃ is rest channel, Listing.ofBytes (data.drop chunk.streamStart) = ⟨is, .complete rest⟩ ∧
    t = ((Context.decoded ⟨tables, index⟩ chunk.streamStart .initial is).toTrack name
      index).onChannel channel

section Plays

variable {tables : SideTables} {data : Bytes} {name : String} {chunk : Chunk} {index : Nat}
  {t : Track}

/-- A loaded track is in order. -/
theorem Chunk.Plays.ordered (h : chunk.Plays tables data name index t) :
    Ordered t.events := by
  obtain ⟨is, rest, channel, hlist, rfl⟩ := h
  rw [Decoded.toTrack_eq, Track.sort_onChannel_events]
  refine List.pairwise_map.mpr ((Track.ordered_sort _).imp ?_)
  intro a b hab
  rw [Event.onChannel_tick, Event.onChannel_tick]
  exact hab

/-- A loaded track holds the title, what its chunk plays and the mark at the end, on its
channel. -/
theorem Chunk.Plays.mem_events_iff (h : chunk.Plays tables data name index t) :
    ∃ is rest, Listing.ofBytes (data.drop chunk.streamStart) = ⟨is, .complete rest⟩ ∧
      ∀ e, e ∈ t.events ↔ ∃ emitted, emitted.onChannel t.channel = e ∧
        (emitted ∈ titleEvents name index ∨
          emitted ∈ (Context.play ⟨tables, index⟩ chunk.streamStart .initial is).events ∨
          emitted = .ofMeta
            (Context.play ⟨tables, index⟩ chunk.streamStart .initial is).state.tick
            (.text endMarker)) := by
  obtain ⟨is, rest, channel, hlist, rfl⟩ := h
  refine ⟨is, rest, hlist, ?_⟩
  intro e
  rw [Track.onChannel_channel, Decoded.toTrack_eq, Track.sort_onChannel_events, List.mem_map]
  simp only [(Track.sort_events_perm _).mem_iff, Context.decoded, List.mem_append,
    List.mem_singleton, and_comm]

/-- The channel voice messages of a loaded track are on its channel. -/
theorem Chunk.Plays.channel_of_mem (h : chunk.Plays tables data name index t) {e : Event}
    (he : e ∈ t.events) (hvoice : e.message.isChannelVoice) : e.channel = t.channel := by
  obtain ⟨is, rest, -, hmem⟩ := h.mem_events_iff
  obtain ⟨emitted, rfl, -⟩ := (hmem e).mp he
  rw [Event.onChannel_message] at hvoice
  rw [Event.onChannel, if_pos hvoice]

/-- What is read off events at the cursor is read off a loaded track in stream order. -/
theorem Chunk.Plays.filterMap_events (h : chunk.Plays tables data name index t) {α : Type}
    {f : Event → Option α} (hcursor : ∀ e, (f e).isSome → e.atCursor)
    (hchannel : ∀ e channel, f (e.onChannel channel) = f e) :
    ∃ is rest, Listing.ofBytes (data.drop chunk.streamStart) = ⟨is, .complete rest⟩ ∧
      t.events.filterMap f = (titleEvents name index).filterMap f ++
        (Context.decoded ⟨tables, index⟩ chunk.streamStart .initial is).events.filterMap f := by
  obtain ⟨is, rest, channel, hlist, rfl⟩ := h
  refine ⟨is, rest, hlist, ?_⟩
  have hordered := Context.ordered_title_decoded ⟨tables, index⟩ chunk.streamStart is name index
  have hselected : Ordered ((titleEvents name index ++
      (Context.decoded ⟨tables, index⟩ chunk.streamStart .initial is).events).filter
        fun e => (f e).isSome) :=
    hordered.sublist (List.monotone_filter_right _ hcursor)
  have hmoved : f ∘ Event.onChannel channel = f := by
    funext e
    exact hchannel e channel
  rw [Decoded.toTrack_eq, Track.sort_onChannel_events, List.filterMap_map, hmoved,
    Track.filterMap_sort (t := ⟨UInt8.ofNat index, _⟩) hselected, List.filterMap_append]

end Plays

end Dse

/-! ### Inverting the loader -/

theorem forall₂_of_zipIdx {α β : Type} {R : α → β → Prop} {xs : List α} {ys : List β}
    {index : Nat} (h : List.Forall₂ (fun p y => R p.1 y) (xs.zipIdx index) ys) :
    List.Forall₂ R xs ys := by
  rw [← List.zipIdx_map_fst index xs]
  exact List.forall₂_map_left_iff.mpr h

theorem exists_mem_of_forall₂ {α β : Type} {R : α → β → Prop} {xs : List α} {ys : List β}
    (h : List.Forall₂ R xs ys) {y : β} (hy : y ∈ ys) : ∃ x ∈ xs, R x y := by
  induction h with
  | nil => cases hy
  | cons hxy _ ih =>
    rcases List.mem_cons.mp hy with rfl | hy
    · exact ⟨_, List.mem_cons_self, hxy⟩
    · obtain ⟨x, hx, hxy⟩ := ih hy
      exact ⟨x, List.mem_cons_of_mem _ hx, hxy⟩

theorem forall₂_and_mem_right {α β : Type} {R : α → β → Prop} {xs : List α} {ys : List β}
    (h : List.Forall₂ R xs ys) : List.Forall₂ (fun x y => R x y ∧ y ∈ ys) xs ys := by
  rw [List.forall₂_iff_zip] at h ⊢
  refine ⟨h.1, ?_⟩
  intro x y hxy
  exact ⟨h.2 hxy, (List.of_mem_zip hxy).2⟩

/-- Giving channels to tracks moves each to some channel. -/
theorem forall₂_allocateChannelsFrom {α : Type} {R : α → Track → Prop} {xs : List α}
    {tracks : List Track} (h : List.Forall₂ R xs tracks) (next : UInt8) :
    List.Forall₂ (fun x t => ∃ t' channel, R x t' ∧ t = t'.onChannel channel) xs
      (allocateChannelsFrom next tracks) := by
  induction h generalizing next with
  | nil => exact List.Forall₂.nil
  | cons hx hrest ih =>
    rw [allocateChannelsFrom]
    split
    · exact List.Forall₂.cons ⟨_, _, hx, rfl⟩ (ih _)
    · exact List.Forall₂.cons ⟨_, _, hx, rfl⟩ (ih _)

theorem allocateChannels_singleton (t : Track) :
    ∃ channel, allocateChannels [t] = [t.onChannel channel] := by
  rw [allocateChannels, allocateChannelsFrom]
  split
  · exact ⟨_, rfl⟩
  · exact ⟨_, rfl⟩

theorem loadTracks_inv {tables : SideTables} {data : Bytes} {name : String} {index : Nat}
    {chunks : List Dse.Chunk} {tracks : List (Track × List Fault)}
    (h : loadTracks tables data name index chunks = .ok tracks) :
    List.Forall₂ (fun p t => ∃ d, p.1.decode data p.2 tables .initial = .ok d ∧
      t = (d.toTrack name p.2, d.warnings)) (chunks.zipIdx index) tracks := by
  induction chunks generalizing index tracks with
  | nil =>
    cases h
    exact List.Forall₂.nil
  | cons chunk rest ih =>
    obtain ⟨d, hdecode, h⟩ := bind_eq_ok_iff.mp h
    obtain ⟨following, hrest, h⟩ := bind_eq_ok_iff.mp h
    cases h
    exact List.Forall₂.cons ⟨d, hdecode, rfl⟩ (ih hrest)

/-- The tracks of a loaded sequence are what the chunks of its file play. -/
theorem load_inv {tables : SideTables} {data : Bytes} {loaded : Loaded}
    (h : load tables data = .ok loaded) :
    ∃ header, Dse.Header.read data = .ok header ∧ loaded.sequence.name = header.name ∧
      loaded.sequence.timeDivision = outputDivision ∧
      List.Forall₂ (fun p t => p.1.Plays tables data header.name p.2 t)
        header.tracks.zipIdx loaded.sequence.tracks := by
  obtain ⟨header, hheader, h⟩ := bind_eq_ok_iff.mp h
  obtain ⟨tracks, htracks, h⟩ := bind_eq_ok_iff.mp h
  cases h
  refine ⟨header, hheader, rfl, rfl, ?_⟩
  have hdecoded : List.Forall₂ (fun p t => ∃ d, p.1.decode data p.2 tables .initial = .ok d ∧
      t = d.toTrack header.name p.2) header.tracks.zipIdx (tracks.map Prod.fst) := by
    refine List.forall₂_map_right_iff.mpr ((loadTracks_inv htracks).imp ?_)
    rintro p t ⟨d, hd, rfl⟩
    exact ⟨d, hd, rfl⟩
  refine (forall₂_allocateChannelsFrom hdecoded 0).imp ?_
  rintro p t ⟨t', channel, ⟨d, hd, rfl⟩, rfl⟩
  obtain ⟨is, rest, hlist, rfl⟩ := Dse.Chunk.decode_inv hd
  exact ⟨is, rest, channel, hlist, rfl⟩

theorem convert_of_load {tables : SideTables} {data : Bytes} {loaded : Loaded}
    (h : load tables data = .ok loaded) :
    convert tables data = .ok (Smf.encode loaded.sequence) := by
  rw [convert, h]
  rfl

/-! ### Files with one track -/

/-- A file whose only track has an opcode stream. -/
def singleTrackFile (stream : Bytes) : Bytes :=
  Dse.sequenceIdentifier ++ List.replicate 0x52 0 ++ [1] ++ List.replicate 0x29 0 ++
    Dse.trackIdentifier ++ List.replicate 8 0 ++ beBytes 4 (stream.length + 4) ++
    List.replicate 4 0 ++ stream

theorem read_singleTrackFile (stream : Bytes) :
    Dse.Header.read (singleTrackFile stream) =
      .ok ⟨0, "", 1, [⟨0x80, 0x90, (stream.length + 4) % 2 ^ 32⟩]⟩ := by
  have hlength : beNat (beBytes 4 (stream.length + 4)) = (stream.length + 4) % 2 ^ 32 :=
    beNat_beBytes 4 _
  rw [← hlength]
  exact Dse.Header.read_append rfl _

theorem drop_singleTrackFile (stream : Bytes) : (singleTrackFile stream).drop 0x94 = stream :=
  List.drop_left' (by simp [Dse.sequenceIdentifier, Dse.trackIdentifier])

theorem decode_singleTrackFile (tables : SideTables) {stream : Bytes}
    {is : List Dse.Instruction} {rest : Bytes}
    (h : Dse.Listing.ofBytes stream = ⟨is, .complete rest⟩) :
    (⟨0x80, 0x90, (stream.length + 4) % 2 ^ 32⟩ : Dse.Chunk).decode
      (singleTrackFile stream) 0 tables .initial =
        .ok (Dse.Context.decoded ⟨tables, 0⟩ 0x94 .initial is) := by
  apply Dse.Chunk.decode_of_complete
  rw [← drop_singleTrackFile stream] at h
  exact h

theorem load_singleTrackFile (tables : SideTables) {stream : Bytes}
    {is : List Dse.Instruction} {rest : Bytes}
    (h : Dse.Listing.ofBytes stream = ⟨is, .complete rest⟩) :
    load tables (singleTrackFile stream) = .ok {
      sequence := ⟨"", outputDivision, allocateChannels
        [(Dse.Context.decoded ⟨tables, 0⟩ 0x94 .initial is).toTrack "" 0]⟩
      warnings := (Dse.Context.decoded ⟨tables, 0⟩ 0x94 .initial is).warnings } := by
  have hdecode := decode_singleTrackFile tables h
  refine bind_eq_ok_iff.mpr ⟨_, read_singleTrackFile stream, ?_⟩
  refine bind_eq_ok_iff.mpr ⟨_, bind_eq_ok_iff.mpr ⟨_, hdecode, rfl⟩, ?_⟩
  simp

end DseMidi
