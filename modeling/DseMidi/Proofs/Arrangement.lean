import DseMidi.Proofs.Dse.Messages
import DseMidi.Proofs.Loading

/-!
# DseMidi.Proofs.Arrangement

**Where the events of a loaded track stand.** A track is emitted in the order of its
instructions and ordered by tick afterwards (`Track.Arranges`). Only two kinds of events are
emitted away from the cursor: note offs ahead of it, and the controllers that set the bend
range, back at the start. So these are all that ordering moves past other events, and what
comes after the mark at the end of a track can only be note offs (`Track.EndsWithMark`).
-/

namespace DseMidi

/-! ### Arranging events by tick -/

/-- The track holds the emitted events and no others, by tick. Those of one tick, and those
at the cursor, are in the order in which they were emitted. -/
structure Track.Arranges (t : Track) (emitted : List Event) : Prop where
  perm : t.events.Perm emitted
  ordered : Ordered t.events
  stable (tick : Nat) :
    (t.events.filter fun e => e.tick = tick) = emitted.filter fun e => e.tick = tick
  atCursor : t.events.filter Event.atCursor = emitted.filter Event.atCursor

/-- The mark at the end of a track stands there once, and only note offs of later ticks come
after it. -/
def Track.EndsWithMark (t : Track) : Prop :=
  ∃ before mark after, t.events = before ++ mark :: after ∧
    mark.message = .text Dse.endMarker ∧
    (∀ e ∈ before, e.message ≠ .text Dse.endMarker) ∧
    ∀ e ∈ after, (∃ key velocity, e.message = .noteOff key velocity) ∧ mark.tick < e.tick

@[simp] theorem Event.atCursor_onChannel (channel : UInt8) (e : Event) :
    (e.onChannel channel).atCursor = e.atCursor := by
  simp [atCursor]

namespace Track

/-- Sorting arranges a track whose events at the cursor were emitted in order. -/
theorem arranges_sort {t : Track} (h : Ordered (t.events.filter Event.atCursor)) :
    t.sort.Arranges t.events where
  perm := t.sort_events_perm
  ordered := t.ordered_sort
  stable := t.filter_tick_sort
  atCursor := filter_sort h

namespace Arranges

variable {t : Track} {emitted : List Event}

/-- A move to another channel neither adds nor reorders events. -/
theorem onChannel (h : t.Arranges emitted) (channel : UInt8) :
    (t.onChannel channel).Arranges (emitted.map (Event.onChannel channel)) where
  perm := h.perm.map _
  ordered := by
    refine List.pairwise_map.mpr (h.ordered.imp ?_)
    intro a b hab
    simpa using hab
  stable := by
    intro tick
    have hstable := congrArg (List.map (Event.onChannel channel)) (h.stable tick)
    simpa [Track.onChannel, List.filter_map, Function.comp_def] using hstable
  atCursor := by
    have hcursor := congrArg (List.map (Event.onChannel channel)) h.atCursor
    simpa [Track.onChannel, List.filter_map, Function.comp_def] using hcursor

/-- An event that is emitted first, at tick zero, comes first. -/
theorem head?_eq {e : Event} (h : t.Arranges (e :: emitted)) (he : e.tick = 0) :
    t.events.head? = some e := by
  have hzero := h.stable 0
  rw [List.filter_cons_of_pos (by simpa using he)] at hzero
  obtain ⟨before, after, hevents, hbefore, -, -⟩ := List.filter_eq_cons_iff.mp hzero
  cases before with
  | nil => simp [hevents]
  | cons first before =>
    -- Nothing is earlier than tick zero, so nothing can stand in front.
    have hordered := h.ordered
    rw [hevents] at hordered
    have hle : first.tick ≤ e.tick := List.rel_of_pairwise_cons hordered (by simp)
    have hne := hbefore first List.mem_cons_self
    simp only [decide_eq_true_eq] at hne
    omega

/-- An event that is emitted last comes behind all events up to its tick. -/
theorem exists_split {last : Event} (h : t.Arranges (emitted ++ [last])) :
    ∃ before after, t.events = before ++ last :: after ∧ (before ++ after).Perm emitted ∧
      ∀ e ∈ after, last.tick < e.tick := by
  have hstable := h.stable last.tick
  rw [List.filter_append, List.filter_cons_of_pos (by simp), List.filter_nil] at hstable
  obtain ⟨earlier, later, hevents, -, hlater⟩ := List.filter_eq_append_iff.mp hstable
  obtain ⟨ties, after, rfl, -, -, hafter⟩ := List.filter_eq_cons_iff.mp hlater
  rw [← List.append_assoc] at hevents
  refine ⟨earlier ++ ties, after, hevents, ?_, ?_⟩
  · have hperm := h.perm
    rw [hevents] at hperm
    exact (List.perm_middle.symm.trans (hperm.trans List.perm_append_comm)).cons_inv
  · intro e he
    have hne := List.filter_eq_nil_iff.mp hafter e he
    have hordered := h.ordered
    rw [hevents] at hordered
    have hle := List.rel_of_pairwise_cons (List.pairwise_append.mp hordered).2.1 he
    simp only [decide_eq_true_eq] at hne
    omega

/-- A track ends with its mark if the mark is emitted last, once, and only note offs are
later. -/
theorem endsWithMark {mark : Event} (h : t.Arranges (emitted ++ [mark]))
    (hmark : mark.message = .text Dse.endMarker)
    (honce : ∀ e ∈ emitted, e.message ≠ .text Dse.endMarker)
    (hlater : ∀ e ∈ emitted, mark.tick < e.tick → ∃ key velocity,
      e.message = .noteOff key velocity) : t.EndsWithMark := by
  obtain ⟨before, after, hevents, hperm, hafter⟩ := h.exists_split
  refine ⟨before, mark, after, hevents, hmark, ?_, ?_⟩
  · intro e he
    exact honce e (hperm.subset (List.mem_append_left _ he))
  · intro e he
    have hmem := hperm.subset (List.mem_append_right _ he)
    exact ⟨hlater e hmem (hafter e he), hafter e he⟩

end Arranges

end Track

/-! ### Decoded tracks -/

namespace Dse

/-- What a run emits away from its cursor: note offs, and what sets the bend range. -/
theorem Context.not_atCursor_of_mem_play {ctx : Context} {offset : Nat} {s : State}
    {is : List Instruction} {e : Event} (h : e ∈ (ctx.play offset s is).events)
    (hcursor : e.atCursor = false) :
    (∃ tick key, e = .noteOff tick ctx.channel key) ∨ e ∈ ctx.bendRangeEvents := by
  obtain ⟨i, -, s', h⟩ := exists_of_mem_play h
  rcases events_inv h with ⟨hat, -⟩ | ⟨key, rfl⟩ | hrange
  · rw [hcursor] at hat
    cases hat
  · exact Or.inl ⟨_, key, rfl⟩
  · exact Or.inr hrange

/-- Only note offs are behind the end of a run. -/
theorem Context.noteOff_of_tick_lt {ctx : Context} {offset : Nat} {s : State}
    {is : List Instruction} {e : Event} (h : e ∈ (ctx.play offset s is).events)
    (hlater : (ctx.play offset s is).state.tick < e.tick) :
    ∃ key velocity, e.message = .noteOff key velocity := by
  cases hcursor : e.atCursor with
  | true =>
    have hle := (between_of_mem_play h hcursor).2
    omega
  | false =>
    rcases not_atCursor_of_mem_play h hcursor with ⟨tick, key, rfl⟩ | hrange
    · exact ⟨key, 0, rfl⟩
    · have hzero := (bendRangeEvents_inv hrange).1
      omega

theorem atCursor_of_mem_titleEvents {name : String} {index : Nat} {e : Event}
    (h : e ∈ titleEvents name index) : e.atCursor := by
  rw [eq_of_mem_titleEvents h]
  rfl

theorem message_ne_endMarker_of_mem_titleEvents {name : String} {index : Nat} {e : Event}
    (h : e ∈ titleEvents name index) : e.message ≠ .text endMarker := by
  rw [eq_of_mem_titleEvents h]
  simp [Event.ofMeta, Message.text]

section Plays

variable {tables : SideTables} {data : Bytes} {name : String} {chunk : Chunk} {index : Nat}
  {t : Track}

/-- A loaded track arranges what its chunk is decoded to, behind the title. -/
theorem Chunk.Plays.arranges (h : chunk.Plays tables data name index t) :
    ∃ is, chunk.decode data index tables .initial =
        .ok (Context.decoded ⟨tables, index⟩ chunk.streamStart .initial is) ∧
      t.Arranges ((titleEvents name index ++
        (Context.decoded ⟨tables, index⟩ chunk.streamStart .initial is).events).map
          (Event.onChannel t.channel)) := by
  obtain ⟨is, rest, channel, hlist, rfl⟩ := h
  have hordered := Context.ordered_title_decoded ⟨tables, index⟩ chunk.streamStart is name index
  refine ⟨is, Chunk.decode_of_complete hlist, ?_⟩
  rw [Track.onChannel_channel, Decoded.toTrack_eq]
  exact (Track.arranges_sort (t := ⟨UInt8.ofNat index, _⟩) hordered).onChannel channel

end Plays

/-- The end of a track is marked, whatever channel it is moved to. -/
theorem Context.endsWithMark {ctx : Context} {offset : Nat} {is : List Instruction}
    {name : String} {index : Nat} {t : Track} {channel : UInt8}
    (h : t.Arranges ((titleEvents name index ++
      (ctx.decoded offset .initial is).events).map (Event.onChannel channel))) :
    t.EndsWithMark := by
  rw [decoded, ← List.append_assoc, List.map_append] at h
  refine h.endsWithMark ?_ ?_ ?_
  · rw [Event.onChannel_message]
    rfl
  · refine List.forall_mem_map.mpr ?_
    intro e he
    rw [Event.onChannel_message]
    rcases List.mem_append.mp he with he | he
    · exact message_ne_endMarker_of_mem_titleEvents he
    · exact message_ne_endMarker_of_mem_play he
  · refine List.forall_mem_map.mpr ?_
    intro e he hlater
    rw [Event.onChannel_tick, Event.onChannel_tick] at hlater
    rw [Event.onChannel_message]
    rcases List.mem_append.mp he with he | he
    · rw [tick_of_mem_titleEvents he] at hlater
      cases hlater
    · exact noteOff_of_tick_lt he hlater

end Dse

/-! ### Loaded tracks -/

/-- **The order of loaded tracks.** There is one track for each chunk. It holds the events
that the chunk is decoded to, on the channel of the track, and the first track holds the
title besides; they are arranged by tick. All that was emitted away from the cursor are note
offs and the controllers that set the bend range. The first track begins with its title, and
every track ends with its mark. -/
theorem load_arrangement {tables : SideTables} {data : Bytes} {loaded : Loaded}
    (h : load tables data = .ok loaded) :
    ∃ header, Dse.Header.read data = .ok header ∧
      List.Forall₂ (fun (p : Dse.Chunk × Nat) (t : Track) => ∃ d : Dse.Decoded,
          p.1.decode data p.2 tables .initial = .ok d ∧
          t.Arranges ((Dse.titleEvents header.name p.2 ++ d.events).map
            (Event.onChannel t.channel)) ∧
          (∀ e ∈ t.events, e.atCursor = false →
            (∃ key velocity, e.message = .noteOff key velocity) ∨
              ∃ range ∈ Dse.Context.bendRangeEvents ⟨tables, p.2⟩,
                e = range.onChannel t.channel) ∧
          (p.2 = 0 → t.events.head? =
            some (.ofMeta 0 (.metaEvent .sequenceName (utf8Bytes header.name)))) ∧
          t.EndsWithMark)
        header.tracks.zipIdx loaded.sequence.tracks := by
  obtain ⟨header, hheader, -, -, htracks⟩ := load_inv h
  refine ⟨header, hheader, htracks.imp ?_⟩
  intro p t hplays
  obtain ⟨is, hdecode, harranges⟩ := hplays.arranges
  refine ⟨_, hdecode, harranges, ?_, ?_, Dse.Context.endsWithMark harranges⟩
  · intro e he hcursor
    obtain ⟨emitted, hemitted, rfl⟩ := List.mem_map.mp (harranges.perm.subset he)
    rw [Event.atCursor_onChannel] at hcursor
    rw [Event.onChannel_message]
    rcases List.mem_append.mp hemitted with htitle | hdecoded
    · rw [Dse.atCursor_of_mem_titleEvents htitle] at hcursor
      cases hcursor
    rcases List.mem_append.mp hdecoded with hplay | hmark
    · rcases Dse.Context.not_atCursor_of_mem_play hplay hcursor with ⟨tick, key, rfl⟩ | hrange
      · exact Or.inl ⟨key, 0, rfl⟩
      · exact Or.inr ⟨emitted, hrange, rfl⟩
    · obtain rfl := List.mem_singleton.mp hmark
      cases hcursor
  · intro hindex
    rw [hindex, Dse.titleEvents, if_pos rfl, List.singleton_append, List.map_cons] at harranges
    exact harranges.head?_eq rfl

/-- A note that is still sounding when the track ends, a first bend behind it, and a second
note of the same key and of no length. -/
def crossedNotes : List Dse.Instruction :=
  [.setOctave 5, .note 100 0x60 [8], .fixedDelay 13, .pitchBend 0x10 0x00, .note 90 0x60 [0]]

/-- A stream that emits events ahead of the cursor and behind it. -/
def crossedStream : Bytes := Dse.streamBytes crossedNotes ++ [Dse.endOpcode]

theorem ofBytes_crossedStream :
    Dse.Listing.ofBytes crossedStream = ⟨crossedNotes, .complete []⟩ :=
  Dse.Listing.ofBytes_streamBytes (by decide) []

/-- The first note ends behind the mark, and the bend range is set at the start. -/
theorem load_arrangement_crossedStream :
    ∃ loaded, load .default (singleTrackFile crossedStream) = .ok loaded ∧
      ∃ t, loaded.sequence.tracks = [t] ∧
      t.events.map Event.tick = [0, 0, 0, 0, 0, 0, 8, 8, 8, 8, 15] ∧
      t.events.head? = some (.ofMeta 0 (.metaEvent .sequenceName [])) ∧ t.EndsWithMark := by
  have hload := load_singleTrackFile .default ofBytes_crossedStream
  have hdecode := decode_singleTrackFile .default ofBytes_crossedStream
  refine ⟨_, hload, ?_⟩
  obtain ⟨header, hheader, htracks⟩ := load_arrangement hload
  rw [read_singleTrackFile] at hheader
  cases hheader
  obtain ⟨t, tracks, ⟨d, hd, harranges, -, htitle, hmark⟩, hnil, htrack⟩ :=
    List.forall₂_cons_left_iff.mp htracks
  obtain rfl := List.forall₂_nil_left_iff.mp hnil
  obtain rfl := Except.ok.inj (hdecode.symm.trans hd)
  refine ⟨t, htrack, ?_, htitle rfl, hmark⟩
  have hticks := harranges.perm.map Event.tick
  have hsorted : (t.events.map Event.tick).Pairwise (· ≤ ·) :=
    List.pairwise_map.mpr harranges.ordered
  have hemitted : ((Dse.titleEvents "" 0 ++
      (Dse.Context.decoded ⟨.default, 0⟩ 0x94 .initial crossedNotes).events).map
        (Event.onChannel t.channel)).map Event.tick = [0, 0, 15, 0, 0, 0, 0, 8, 8, 8, 8] := by
    rw [List.map_map, show Event.tick ∘ Event.onChannel t.channel = Event.tick from
      funext (Event.onChannel_tick _)]
    decide
  rw [hemitted] at hticks
  have hperm : (t.events.map Event.tick).Perm [0, 0, 0, 0, 0, 0, 8, 8, 8, 8, 15] :=
    hticks.trans (by decide)
  refine hperm.eq_of_pairwise ?_ hsorted (by decide)
  intro a b _ _
  exact Nat.le_antisymm

end DseMidi
