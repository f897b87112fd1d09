import DseMidi.Proofs.Arrangement

/-!
# DseMidi.Proofs.BendRange

**The bend range is set once and in time.** A track sets the range of its pitch bends in front of
its first bend and never again, whatever the state that it starts from knows of the range
(`Context.setsRangeOnce_play`, `Context.not_setsRange_of_mem_play`).

The controllers that do it are emitted with the first bend, which may be late, but stand at tick
zero. Ordering a track takes them to its start past everything that is later and past nothing
else, so they stay together and no bend is in front of them (`Track.Arranges.setsRangeOnce`).
-/

namespace DseMidi

/-! ### Bends and the controllers for them -/

/-- Whether the event is a pitch bend. -/
def Event.isBend (e : Event) : Bool :=
  match e.message with
  | .pitchBend .. => true
  | _ => false

/-- Whether the event is of one of the controllers that set the bend range. -/
def Event.setsRange (e : Event) : Bool :=
  match e.message with
  | .controller number _ => number ∈ rangeControllers
  | _ => false

/-- What sets the range of pitch bends on a channel to eight semitones. -/
def rangeSetup (channel : UInt8) : List Event :=
  [⟨0, channel, .controller 101 0⟩, ⟨0, channel, .controller 100 0⟩,
   ⟨0, channel, .controller 6 8⟩, ⟨0, channel, .controller 38 0⟩]

/-- The bend range is set at one place of the events, in front of every bend. -/
def SetsRangeOnce (channel : UInt8) (events : List Event) : Prop :=
  ∃ before after, events = before ++ rangeSetup channel ++ after ∧
    (∀ e ∈ before, e.isBend = false ∧ e.setsRange = false) ∧ ∀ e ∈ after, e.setsRange = false

@[simp] theorem Event.isBend_onChannel (channel : UInt8) (e : Event) :
    (e.onChannel channel).isBend = e.isBend := by
  simp [isBend]

@[simp] theorem Event.setsRange_onChannel (channel : UInt8) (e : Event) :
    (e.onChannel channel).setsRange = e.setsRange := by
  simp [setsRange]

theorem map_onChannel_rangeSetup (channel channel' : UInt8) :
    (rangeSetup channel).map (Event.onChannel channel') = rangeSetup channel' := rfl

section Placing

variable {channel : UInt8} {events : List Event}

/-- Events that neither bend nor set the range can stand in front. -/
theorem SetsRangeOnce.append_left (h : SetsRangeOnce channel events) {silent : List Event}
    (hsilent : ∀ e ∈ silent, e.isBend = false ∧ e.setsRange = false) :
    SetsRangeOnce channel (silent ++ events) := by
  obtain ⟨before, after, rfl, hbefore, hafter⟩ := h
  refine ⟨silent ++ before, after, by simp, ?_, hafter⟩
  exact List.forall_mem_append.mpr ⟨hsilent, hbefore⟩

/-- Behind the setup, all events that do not set the range again can follow. -/
theorem SetsRangeOnce.append_right (h : SetsRangeOnce channel events) {more : List Event}
    (hmore : ∀ e ∈ more, e.setsRange = false) : SetsRangeOnce channel (events ++ more) := by
  obtain ⟨before, after, rfl, hbefore, hafter⟩ := h
  refine ⟨before, after ++ more, by simp, hbefore, ?_⟩
  exact List.forall_mem_append.mpr ⟨hafter, hmore⟩

theorem SetsRangeOnce.map_onChannel (h : SetsRangeOnce channel events) (channel' : UInt8) :
    SetsRangeOnce channel' (events.map (Event.onChannel channel')) := by
  obtain ⟨before, after, rfl, hbefore, hafter⟩ := h
  refine ⟨before.map (Event.onChannel channel'), after.map (Event.onChannel channel'), ?_, ?_, ?_⟩
  · rw [List.map_append, List.map_append, map_onChannel_rangeSetup]
  · refine List.forall_mem_map.mpr ?_
    simpa using hbefore
  · refine List.forall_mem_map.mpr ?_
    simpa using hafter

/-- A track has an event of a kind that channels do not matter for if one is emitted. -/
theorem Track.Arranges.exists_mem_iff {t : Track} {p : Event → Bool}
    (ht : t.Arranges (events.map (Event.onChannel channel)))
    (hp : ∀ e, p (e.onChannel channel) = p e) :
    (∃ e ∈ t.events, p e) ↔ ∃ e ∈ events, p e := by
  constructor
  · rintro ⟨e, he, hkind⟩
    obtain ⟨emitted, hemitted, rfl⟩ := List.mem_map.mp (ht.perm.subset he)
    rw [hp] at hkind
    exact ⟨emitted, hemitted, hkind⟩
  · rintro ⟨emitted, hemitted, hkind⟩
    rw [← hp] at hkind
    exact ⟨_, ht.perm.symm.subset (List.mem_map_of_mem hemitted), hkind⟩

/-- **Ordering.** The setup is at tick zero, where events keep their order, and what is at tick
zero comes before everything else. -/
theorem Track.Arranges.setsRangeOnce {t : Track} (ht : t.Arranges events)
    (h : SetsRangeOnce channel events) : SetsRangeOnce channel t.events := by
  obtain ⟨before, after, rfl, hbefore, hafter⟩ := h
  have hsetup : ((rangeSetup channel).filter fun e => e.tick = 0) = rangeSetup channel := rfl
  have hzero := ht.stable 0
  rw [List.filter_append, List.filter_append, hsetup] at hzero
  have hsplit := ht.ordered.filter_zero_append
  rw [hzero, List.append_assoc] at hsplit
  refine ⟨_, _, hsplit.symm, ?_, ?_⟩
  · intro e he
    exact hbefore e (List.mem_of_mem_filter he)
  · refine List.forall_mem_append.mpr ⟨?_, ?_⟩
    · intro e he
      exact hafter e (List.mem_of_mem_filter he)
    · intro e he
      obtain ⟨hmem, htick⟩ := List.mem_filter.mp he
      have hlater : e.tick ≠ 0 := by simpa using htick
      rcases List.mem_append.mp (ht.perm.subset hmem) with hearly | hlate
      · rcases List.mem_append.mp hearly with hfront | hset
        · exact (hbefore e hfront).2
        · -- The setup itself is at tick zero.
          have hall : ∀ e ∈ rangeSetup channel, e.tick = 0 := by simp [rangeSetup]
          exact absurd (hall e hset) hlater
      · exact hafter e hlate

end Placing

/-! ### Runs -/

namespace Dse

/-- Whether the instruction is a pitch bend. -/
def Instruction.isBend : Instruction → Bool
  | pitchBend .. => true
  | _ => false

/-- Bends are told by their opcode. -/
theorem Instruction.WellFormed.isBend_iff {i : Instruction} (h : i.WellFormed) :
    i.isBend ↔ i.bytes.head? = some 0xD7 := by
  cases i with
  | note velocity arg lengthBytes =>
    have hvelocity : velocity ≠ 0xD7 := by
      rintro rfl
      exact absurd h.1 (by decide)
    simp [isBend, bytes, hvelocity]
  | fixedDelay index =>
    revert index
    decide
  | controller dial value => cases dial <;> simp [isBend, bytes, Dial.opcode]
  | verbatim opcode args =>
    have hopcode : opcode ≠ 0xD7 := by
      rintro rfl
      have hoperation : Operation.ofOpcode 0xD7 = .verbatim args.length := h
      cases hoperation
    simp [isBend, bytes, hopcode]
  | _ => simp [isBend, bytes]

/-- Some word begins with the opcode of a bend. -/
def HasBend (words : List Bytes) : Prop :=
  ∃ w ∈ words, w.head? = some 0xD7

theorem any_isBend_iff {is : List Instruction} (h : ∀ i ∈ is, i.WellFormed) :
    is.any Instruction.isBend ↔ HasBend (is.map Instruction.bytes) := by
  rw [List.any_eq_true]
  constructor
  · rintro ⟨i, hi, hbend⟩
    exact ⟨i.bytes, List.mem_map_of_mem hi, (h i hi).isBend_iff.mp hbend⟩
  · rintro ⟨w, hw, hhead⟩
    obtain ⟨i, hi, rfl⟩ := List.mem_map.mp hw
    exact ⟨i, hi, (h i hi).isBend_iff.mpr hhead⟩

section Runs

variable {ctx : Context} {offset : Nat} {s : State} {is : List Instruction}

/-- **One step.** Only a bend bends or sets the range. -/
theorem Context.not_bend_of_mem_events {i : Instruction} (hi : i.isBend = false) {e : Event}
    (h : e ∈ ctx.events s i) : e.isBend = false ∧ e.setsRange = false := by
  cases i with
  | note velocity arg lengthBytes =>
    obtain ⟨key, -, rfl | rfl⟩ := events_note_inv h
    · exact ⟨rfl, rfl⟩
    · exact ⟨rfl, rfl⟩
  | tempo bpm =>
    obtain ⟨micros, -, rfl⟩ := events_tempo_inv h
    exact ⟨rfl, rfl⟩
  | pitchBend high low => cases hi
  | controller dial value =>
    obtain rfl := List.mem_singleton.mp h
    exact ⟨rfl, decide_eq_false dial.controller_not_mem⟩
  | loopStart | program _ | verbatim _ _ =>
    obtain rfl := List.mem_singleton.mp h
    exact ⟨rfl, rfl⟩
  | fixedDelay _ | repeatDelay | addDelay _ | delay8 _ | delay16 _ _ | setOctave _ => cases h

/-- A bend is remembered, and nothing is forgotten. -/
theorem State.bendReady_after (s : State) (i : Instruction) :
    (s.after i).bendReady = (s.bendReady || i.isBend) := by
  cases i with
  | pitchBend high low => exact (Bool.or_true _).symm
  | _ => exact (Bool.or_false _).symm

theorem State.bendReady_foldl_after (s : State) (is : List Instruction) :
    (is.foldl State.after s).bendReady = (s.bendReady || is.any Instruction.isBend) := by
  induction is generalizing s with
  | nil => exact (Bool.or_false _).symm
  | cons i is ih => rw [List.foldl_cons, ih, bendReady_after, List.any_cons, Bool.or_assoc]

/-- The events of a bend: the setup, unless the range is set already, and the bend. -/
theorem Context.exists_events_eq_of_isBend (ctx : Context) (s : State) {i : Instruction}
    (h : i.isBend) :
    ∃ bend : Event, bend.isBend ∧ bend.setsRange = false ∧
      ctx.events s i = (if s.bendReady then [] else rangeSetup ctx.channel) ++ [bend] := by
  cases i with
  | pitchBend high low => exact ⟨_, rfl, rfl, rfl⟩
  | _ => cases h

/-- **Whole runs.** A run bends exactly if it has a bend. -/
theorem Context.exists_isBend_mem_play_iff :
    (∃ e ∈ (ctx.play offset s is).events, e.isBend) ↔ is.any Instruction.isBend := by
  induction is generalizing offset s with
  | nil => simp
  | cons i is ih =>
    have hstep : (∃ e ∈ ctx.events s i, e.isBend) ↔ i.isBend := by
      constructor
      · rintro ⟨e, he, hbend⟩
        cases hi : i.isBend with
        | true => rfl
        | false =>
          rw [(not_bend_of_mem_events hi he).1] at hbend
          cases hbend
      · intro hi
        obtain ⟨bend, hbend, -, hevents⟩ := ctx.exists_events_eq_of_isBend s hi
        exact ⟨bend, by simp [hevents], hbend⟩
    simp only [play_cons, List.mem_append, or_and_right, exists_or, hstep, ih, List.any_cons,
      Bool.or_eq_true]

/-- A run that has the range set already, or has no bend, does not set it. -/
theorem Context.not_setsRange_of_mem_play (h : s.bendReady ∨ is.any Instruction.isBend = false)
    {e : Event} (he : e ∈ (ctx.play offset s is).events) : e.setsRange = false := by
  induction is generalizing offset s with
  | nil => cases he
  | cons i is ih =>
    rw [List.any_cons, Bool.or_eq_false_iff] at h
    rw [play_cons] at he
    rcases List.mem_append.mp he with here | hlater
    · cases hi : i.isBend with
      | false => exact (not_bend_of_mem_events hi here).2
      | true =>
        obtain ⟨bend, -, hbend, hevents⟩ := ctx.exists_events_eq_of_isBend s hi
        have hready : s.bendReady := by
          rcases h with hready | ⟨hnone, -⟩
          · exact hready
          · rw [hi] at hnone
            cases hnone
        rw [hevents, if_pos hready, List.nil_append, List.mem_singleton] at here
        rw [here, hbend]
    · refine ih ?_ hlater
      rw [State.bendReady_after]
      rcases h with hready | ⟨-, hnone⟩
      · exact Or.inl (by rw [hready, Bool.true_or])
      · exact Or.inr hnone

/-- A run with a bend that has the range not set yet sets it once. -/
theorem Context.setsRangeOnce_play (hready : s.bendReady = false)
    (h : is.any Instruction.isBend) :
    SetsRangeOnce ctx.channel (ctx.play offset s is).events := by
  induction is generalizing offset s with
  | nil => cases h
  | cons i is ih =>
    rw [play_cons]
    cases hi : i.isBend with
    | false =>
      refine SetsRangeOnce.append_left ?_ fun e he => not_bend_of_mem_events hi he
      rw [List.any_cons, hi, Bool.false_or] at h
      exact ih (by rw [State.bendReady_after, hready, hi]; rfl) h
    | true =>
      obtain ⟨bend, -, hbend, hevents⟩ := ctx.exists_events_eq_of_isBend s hi
      -- Here the range is set, and behind this bend nothing sets it again.
      have hbehind : (s.after i).bendReady := by rw [State.bendReady_after, hi, Bool.or_true]
      refine SetsRangeOnce.append_right ?_ fun e he => not_setsRange_of_mem_play (.inl hbehind) he
      refine ⟨[], [bend], by simp [hevents, hready], by simp, by simpa using hbend⟩

/-! ### Whole tracks -/

/-- The title of a track neither bends nor sets the range. -/
theorem not_bend_of_mem_titleEvents {name : String} {index : Nat} {e : Event}
    (h : e ∈ titleEvents name index) : e.isBend = false ∧ e.setsRange = false := by
  obtain rfl := eq_of_mem_titleEvents h
  exact ⟨rfl, rfl⟩

/-- Nor does the mark at its end. -/
theorem Context.exists_isBend_mem_decoded_iff :
    (∃ e ∈ (ctx.decoded offset s is).events, e.isBend) ↔ is.any Instruction.isBend := by
  have hmark : ∀ tick, (Event.ofMeta tick (.text endMarker)).isBend = false := fun _ => rfl
  rw [← @exists_isBend_mem_play_iff ctx offset s, decoded]
  simp only [List.mem_append, List.mem_singleton, or_and_right, exists_or, exists_eq_left, hmark,
    Bool.false_eq_true, or_false]

theorem Context.not_setsRange_of_mem_decoded
    (h : s.bendReady ∨ is.any Instruction.isBend = false) {e : Event}
    (he : e ∈ (ctx.decoded offset s is).events) : e.setsRange = false := by
  rcases List.mem_append.mp he with hplay | hmark
  · exact not_setsRange_of_mem_play h hplay
  · obtain rfl := List.mem_singleton.mp hmark
    rfl

theorem Context.setsRangeOnce_decoded (hready : s.bendReady = false)
    (h : is.any Instruction.isBend) :
    SetsRangeOnce ctx.channel (ctx.decoded offset s is).events := by
  refine (setsRangeOnce_play hready h).append_right ?_
  intro e he
  obtain rfl := List.mem_singleton.mp he
  rfl

/-- What a track sets, from any state: the range, if it bends and the range is not set. -/
theorem Chunk.decode_bendRange {chunk : Chunk} {data : Bytes} {track : Nat} {tables : SideTables}
    {state : State} {d : Decoded} (h : chunk.decode data track tables state = .ok d) :
    ∃ words, Spells (data.drop chunk.streamStart) words endOpcode ∧
      ((∃ e ∈ d.events, e.isBend) ↔ HasBend words) ∧
      (HasBend words ∧ state.bendReady = false → SetsRangeOnce (UInt8.ofNat track) d.events) ∧
      (¬ (HasBend words ∧ state.bendReady = false) → ∀ e ∈ d.events, e.setsRange = false) ∧
      (d.state.bendReady ↔ state.bendReady ∨ HasBend words) := by
  obtain ⟨is, rest, hlist, rfl⟩ := Chunk.decode_inv h
  have hspells := Listing.spells_of_ending (data.drop chunk.streamStart)
  rw [hlist] at hspells
  refine ⟨is.map Instruction.bytes, hspells, ?_⟩
  rw [← any_isBend_iff (Listing.wellFormed_of_eq hlist)]
  refine ⟨Context.exists_isBend_mem_decoded_iff, ?_, ?_, ?_⟩
  · rintro ⟨hbend, hready⟩
    exact Context.setsRangeOnce_decoded hready hbend
  · intro hnot e he
    refine Context.not_setsRange_of_mem_decoded ?_ he
    cases hready : state.bendReady with
    | true => exact Or.inl rfl
    | false =>
      refine Or.inr (Bool.eq_false_iff.mpr ?_)
      intro hbend
      exact hnot ⟨hbend, hready⟩
  · rw [Context.decoded, Context.state_play, State.bendReady_foldl_after, Bool.or_eq_true]

/-- What a loaded track sets: the range, if it bends. -/
theorem Chunk.Plays.bendRange {tables : SideTables} {data : Bytes} {name : String} {chunk : Chunk}
    {index : Nat} {t : Track} (h : chunk.Plays tables data name index t) :
    ((∃ e ∈ t.events, e.isBend) → SetsRangeOnce t.channel t.events) ∧
      ((∀ e ∈ t.events, e.isBend = false) → ∀ e ∈ t.events, e.setsRange = false) := by
  obtain ⟨is, -, harranges⟩ := h.arranges
  have htitle : ∀ e ∈ titleEvents name index, e.isBend = false ∧ e.setsRange = false :=
    fun _ => not_bend_of_mem_titleEvents
  -- Whether a track bends is a matter of its instructions.
  have hbends : (∃ e ∈ t.events, e.isBend) ↔ is.any Instruction.isBend := by
    rw [harranges.exists_mem_iff (Event.isBend_onChannel t.channel),
      ← @Context.exists_isBend_mem_decoded_iff ⟨tables, index⟩ chunk.streamStart .initial]
    constructor
    · rintro ⟨e, he, hbend⟩
      rcases List.mem_append.mp he with he | he
      · rw [(htitle e he).1] at hbend
        cases hbend
      · exact ⟨e, he, hbend⟩
    · rintro ⟨e, he, hbend⟩
      exact ⟨e, List.mem_append_right _ he, hbend⟩
  cases hany : is.any Instruction.isBend with
  | true =>
    have hdecoded : SetsRangeOnce (Context.channel ⟨tables, index⟩)
        (Context.decoded ⟨tables, index⟩ chunk.streamStart .initial is).events :=
      Context.setsRangeOnce_decoded rfl hany
    have htitled := (hdecoded.append_left htitle).map_onChannel t.channel
    refine ⟨fun _ => harranges.setsRangeOnce htitled, ?_⟩
    intro hnone
    obtain ⟨bend, hmem, hbend⟩ := hbends.mpr hany
    rw [hnone bend hmem] at hbend
    cases hbend
  | false =>
    constructor
    · intro hbend
      rw [hbends, hany] at hbend
      cases hbend
    · intro _ e he
      obtain ⟨emitted, hemitted, rfl⟩ := List.mem_map.mp (harranges.perm.subset he)
      rw [Event.setsRange_onChannel]
      rcases List.mem_append.mp hemitted with hemitted | hemitted
      · exact (htitle emitted hemitted).2
      · exact Context.not_setsRange_of_mem_decoded (.inr hany) hemitted

end Runs

end Dse

/-- **The bend range.** A loaded track that bends holds the four controllers that set the range
once and next to each other, at tick zero and in front of all its bends, and no other event of it
is of one of these controllers. A loaded track that does not bend has none of them.

A track that is decoded from any state sets the range exactly if its stream has a bend and the
state does not have it set yet. Behind the track it is set if it was before or the stream has a
bend. -/
theorem load_bendRange (tables : SideTables) (data : Bytes) :
    (∀ loaded, load tables data = .ok loaded → ∀ t ∈ loaded.sequence.tracks,
      ((∃ e ∈ t.events, e.isBend) → SetsRangeOnce t.channel t.events) ∧
      ((∀ e ∈ t.events, e.isBend = false) → ∀ e ∈ t.events, e.setsRange = false)) ∧
    ∀ (chunk : Dse.Chunk) (track : Nat) (state : Dse.State) (d : Dse.Decoded),
      chunk.decode data track tables state = .ok d →
      ∃ words, Dse.Spells (data.drop chunk.streamStart) words Dse.endOpcode ∧
        ((∃ e ∈ d.events, e.isBend) ↔ Dse.HasBend words) ∧
        (Dse.HasBend words ∧ state.bendReady = false →
          SetsRangeOnce (UInt8.ofNat track) d.events) ∧
        (¬ (Dse.HasBend words ∧ state.bendReady = false) →
          ∀ e ∈ d.events, e.setsRange = false) ∧
        (d.state.bendReady ↔ state.bendReady ∨ Dse.HasBend words) := by
  constructor
  · intro loaded h t ht
    obtain ⟨header, -, -, -, htracks⟩ := load_inv h
    obtain ⟨p, -, hplays⟩ := exists_mem_of_forall₂ htracks ht
    exact hplays.bendRange
  · intro chunk track state d h
    exact Dse.Chunk.decode_bendRange h

/-- The bend is at tick 8 behind two events of tick 0, and the range is set right behind these. -/
theorem load_bendRange_crossedStream :
    ∃ loaded t, load .default (singleTrackFile crossedStream) = .ok loaded ∧
      loaded.sequence.tracks = [t] ∧ (∃ e ∈ t.events, e.isBend) ∧
      SetsRangeOnce t.channel t.events ∧
      ∃ d, (⟨0x80, 0x90, (crossedStream.length + 4) % 2 ^ 32⟩ : Dse.Chunk).decode
          (singleTrackFile crossedStream) 0 .default .initial = .ok d ∧
        SetsRangeOnce 0 d.events ∧ d.state.bendReady := by
  have hload := load_singleTrackFile .default ofBytes_crossedStream
  have hdecode := decode_singleTrackFile .default ofBytes_crossedStream
  obtain ⟨htracks, hchunks⟩ := load_bendRange .default (singleTrackFile crossedStream)
  obtain ⟨words, -, hbends, honce, -, hready⟩ := hchunks _ 0 .initial _ hdecode
  have hdecoded : ∃ e ∈ (Dse.Context.decoded ⟨.default, 0⟩ 0x94 .initial crossedNotes).events,
      e.isBend := by
    decide
  obtain ⟨channel, hchannels⟩ := allocateChannels_singleton
    ((Dse.Context.decoded ⟨.default, 0⟩ 0x94 .initial crossedNotes).toTrack "" 0)
  obtain ⟨bend, hmem, hbend⟩ := hdecoded
  have hplayed : ∃ e ∈ (((Dse.Context.decoded ⟨.default, 0⟩ 0x94 .initial
      crossedNotes).toTrack "" 0).onChannel channel).events, e.isBend := by
    refine ⟨bend.onChannel channel, List.mem_map_of_mem ?_, by rwa [Event.isBend_onChannel]⟩
    rw [Dse.Decoded.toTrack_eq, (Track.sort_events_perm _).mem_iff]
    exact List.mem_append_right _ hmem
  have hword := hbends.mp ⟨bend, hmem, hbend⟩
  have hsets := htracks _ hload _ (by rw [hchannels]; exact List.mem_singleton_self _)
  exact ⟨_, _, hload, hchannels, hplayed, hsets.1 hplayed, _, hdecode, honce ⟨hword, rfl⟩,
    hready.mpr (.inr hword)⟩

end DseMidi
