import DseMidi.Proofs.ChannelAllocation
import DseMidi.Proofs.Loading
import DseMidi.Proofs.Smf.Reading

/-!
# DseMidi.Proofs.Percussion

**Which tracks are percussion.** The player and the choice of channels tell it in different
ways. The player looks the keys of notes up in the drum table while the stream has the
percussion program selected. The choice of channels asks whether an event of the track selects
that program, and these events hold programs as the program table gives them.

A selection is an instruction of the stream for both of them: it is the only one that leaves
an event with a program (`Context.exists_programChange_mem_play_iff`) and the only one that
changes the selected program (`State.exists_of_program_foldl_after`). So they agree on every
track if the program table maps the percussion program to itself and no other program to it,
and need not agree otherwise (`load_percussion`).
-/

namespace DseMidi

namespace Dse

/-! ### Instructions and their bytes -/

/-- Instructions whose operands belong to their opcodes are told apart by their bytes. -/
theorem Instruction.WellFormed.eq_of_bytes_eq {i j : Instruction} (hi : i.WellFormed)
    (hj : j.WellFormed) (h : i.bytes = j.bytes) : i = j := by
  have hfront := hi.front_ofBytes []
  rw [h, hj.front_ofBytes []] at hfront
  exact (Front.instruction.inj hfront).1.symm

theorem program_mem_iff {is : List Instruction} (his : ∀ i ∈ is, i.WellFormed)
    (number : UInt8) :
    .program number ∈ is ↔ [0xAC, number] ∈ is.map Instruction.bytes := by
  constructor
  · intro h
    exact List.mem_map_of_mem h
  · intro h
    obtain ⟨i, hi, hbytes⟩ := List.mem_map.mp h
    have hprogram : (Instruction.program number).WellFormed := trivial
    rwa [← (his i hi).eq_of_bytes_eq hprogram hbytes]

/-! ### Events with a program -/

section Events

variable {ctx : Context} {offset : Nat} {s : State} {is : List Instruction} {program : UInt8}

/-- **One step.** A selection of a program is the only instruction with such an event. -/
theorem Context.exists_programChange_mem_events_iff {i : Instruction} :
    (∃ e ∈ ctx.events s i, e.message = .programChange program) ↔
      ∃ number, i = .program number ∧ ctx.tables.programFor (number &&& 0x7F) = program := by
  constructor
  · rintro ⟨e, he, hmessage⟩
    cases i with
    | program number =>
      obtain rfl := List.mem_singleton.mp he
      exact ⟨number, rfl, by simpa using hmessage⟩
    | note velocity arg lengthBytes =>
      obtain ⟨key, -, rfl | rfl⟩ := events_note_inv he
      · cases hmessage
      · cases hmessage
    | tempo bpm =>
      obtain ⟨micros, -, rfl⟩ := events_tempo_inv he
      cases hmessage
    | pitchBend high low =>
      rcases events_pitchBend_inv he with ⟨-, hrange⟩ | ⟨lsb, msb, rfl⟩
      · obtain ⟨-, number, -, value, hcontroller⟩ := bendRangeEvents_inv hrange
        rw [hcontroller] at hmessage
        cases hmessage
      · cases hmessage
    | loopStart | controller _ _ | verbatim _ _ =>
      obtain rfl := List.mem_singleton.mp he
      cases hmessage
    | fixedDelay _ | repeatDelay | addDelay _ | delay8 _ | delay16 _ _ | setOctave _ => cases he
  · rintro ⟨number, rfl, rfl⟩
    exact ⟨_, List.mem_singleton_self _, rfl⟩

/-- **A whole run.** The programs of its events are those that the table gives for the ones it
selects. -/
theorem Context.exists_programChange_mem_play_iff :
    (∃ e ∈ (ctx.play offset s is).events, e.message = .programChange program) ↔
      ∃ number, .program number ∈ is ∧ ctx.tables.programFor (number &&& 0x7F) = program := by
  induction is generalizing offset s with
  | nil => simp
  | cons i is ih =>
    simp only [play_cons, List.mem_append, or_and_right, exists_or, List.mem_cons,
      exists_programChange_mem_events_iff, ih, eq_comm (a := i)]

end Events

/-! ### The selected program -/

/-- Another instruction leaves the selected program as it is. -/
theorem State.program_after (s : State) (i : Instruction) :
    (s.after i).program = s.program ∨
      ∃ number, i = .program number ∧ (s.after i).program = number &&& 0x7F := by
  cases i with
  | program number => exact Or.inr ⟨number, rfl, rfl⟩
  | _ => exact Or.inl rfl

/-- The selected program is the first one, or an instruction of the run selects it. -/
theorem State.exists_of_program_foldl_after {s : State} {is : List Instruction}
    (h : (is.foldl State.after s).program ≠ s.program) :
    ∃ number, .program number ∈ is ∧
      number &&& 0x7F = (is.foldl State.after s).program := by
  induction is generalizing s with
  | nil => exact absurd rfl h
  | cons i is ih =>
    rw [List.foldl_cons] at h ⊢
    by_cases hrest : (is.foldl State.after (s.after i)).program = (s.after i).program
    · rw [hrest] at h ⊢
      rcases s.program_after i with hsame | ⟨number, rfl, hnumber⟩
      · exact absurd hsame h
      · exact ⟨number, List.mem_cons_self, hnumber.symm⟩
    · obtain ⟨number, hmem, hnumber⟩ := ih hrest
      exact ⟨number, List.mem_cons_of_mem _ hmem, hnumber⟩

/-- Some note of the run sounds, and its key was looked up in the drum table: it is played
while the percussion program is selected. -/
def Context.SoundsPercussion (ctx : Context) (s : State) (is : List Instruction) : Prop :=
  ∃ before velocity arg lengthBytes after,
    is = before ++ .note velocity arg lengthBytes :: after ∧
    ((before.foldl State.after s).afterNote arg lengthBytes).program = percussionProgram ∧
    (ctx.soundingKey? ((before.foldl State.after s).afterNote arg lengthBytes) arg).isSome

/-- A track that sounds percussion has selected it. -/
theorem Context.SoundsPercussion.exists_program {ctx : Context} {is : List Instruction}
    (h : ctx.SoundsPercussion .initial is) :
    ∃ number, .program number ∈ is ∧ number &&& 0x7F = percussionProgram := by
  obtain ⟨before, velocity, arg, lengthBytes, after, rfl, hprogram, -⟩ := h
  have hselected : (before.foldl State.after .initial).program = percussionProgram := hprogram
  have hchanged : (before.foldl State.after .initial).program ≠ State.initial.program := by
    rw [hselected]
    decide
  obtain ⟨number, hmem, hnumber⟩ := State.exists_of_program_foldl_after hchanged
  exact ⟨number, List.mem_append_left _ hmem, hnumber.trans hselected⟩

/-- A loaded track is a percussion track exactly if the program table gives the percussion
program for some program that its stream selects. -/
theorem Chunk.Plays.isPercussion_iff {tables : SideTables} {data : Bytes} {name : String}
    {chunk : Chunk} {index : Nat} {t : Track} (h : chunk.Plays tables data name index t) :
    ∃ is rest, Listing.ofBytes (data.drop chunk.streamStart) = ⟨is, .complete rest⟩ ∧
      (t.isPercussion ↔ ∃ number, .program number ∈ is ∧
        tables.programFor (number &&& 0x7F) = percussionProgram) := by
  obtain ⟨is, rest, hlist, hmem⟩ := h.mem_events_iff
  refine ⟨is, rest, hlist, ?_⟩
  have hplay : (∃ e ∈ (Context.play ⟨tables, index⟩ chunk.streamStart .initial is).events,
      e.message = .programChange percussionProgram) ↔
        ∃ number, .program number ∈ is ∧
          tables.programFor (number &&& 0x7F) = percussionProgram :=
    Context.exists_programChange_mem_play_iff
  rw [← hplay, Track.isPercussion, Track.selectsProgram, List.any_eq_true]
  simp only [decide_eq_true_iff]
  constructor
  · rintro ⟨e, he, hmessage⟩
    obtain ⟨emitted, rfl, hemitted⟩ := (hmem e).mp he
    rw [Event.onChannel_message] at hmessage
    rcases hemitted with htitle | hplayed | rfl
    · rw [eq_of_mem_titleEvents htitle] at hmessage
      cases hmessage
    · exact ⟨emitted, hplayed, hmessage⟩
    · cases hmessage
  · rintro ⟨emitted, hplayed, hmessage⟩
    have he := (hmem (emitted.onChannel t.channel)).mpr ⟨emitted, rfl, Or.inr (Or.inl hplayed)⟩
    exact ⟨_, he, by rw [Event.onChannel_message, hmessage]⟩

end Dse

/-! ### Loaded tracks -/

/-- The channel of a loaded track says how many of those in front of it keep theirs. -/
theorem channel_of_getElem?_load {tables : SideTables} {data : Bytes} {loaded : Loaded}
    (h : load tables data = .ok loaded) {k : Nat} {t : Track}
    (ht : loaded.sequence.tracks[k]? = some t) :
    t.channel =
      t.channelBehind ((loaded.sequence.tracks.take k).countP Track.keepsChannel) := by
  obtain ⟨header, -, h⟩ := bind_eq_ok_iff.mp h
  obtain ⟨tracks, -, h⟩ := bind_eq_ok_iff.mp h
  cases h
  exact channel_of_getElem?_allocateChannels ht

/-- The percussion channel is kept for percussion tracks, and they are all on it. -/
theorem channel_eq_percussionChannel_iff {tables : SideTables} {data : Bytes} {loaded : Loaded}
    (h : load tables data = .ok loaded) {t : Track} (ht : t ∈ loaded.sequence.tracks) :
    t.channel = percussionChannel ↔ t.isPercussion := by
  obtain ⟨k, hk⟩ := List.mem_iff_getElem?.mp ht
  rw [channel_of_getElem?_load h hk]
  exact t.channelBehind_eq_percussionChannel_iff _

/-- **Percussion in loaded tracks.** The percussion channel is for the tracks whose streams
select a program that the table gives as the percussion program. A track that sounds
percussion is among them if the table keeps the percussion program, and a track that never
selects the percussion program is not if no other program is given as that. -/
theorem load_percussion {tables : SideTables} {data : Bytes} {loaded : Loaded}
    (h : load tables data = .ok loaded) :
    ∃ header, Dse.Header.read data = .ok header ∧
      List.Forall₂ (fun (p : Dse.Chunk × Nat) (t : Track) => ∃ is rest,
          Dse.Listing.ofBytes (data.drop p.1.streamStart) = ⟨is, .complete rest⟩ ∧
          (t.channel = percussionChannel ↔ t.isPercussion) ∧
          (t.isPercussion ↔ ∃ number, [0xAC, number] ∈ is.map Dse.Instruction.bytes ∧
            tables.programFor (number &&& 0x7F) = percussionProgram) ∧
          (tables.programFor percussionProgram = percussionProgram →
            Dse.Context.SoundsPercussion ⟨tables, p.2⟩ .initial is →
              t.isPercussion ∧ t.channel = percussionChannel) ∧
          ((∀ program < 0x80, tables.programFor program = percussionProgram →
              program = percussionProgram) →
            (∀ number, [0xAC, number] ∈ is.map Dse.Instruction.bytes →
              number &&& 0x7F ≠ percussionProgram) →
            t.channel ≠ percussionChannel))
        header.tracks.zipIdx loaded.sequence.tracks := by
  obtain ⟨header, hheader, -, -, htracks⟩ := load_inv h
  refine ⟨header, hheader, (forall₂_and_mem_right htracks).imp ?_⟩
  intro p t ⟨hplays, ht⟩
  have hchannel := channel_eq_percussionChannel_iff h ht
  obtain ⟨is, rest, hlist, hpercussion⟩ := hplays.isPercussion_iff
  have hwell := Dse.Listing.wellFormed_of_eq hlist
  simp only [Dse.program_mem_iff hwell] at hpercussion
  refine ⟨is, rest, hlist, hchannel, hpercussion, ?_, ?_⟩
  · intro hkept hsounds
    obtain ⟨number, hmem, hnumber⟩ := hsounds.exists_program
    have hselected : t.isPercussion := by
      refine hpercussion.mpr ⟨number, (Dse.program_mem_iff hwell number).mp hmem, ?_⟩
      rw [hnumber, hkept]
    exact ⟨hselected, hchannel.mpr hselected⟩
  · intro honly hnever hon
    obtain ⟨number, hmem, hgiven⟩ := hpercussion.mp (hchannel.mp hon)
    exact hnever number hmem (honly _ (Smf.dataByte_lt number) hgiven)

/-- Tables that exchange the percussion program and program zero. -/
def swappedTables : SideTables :=
  { SideTables.default with
    programs := Vector.ofFn fun i =>
      if i.val = 0 then 127 else if i.val = 127 then 0 else UInt8.ofNat i.val }

/-- A selection of a program, an octave and a note. -/
def selectedNote (number : UInt8) : List Dse.Instruction :=
  [.program number, .setOctave 5, .note 100 0x60 [8]]

/-- A stream with a selection of a program and a note. -/
def selectedNoteStream (number : UInt8) : Bytes :=
  Dse.streamBytes (selectedNote number) ++ [Dse.endOpcode]

/-- With these tables, a track that sounds percussion is not on the percussion channel, and a
track that never selects the percussion program is. -/
theorem load_percussion_swappedTables :
    (∃ loaded t, load swappedTables (singleTrackFile (selectedNoteStream 127)) = .ok loaded ∧
      loaded.sequence.tracks = [t] ∧
      Dse.Context.SoundsPercussion ⟨swappedTables, 0⟩ .initial (selectedNote 127) ∧
      t.channel ≠ percussionChannel) ∧
    ∃ loaded t, load swappedTables (singleTrackFile (selectedNoteStream 0)) = .ok loaded ∧
      loaded.sequence.tracks = [t] ∧
      (∀ number, [0xAC, number] ∈ (selectedNote 0).map Dse.Instruction.bytes →
        number &&& 0x7F ≠ percussionProgram) ∧
      t.channel = percussionChannel := by
  have hloaded : ∀ number, ∃ loaded t,
      load swappedTables (singleTrackFile (selectedNoteStream number)) = .ok loaded ∧
      loaded.sequence.tracks = [t] ∧
      (t.channel = percussionChannel ↔
        swappedTables.programFor (number &&& 0x7F) = percussionProgram) := by
    intro number
    have hwell : ∀ i ∈ selectedNote number, i.WellFormed := by
      simp [selectedNote, Dse.Instruction.WellFormed]
      decide
    have hstream : Dse.Listing.ofBytes (selectedNoteStream number) =
        ⟨selectedNote number, .complete []⟩ :=
      Dse.Listing.ofBytes_streamBytes hwell []
    have hload := load_singleTrackFile swappedTables hstream
    obtain ⟨header, hheader, htracks⟩ := load_percussion hload
    rw [read_singleTrackFile] at hheader
    cases hheader
    obtain ⟨t, tracks, ⟨is, rest, hlist, hchannel, hpercussion, -, -⟩, hnil, htrack⟩ :=
      List.forall₂_cons_left_iff.mp htracks
    obtain rfl := List.forall₂_nil_left_iff.mp hnil
    rw [← drop_singleTrackFile (selectedNoteStream number)] at hstream
    cases hstream.symm.trans hlist
    refine ⟨_, t, hload, htrack, hchannel.trans (hpercussion.trans ?_)⟩
    simp [selectedNote, Dse.Instruction.bytes]
  obtain ⟨loaded, t, hload, htrack, hchannel⟩ := hloaded 127
  obtain ⟨loaded', t', hload', htrack', hchannel'⟩ := hloaded 0
  refine ⟨⟨loaded, t, hload, htrack, ?_, ?_⟩, loaded', t', hload', htrack', ?_, ?_⟩
  · exact ⟨[.program 127, .setOctave 5], 100, 0x60, [8], [], rfl, rfl, by decide⟩
  · intro hon
    exact absurd (hchannel.mp hon) (by decide)
  · simp [selectedNote, Dse.Instruction.bytes, percussionProgram]
  · exact hchannel'.mpr (by decide)

end DseMidi
