import Mathlib.Data.List.Infix
import DseMidi.Proofs.Arrangement

/-!
# DseMidi.Proofs.Notes

**No note hangs.** An instruction emits the two ends of a note one behind the other and not the
second before the first in time, so ordering the track never moves them past each other. The
events of a track are added from the back, as `Track.exists_sort_cons` inserts them into what
is already in order: an event that is neither end of a note leaves the count of sounding notes
as it is, and the two ends of one raise it between them (`NotesBalanced.insert_note`). So the
count never falls below zero and is zero at the end, whatever other notes of the key overlap.
-/

namespace DseMidi

/-! ### Counting -/

/-- The key of the note that the message starts or ends. -/
def Message.noteKey? : Message → Option UInt8
  | noteOn key _ | noteOff key _ => some key
  | _ => none

/-- Whether the event starts a note of the key. -/
def Event.startsNote (key : UInt8) (e : Event) : Bool :=
  match e.message with
  | .noteOn k _ => k = key
  | _ => false

/-- Whether the event ends a note of the key. -/
def Event.endsNote (key : UInt8) (e : Event) : Bool :=
  match e.message with
  | .noteOff k _ => k = key
  | _ => false

/-- What the event adds to the notes of the key that sound. -/
def Event.soundingChange (key : UInt8) (e : Event) : Int :=
  (if e.startsNote key then 1 else 0) - (if e.endsNote key then 1 else 0)

/-- The event is neither the start nor the end of a note. -/
def Event.Silent (e : Event) : Prop :=
  e.message.noteKey? = none

theorem Message.isChannelVoice_of_noteKey? {m : Message} {key : UInt8}
    (h : m.noteKey? = some key) : m.isChannelVoice := by
  cases m with
  | noteOn _ _ | noteOff _ _ => rfl
  | _ => cases h

/-- The notes of the key that the events start and do not end. -/
def sounding (key : UInt8) (events : List Event) : Int :=
  events.countP (Event.startsNote key) - events.countP (Event.endsNote key)

section Counting

variable {key : UInt8}

@[simp] theorem sounding_nil : sounding key [] = 0 := rfl

@[simp] theorem sounding_cons (e : Event) (events : List Event) :
    sounding key (e :: events) = e.soundingChange key + sounding key events := by
  simp only [sounding, Event.soundingChange, List.countP_cons]
  split <;> split <;> push_cast <;> omega

@[simp] theorem sounding_append (events more : List Event) :
    sounding key (events ++ more) = sounding key events + sounding key more := by
  simp only [sounding, List.countP_append]
  push_cast
  omega

@[simp] theorem Event.startsNote_onChannel (channel : UInt8) (e : Event) :
    (e.onChannel channel).startsNote key = e.startsNote key := by
  simp [startsNote]

@[simp] theorem Event.endsNote_onChannel (channel : UInt8) (e : Event) :
    (e.onChannel channel).endsNote key = e.endsNote key := by
  simp [endsNote]

theorem sounding_map_onChannel (channel : UInt8) (events : List Event) :
    sounding key (events.map (Event.onChannel channel)) = sounding key events := by
  simp [sounding, List.countP_map, Function.comp_def]

/-- A silent event changes nothing. -/
theorem Event.Silent.soundingChange {e : Event} (h : e.Silent) : e.soundingChange key = 0 := by
  rcases e with ⟨tick, channel, message⟩
  cases message with
  | noteOn _ _ | noteOff _ _ => cases h
  | _ => rfl

end Counting

/-! ### Balance -/

/-- With `before` notes of the key sounding at first, no part of the events ends more notes
than sound. -/
def Covered (key : UInt8) (before : Int) (events : List Event) : Prop :=
  ∀ p, p <+: events → 0 ≤ before + sounding key p

/-- The events end no note of the key before they start it, and end all of them. -/
structure NotesBalanced (key : UInt8) (events : List Event) : Prop where
  covered : Covered key 0 events
  settled : sounding key events = 0

section Balance

variable {key : UInt8} {before : Int} {events more : List Event} {e : Event}

theorem Covered.nonneg (h : Covered key before events) : 0 ≤ before := by
  simpa using h [] List.nil_prefix

theorem Covered.mono (h : Covered key before events) {larger : Int} (hle : before ≤ larger) :
    Covered key larger events := by
  intro p hp
  have := h p hp
  omega

theorem covered_cons :
    Covered key before (e :: events) ↔
      0 ≤ before ∧ Covered key (before + e.soundingChange key) events := by
  constructor
  · intro h
    refine ⟨h.nonneg, ?_⟩
    intro p hp
    simpa [Int.add_assoc] using h (e :: p) (List.cons_prefix_cons.mpr ⟨rfl, hp⟩)
  · rintro ⟨hbefore, h⟩ p hp
    rcases List.prefix_cons_iff.mp hp with rfl | ⟨q, rfl, hq⟩
    · simpa using hbefore
    · simpa [Int.add_assoc] using h q hq

theorem covered_append :
    Covered key before (events ++ more) ↔
      Covered key before events ∧ Covered key (before + sounding key events) more := by
  induction events generalizing before with
  | nil =>
    constructor
    · intro h
      refine ⟨?_, by simpa using h⟩
      intro p hp
      obtain rfl := List.prefix_nil.mp hp
      simpa using h.nonneg
    · rintro ⟨-, h⟩
      simpa using h
  | cons e events ih =>
    rw [List.cons_append, covered_cons, covered_cons, ih, sounding_cons, Int.add_assoc, and_assoc]

theorem notesBalanced_nil : NotesBalanced key [] where
  covered := by
    intro p hp
    obtain rfl := List.prefix_nil.mp hp
    exact Int.le_refl 0
  settled := rfl

/-- A silent event can stand anywhere. -/
theorem NotesBalanced.insert (h : NotesBalanced key (events ++ more)) (he : e.Silent) :
    NotesBalanced key (events ++ e :: more) where
  covered := by
    obtain ⟨hevents, hmore⟩ := covered_append.mp h.covered
    refine covered_append.mpr ⟨hevents, covered_cons.mpr ⟨hmore.nonneg, ?_⟩⟩
    rw [he.soundingChange, Int.add_zero]
    exact hmore
  settled := by
    have hsettled := h.settled
    simp only [sounding_append, sounding_cons, he.soundingChange] at hsettled ⊢
    omega

theorem Event.Silent.notesBalanced_singleton (he : e.Silent) : NotesBalanced key [e] := by
  have hnil : NotesBalanced key ([] ++ []) := notesBalanced_nil
  exact hnil.insert he

/-- The start of a note can stand anywhere in front of its end. -/
theorem NotesBalanced.insert_note {first between last : List Event} {on off : Event}
    (h : NotesBalanced key (first ++ (between ++ last))) (hon : 0 ≤ on.soundingChange key)
    (hoff : off.soundingChange key = -on.soundingChange key) :
    NotesBalanced key (first ++ on :: (between ++ off :: last)) where
  covered := by
    obtain ⟨hfirst, hrest⟩ := covered_append.mp h.covered
    obtain ⟨hbetween, hlast⟩ := covered_append.mp hrest
    have hnonneg := hlast.nonneg
    refine covered_append.mpr ⟨hfirst, covered_cons.mpr ⟨hbetween.nonneg, ?_⟩⟩
    refine covered_append.mpr ⟨hbetween.mono (by omega), covered_cons.mpr ⟨by omega, ?_⟩⟩
    exact hlast.mono (by omega)
  settled := by
    have hsettled := h.settled
    simp only [sounding_append, sounding_cons, hoff] at hsettled ⊢
    omega

/-- A move to another channel keeps the balance. -/
theorem NotesBalanced.map_onChannel (h : NotesBalanced key events) (channel : UInt8) :
    NotesBalanced key (events.map (Event.onChannel channel)) where
  covered := by
    intro p hp
    obtain ⟨q, hq, rfl⟩ := List.prefix_map_iff.mp hp
    rw [sounding_map_onChannel]
    exact h.covered q hq
  settled := by
    rw [sounding_map_onChannel]
    exact h.settled

/-- Balance, as counts of the two ends. -/
theorem NotesBalanced.countP (h : NotesBalanced key events) :
    (∀ p, p <+: events → p.countP (Event.endsNote key) ≤ p.countP (Event.startsNote key)) ∧
      events.countP (Event.endsNote key) = events.countP (Event.startsNote key) := by
  constructor
  · intro p hp
    have hcovered := h.covered p hp
    rw [sounding] at hcovered
    omega
  · have hsettled := h.settled
    rw [sounding] at hsettled
    omega

end Balance

/-! ### Sorting -/

namespace Track

variable {key channel : UInt8} {events : List Event}

/-- Silent events are sorted into a balanced track. -/
theorem notesBalanced_sort_append {silent : List Event} (hsilent : ∀ e ∈ silent, e.Silent)
    (h : NotesBalanced key (sort ⟨channel, events⟩).events) :
    NotesBalanced key (sort ⟨channel, silent ++ events⟩).events := by
  induction silent with
  | nil => exact h
  | cons e silent ih =>
    obtain ⟨he, hsilent⟩ := List.forall_mem_cons.mp hsilent
    obtain ⟨before, after, hcons, hrest, -⟩ := exists_sort_cons channel e (silent ++ events)
    have hbalanced := ih hsilent
    rw [hrest] at hbalanced
    rw [List.cons_append, hcons]
    exact hbalanced.insert he

/-- A note that does not end before it starts is sorted into a balanced track. -/
theorem notesBalanced_sort_note {on off : Event} (hon : 0 ≤ on.soundingChange key)
    (hoff : off.soundingChange key = -on.soundingChange key) (htick : on.tick ≤ off.tick)
    (h : NotesBalanced key (sort ⟨channel, events⟩).events) :
    NotesBalanced key (sort ⟨channel, on :: off :: events⟩).events := by
  obtain ⟨before, last, hend, hrest, -⟩ := exists_sort_cons channel off events
  obtain ⟨first, after, hboth, hstart, hfirst⟩ := exists_sort_cons channel on (off :: events)
  rw [hrest] at h
  rw [hboth]
  rcases List.append_eq_append_iff.mp (hend.symm.trans hstart) with
    ⟨mid, rfl, hmid⟩ | ⟨between, rfl, rfl⟩
  · -- The end is not in front of the start, since nothing there is as late as the start.
    cases mid with
    | nil =>
      obtain rfl := hmid
      have hadjacent : NotesBalanced key (before ++ ([] ++ last)) := h
      rw [List.append_nil]
      exact hadjacent.insert_note hon hoff
    | cons e mid =>
      obtain ⟨rfl, -⟩ := List.cons.inj hmid
      have hlt := hfirst off (by simp)
      omega
  · rw [List.append_assoc] at h
    exact h.insert_note hon hoff

end Track

/-! ### Whole runs -/

namespace Dse

section Runs

variable {ctx : Context} {offset : Nat} {s : State} {is : List Instruction}

/-- The two ends of a note cancel out, for any key. -/
theorem soundingChange_noteEvents (key note velocity channel : UInt8) (start stop : Nat) :
    0 ≤ Event.soundingChange key ⟨start, channel, .noteOn note velocity⟩ ∧
      (Event.noteOff stop channel note).soundingChange key =
        -Event.soundingChange key ⟨start, channel, .noteOn note velocity⟩ := by
  by_cases h : note = key <;>
    simp [Event.soundingChange, Event.startsNote, Event.endsNote, Event.noteOff, h]

/-- Every event of an instruction is silent, or the instruction is a note and the event one of
its ends, with a key that MIDI has. -/
theorem Context.silent_or_of_mem_events {i : Instruction} {e : Event}
    (h : e ∈ ctx.events s i) :
    e.Silent ∨ (∃ velocity arg lengthBytes, i = .note velocity arg lengthBytes) ∧
      ∃ key ≤ 127, e.message.noteKey? = some key := by
  cases i with
  | note velocity arg lengthBytes =>
    obtain ⟨key, hkey, hends⟩ := events_note_inv h
    obtain ⟨byte, -, hkey⟩ := Option.bind_eq_some_iff.mp hkey
    refine Or.inr ⟨⟨velocity, arg, lengthBytes, rfl⟩, key, SideTables.keyFor_le hkey, ?_⟩
    rcases hends with rfl | rfl
    · rfl
    · rfl
  | tempo bpm =>
    obtain ⟨micros, -, rfl⟩ := events_tempo_inv h
    exact Or.inl rfl
  | pitchBend high low =>
    rcases events_pitchBend_inv h with ⟨-, h⟩ | ⟨lsb, msb, rfl⟩
    · obtain ⟨-, number, -, value, hmessage⟩ := bendRangeEvents_inv h
      rw [Event.Silent, hmessage]
      exact Or.inl rfl
    · exact Or.inl rfl
  | loopStart | program _ | controller _ _ | verbatim _ _ =>
    obtain rfl := List.mem_singleton.mp h
    exact Or.inl rfl
  | fixedDelay _ | repeatDelay | addDelay _ | delay8 _ | delay16 _ _ | setOctave _ => cases h

/-- **One step.** The events of an instruction are sorted into a balanced track. -/
theorem Context.notesBalanced_sort_events (ctx : Context) (s : State) (i : Instruction)
    {key channel : UInt8} {events : List Event}
    (h : NotesBalanced key (Track.sort ⟨channel, events⟩).events) :
    NotesBalanced key (Track.sort ⟨channel, ctx.events s i ++ events⟩).events := by
  by_cases hnote : ∃ velocity arg lengthBytes, i = .note velocity arg lengthBytes
  · obtain ⟨velocity, arg, lengthBytes, rfl⟩ := hnote
    simp only [Context.events]
    split
    · next note _ =>
      obtain ⟨hon, hoff⟩ := soundingChange_noteEvents key note velocity ctx.channel
        (s.afterNote arg lengthBytes).tick
        (releaseTick (s.afterNote arg lengthBytes).tick (s.afterNote arg lengthBytes).defaultLength)
      exact Track.notesBalanced_sort_note hon hoff (Nat.le_max_right _ _) h
    · exact h
  · refine Track.notesBalanced_sort_append ?_ h
    intro e he
    rcases silent_or_of_mem_events he with hsilent | ⟨hi, -⟩
    · exact hsilent
    · exact absurd hi hnote

/-- **A whole run.** So are the events of a list of instructions. -/
theorem Context.notesBalanced_sort_play {key channel : UInt8} {events : List Event}
    (h : NotesBalanced key (Track.sort ⟨channel, events⟩).events) :
    NotesBalanced key (Track.sort ⟨channel, (ctx.play offset s is).events ++ events⟩).events := by
  induction is generalizing offset s with
  | nil => exact h
  | cons i is ih =>
    rw [play_cons, List.append_assoc]
    exact ctx.notesBalanced_sort_events s i ih

theorem silent_of_mem_titleEvents {name : String} {index : Nat} {e : Event}
    (h : e ∈ titleEvents name index) : e.Silent := by
  rw [eq_of_mem_titleEvents h]
  rfl

end Runs

section Plays

variable {tables : SideTables} {data : Bytes} {name : String} {chunk : Chunk} {index : Nat}
  {t : Track}

/-- The notes of a loaded track are balanced. -/
theorem Chunk.Plays.notesBalanced (h : chunk.Plays tables data name index t) (key : UInt8) :
    NotesBalanced key t.events := by
  obtain ⟨is, rest, channel, hlist, rfl⟩ := h
  rw [Decoded.toTrack_eq, Track.sort_onChannel_events]
  refine NotesBalanced.map_onChannel ?_ channel
  refine Track.notesBalanced_sort_append (fun e he => silent_of_mem_titleEvents he) ?_
  refine Context.notesBalanced_sort_play ?_
  -- Only the mark at the end is left.
  rw [Track.sort, List.mergeSort_singleton]
  exact Event.Silent.notesBalanced_singleton rfl

/-- The notes of a loaded track are on its channel, and MIDI has their keys. -/
theorem Chunk.Plays.channel_key (h : chunk.Plays tables data name index t) {e : Event}
    (he : e ∈ t.events) {key : UInt8} (hkey : e.message.noteKey? = some key) :
    e.channel = t.channel ∧ key ≤ 127 := by
  refine ⟨h.channel_of_mem he (Message.isChannelVoice_of_noteKey? hkey), ?_⟩
  obtain ⟨is, rest, -, hmem⟩ := h.mem_events_iff
  obtain ⟨emitted, rfl, hemitted⟩ := (hmem e).mp he
  rw [Event.onChannel_message] at hkey
  have hsounds : ¬ emitted.Silent := by
    rw [Event.Silent, hkey]
    exact Option.some_ne_none key
  rcases hemitted with htitle | hplay | rfl
  · exact absurd (silent_of_mem_titleEvents htitle) hsounds
  · obtain ⟨i, -, s, hevent⟩ := Context.exists_of_mem_play hplay
    rcases Context.silent_or_of_mem_events hevent with hsilent | ⟨-, k, hk, hnote⟩
    · exact absurd hsilent hsounds
    · obtain rfl := Option.some.inj (hkey.symm.trans hnote)
      exact hk
  · exact absurd rfl hsounds

end Plays

end Dse

/-! ### Loaded tracks -/

/-- **Notes of loaded tracks.** For each key, no part of a track from its start on ends more
notes than it starts, and the whole track ends all of them. Both ends of a note are on the
channel of the track, at a key that MIDI has. -/
theorem load_notes {tables : SideTables} {data : Bytes} {loaded : Loaded}
    (h : load tables data = .ok loaded) {t : Track} (ht : t ∈ loaded.sequence.tracks) :
    (∀ key, (∀ p, p <+: t.events →
        p.countP (Event.endsNote key) ≤ p.countP (Event.startsNote key)) ∧
      t.events.countP (Event.endsNote key) = t.events.countP (Event.startsNote key)) ∧
    ∀ e ∈ t.events, ∀ key, e.message.noteKey? = some key →
      e.channel = t.channel ∧ key ≤ 127 := by
  obtain ⟨header, -, -, -, htracks⟩ := load_inv h
  obtain ⟨p, -, hplays⟩ := exists_mem_of_forall₂ htracks ht
  constructor
  · intro key
    exact (hplays.notesBalanced key).countP
  · intro e he key hkey
    exact hplays.channel_key he hkey

/-- Two notes of one key overlap, one of them of no length and the other still sounding at the
end of the track. -/
theorem load_notes_crossedStream :
    ∃ loaded, load .default (singleTrackFile crossedStream) = .ok loaded ∧
      ∃ t ∈ loaded.sequence.tracks, t.events.countP (Event.startsNote 60) = 2 ∧
        t.events.countP (Event.endsNote 60) = 2 ∧
        ∀ p, p <+: t.events →
          p.countP (Event.endsNote 60) ≤ p.countP (Event.startsNote 60) := by
  have hload := load_singleTrackFile .default ofBytes_crossedStream
  obtain ⟨channel, hchannel⟩ := allocateChannels_singleton
    ((Dse.Context.decoded ⟨.default, 0⟩ 0x94 .initial crossedNotes).toTrack "" 0)
  have hmem := List.mem_singleton_self
    (((Dse.Context.decoded ⟨.default, 0⟩ 0x94 .initial crossedNotes).toTrack "" 0).onChannel
      channel)
  rw [← hchannel] at hmem
  obtain ⟨hprefixes, hall⟩ := (load_notes hload hmem).1 60
  have hstarts : (((Dse.Context.decoded ⟨.default, 0⟩ 0x94 .initial crossedNotes).toTrack ""
      0).onChannel channel).events.countP (Event.startsNote 60) = 2 := by
    rw [Dse.Decoded.toTrack_eq, Track.sort_onChannel_events, List.countP_map,
      (Track.sort_events_perm _).countP_eq,
      show Event.startsNote 60 ∘ Event.onChannel channel = Event.startsNote 60 from
        funext (Event.startsNote_onChannel channel)]
    decide
  exact ⟨_, hload, _, hmem, hstarts, hall.trans hstarts, hprefixes⟩

end DseMidi
