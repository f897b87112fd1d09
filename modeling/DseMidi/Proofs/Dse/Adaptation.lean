import DseMidi.Proofs.Dse.Grammar
import DseMidi.Proofs.Dse.Timeline

/-!
# DseMidi.Proofs.Dse.Adaptation

**What the side tables touch.** They choose the keys of notes and the programs of program changes,
and nothing else of a track.

The state behind an instruction does not depend on them, so two runs of the same instructions with
different tables go side by side, from the same state at each instruction. What an instruction
gives is therefore compared one instruction at a time (`Context.emissions`):

* A note gives its start and its end, or nothing if it has no key. Only the key is a matter of the
  tables, and with it whether there is one (`IsNote`). What the note does to the state is not
  (`Context.PlaysNote`).
* A program change gives the program of the table.
* All other instructions give the same with any tables.

`Chunk.decode_sideTables` puts this together for whole tracks.
-/

namespace DseMidi

/-! ### What is compared -/

/-- Whether the message starts or ends a note. -/
def Message.isNote : Message → Bool
  | noteOn .. | noteOff .. => true
  | _ => false

/-- The message without the program that it selects. -/
def Message.withoutProgram : Message → Message
  | programChange _ => programChange 0
  | message => message

/-- The event without the program that it selects. -/
def Event.withoutProgram (e : Event) : Event :=
  { e with message := e.message.withoutProgram }

/-- Whether the fault is that a tempo of zero was left out. -/
def Fault.isIgnoredTempo : Fault → Bool
  | ignoredTempo .. => true
  | _ => false

/-- What is said of programs is not said of notes. -/
theorem Event.filter_isNote_map_withoutProgram (events : List Event) :
    (events.map withoutProgram).filter (fun e => e.message.isNote) =
      events.filter fun e => e.message.isNote := by
  have hkind : ∀ e : Event, e.withoutProgram.message.isNote = e.message.isNote := by
    rintro ⟨tick, channel, message⟩
    cases message <;> rfl
  have hsame : ∀ e : Event, e.message.isNote → e.withoutProgram = e := by
    rintro ⟨tick, channel, message⟩ hnote
    cases message with
    | noteOff | noteOn => rfl
    | _ => cases hnote
  rw [List.filter_map]
  simp only [Function.comp_def, hkind]
  rw [← List.map_id (events.filter _), List.map_map]
  refine List.map_congr_left ?_
  intro e he
  exact hsame e (List.mem_filter.mp he).2

/-- The key of a note is looked up in the drum keys or shifted. -/
theorem SideTables.keyFor_congr {t t' : SideTables} (hdrums : t.drumKeys = t'.drumKeys)
    (hshifts : t.shifts = t'.shifts) : t.keyFor = t'.keyFor := by
  funext program key
  rw [keyFor, keyFor, hdrums, hshifts]

namespace Dse

/-- The events of a note are none, or its start and its end. -/
def IsNote (tick : Nat) (channel velocity : UInt8) (release : Nat) (events : List Event) : Prop :=
  events = [] ∨
    ∃ key, events = [⟨tick, channel, .noteOn key velocity⟩, .noteOff release channel key]

theorem IsNote.filter_eq_nil {tick release : Nat} {channel velocity : UInt8}
    {events : List Event} (h : IsNote tick channel velocity release events) :
    events.filter (fun e => !e.message.isNote) = [] := by
  rcases h with rfl | ⟨key, rfl⟩
  · rfl
  · rfl

namespace Context

section Step

variable {tables tables' : SideTables} {track offset : Nat} {s : State}

/-! ### One instruction -/

/-- **One note.** It sounds the same with any tables, its key aside, if it sounds at all. -/
theorem isNote_events (ctx : Context) (s : State) (velocity arg : UInt8) (lengthBytes : Bytes) :
    IsNote s.tick ctx.channel velocity
      (releaseTick s.tick (s.afterNote arg lengthBytes).defaultLength)
      (ctx.events s (.note velocity arg lengthBytes)) := by
  simp only [events]
  split
  · next key _ => exact Or.inr ⟨key, rfl⟩
  · exact Or.inl rfl

/-- **Any other instruction.** The tables only choose the program of a program change. -/
theorem map_filter_events (i : Instruction) :
    ((events ⟨tables, track⟩ s i).filter fun e => !e.message.isNote).map Event.withoutProgram =
      ((events ⟨tables', track⟩ s i).filter fun e => !e.message.isNote).map
        Event.withoutProgram := by
  cases i with
  | note velocity arg lengthBytes =>
    rw [(isNote_events ⟨tables, track⟩ s velocity arg lengthBytes).filter_eq_nil,
      (isNote_events ⟨tables', track⟩ s velocity arg lengthBytes).filter_eq_nil]
  | _ => rfl

theorem filter_warnings (i : Instruction) :
    (warnings ⟨tables, track⟩ offset s i).filter Fault.isIgnoredTempo =
      (warnings ⟨tables', track⟩ offset s i).filter Fault.isIgnoredTempo := by
  have hnote : ∀ tables velocity arg lengthBytes,
      (warnings ⟨tables, track⟩ offset s (.note velocity arg lengthBytes)).filter
        Fault.isIgnoredTempo = [] := by
    intro tables velocity arg lengthBytes
    simp only [warnings]
    split
    · rfl
    · rfl
  cases i with
  | note velocity arg lengthBytes => rw [hnote, hnote]
  | _ => rfl

section Programs

variable (hdrums : tables.drumKeys = tables'.drumKeys) (hshifts : tables.shifts = tables'.shifts)
include hdrums hshifts

/-- Programs do not decide which notes have keys. -/
theorem soundingKey?_congr (arg : UInt8) :
    soundingKey? ⟨tables, track⟩ s arg = soundingKey? ⟨tables', track⟩ s arg := by
  rw [soundingKey?, soundingKey?, SideTables.keyFor_congr hdrums hshifts]

theorem map_withoutProgram_events (i : Instruction) :
    (events ⟨tables, track⟩ s i).map Event.withoutProgram =
      (events ⟨tables', track⟩ s i).map Event.withoutProgram := by
  cases i with
  | note velocity arg lengthBytes =>
    simp only [events, soundingKey?_congr hdrums hshifts]
    rfl
  | _ => rfl

theorem warnings_congr (i : Instruction) :
    warnings ⟨tables, track⟩ offset s i = warnings ⟨tables', track⟩ offset s i := by
  cases i with
  | note velocity arg lengthBytes => simp only [warnings, soundingKey?_congr hdrums hshifts]
  | _ => rfl

end Programs

end Step

/-! ### Whole runs -/

/-- The events of instructions, in one list for each of them. -/
def emissions (ctx : Context) (s : State) : List Instruction → List (List Event)
  | [] => []
  | i :: is => ctx.events s i :: ctx.emissions (s.after i) is

theorem flatten_emissions (ctx : Context) (offset : Nat) (s : State) (is : List Instruction) :
    (ctx.emissions s is).flatten = (ctx.play offset s is).events := by
  induction is generalizing offset s with
  | nil => rfl
  | cons i is ih => rw [emissions, List.flatten_cons, ih (offset + i.size), play_cons]

theorem length_emissions (ctx : Context) (s : State) (is : List Instruction) :
    (ctx.emissions s is).length = is.length := by
  induction is generalizing s with
  | nil => rfl
  | cons i is ih => rw [emissions, List.length_cons, ih, List.length_cons]

/-- An instruction is played from the state behind those in front of it. -/
theorem getElem?_emissions (ctx : Context) (s : State) (is : List Instruction) (k : Nat) :
    (ctx.emissions s is)[k]? =
      is[k]?.map (ctx.events ((is.take k).foldl State.after s)) := by
  induction is generalizing s k with
  | nil => rfl
  | cons i is ih =>
    cases k with
    | zero => rfl
    | succ k => exact ih (s.after i) k

/-- What the note in place `k` of some instructions does when they are played from `s`. -/
structure PlaysNote (ctx : Context) (offset : Nat) (s : State) (is : List Instruction) (k : Nat)
    (velocity arg : UInt8) (lengthBytes : Bytes) (before : State) : Prop where
  state_before : (ctx.play offset s (is.take k)).state = before
  /-- Its octave and its length are remembered, with or without a key. -/
  state_behind : (ctx.play offset s (is.take (k + 1))).state = before.afterNote arg lengthBytes
  events : ∃ events, (ctx.emissions s is)[k]? = some events ∧
    IsNote before.tick ctx.channel velocity
      (releaseTick before.tick (before.afterNote arg lengthBytes).defaultLength) events

theorem playsNote_of_getElem? (ctx : Context) (offset : Nat) (s : State) {is : List Instruction}
    {k : Nat} {velocity arg : UInt8} {lengthBytes : Bytes}
    (h : is[k]? = some (.note velocity arg lengthBytes)) :
    ctx.PlaysNote offset s is k velocity arg lengthBytes ((is.take k).foldl State.after s) where
  state_before := ctx.state_play offset s _
  state_behind := by
    rw [state_play, List.take_add_one, h, List.foldl_append]
    rfl
  events := by
    refine ⟨_, ?_, isNote_events ctx _ velocity arg lengthBytes⟩
    rw [getElem?_emissions, h]
    rfl

section Run

variable {tables tables' : SideTables} {track offset : Nat} {s : State} {is : List Instruction}

theorem map_filter_play :
    ((play ⟨tables, track⟩ offset s is).events.filter fun e => !e.message.isNote).map
        Event.withoutProgram =
      ((play ⟨tables', track⟩ offset s is).events.filter fun e => !e.message.isNote).map
        Event.withoutProgram := by
  induction is generalizing offset s with
  | nil => rfl
  | cons i is ih =>
    rw [play_cons, play_cons, List.filter_append, List.filter_append, List.map_append,
      List.map_append, map_filter_events i, ih]

theorem filter_warnings_play :
    (play ⟨tables, track⟩ offset s is).warnings.filter Fault.isIgnoredTempo =
      (play ⟨tables', track⟩ offset s is).warnings.filter Fault.isIgnoredTempo := by
  induction is generalizing offset s with
  | nil => rfl
  | cons i is ih =>
    rw [play_cons, play_cons, List.filter_append, List.filter_append, filter_warnings i, ih]

section Programs

variable (hdrums : tables.drumKeys = tables'.drumKeys) (hshifts : tables.shifts = tables'.shifts)
include hdrums hshifts

theorem map_withoutProgram_play :
    (play ⟨tables, track⟩ offset s is).events.map Event.withoutProgram =
      (play ⟨tables', track⟩ offset s is).events.map Event.withoutProgram := by
  induction is generalizing offset s with
  | nil => rfl
  | cons i is ih =>
    rw [play_cons, play_cons, List.map_append, List.map_append,
      map_withoutProgram_events hdrums hshifts i, ih]

theorem warnings_play_congr :
    (play ⟨tables, track⟩ offset s is).warnings = (play ⟨tables', track⟩ offset s is).warnings := by
  induction is generalizing offset s with
  | nil => rfl
  | cons i is ih => rw [play_cons, play_cons, warnings_congr hdrums hshifts i, ih]

end Programs

end Run

end Context

/-! ### Whole tracks -/

/-- **Tables only touch keys and programs.** Whether a track decodes, and with which fault it
does not, is not a matter of the tables. If it does, its state at the end and its tempos of zero
are the same with any tables, and so are its events apart from notes and from the programs of
program changes. A note that sounds with both tables is the same but for its key, and one that does
not sound leaves the same state behind it as one that does.

Tables with the same drum keys and shifts give the same notes and the same warnings. -/
theorem Chunk.decode_sideTables (chunk : Chunk) (data : Bytes) (track : Nat)
    (tables tables' : SideTables) (state : State) :
    (∃ fault, chunk.decode data track tables state = .error fault ∧
      chunk.decode data track tables' state = .error fault) ∨
    ∃ is rest d d', Listing.ofBytes (data.drop chunk.streamStart) = ⟨is, .complete rest⟩ ∧
      chunk.decode data track tables state = .ok d ∧
      chunk.decode data track tables' state = .ok d' ∧
      d.state = d'.state ∧
      d.warnings.filter Fault.isIgnoredTempo = d'.warnings.filter Fault.isIgnoredTempo ∧
      (d.events.filter fun e => !e.message.isNote).map Event.withoutProgram =
        (d'.events.filter fun e => !e.message.isNote).map Event.withoutProgram ∧
      (d.events = (Context.emissions ⟨tables, track⟩ state is).flatten ++
          [.ofMeta d.state.tick (.text endMarker)] ∧
        d'.events = (Context.emissions ⟨tables', track⟩ state is).flatten ++
          [.ofMeta d'.state.tick (.text endMarker)] ∧
        ∀ k velocity arg lengthBytes, is[k]? = some (.note velocity arg lengthBytes) →
          ∃ before,
            Context.PlaysNote ⟨tables, track⟩ chunk.streamStart state is k velocity arg
              lengthBytes before ∧
            Context.PlaysNote ⟨tables', track⟩ chunk.streamStart state is k velocity arg
              lengthBytes before) ∧
      (tables.drumKeys = tables'.drumKeys → tables.shifts = tables'.shifts →
        d.warnings = d'.warnings ∧
        (d.events.filter fun e => e.message.isNote) =
          (d'.events.filter fun e => e.message.isNote) ∧
        d.events.map Event.withoutProgram = d'.events.map Event.withoutProgram) := by
  rcases hlist : Listing.ofBytes (data.drop chunk.streamStart) with ⟨is, ending⟩
  cases ending with
  | unknown opcode =>
    exact Or.inl ⟨_, decode_of_unknown hlist, decode_of_unknown hlist⟩
  | truncated =>
    exact Or.inl ⟨_, decode_of_truncated hlist, decode_of_truncated hlist⟩
  | complete rest =>
    have hstate : (Context.play ⟨tables, track⟩ chunk.streamStart state is).state =
        (Context.play ⟨tables', track⟩ chunk.streamStart state is).state := by
      rw [Context.state_play, Context.state_play]
    refine Or.inr ⟨is, rest, _, _, rfl, decode_of_complete hlist, decode_of_complete hlist,
      hstate, Context.filter_warnings_play, ?_, ⟨?_, ?_, ?_⟩, ?_⟩
    · rw [Context.decoded, Context.decoded, List.filter_append, List.filter_append,
        List.map_append, List.map_append, Context.map_filter_play, hstate]
    · rw [Context.decoded, Context.flatten_emissions _ chunk.streamStart]
    · rw [Context.decoded, Context.flatten_emissions _ chunk.streamStart]
    · intro k velocity arg lengthBytes hnote
      exact ⟨_, Context.playsNote_of_getElem? _ _ _ hnote,
        Context.playsNote_of_getElem? _ _ _ hnote⟩
    · intro hdrums hshifts
      have hevents : (Context.decoded ⟨tables, track⟩ chunk.streamStart state is).events.map
            Event.withoutProgram =
          (Context.decoded ⟨tables', track⟩ chunk.streamStart state is).events.map
            Event.withoutProgram := by
        rw [Context.decoded, Context.decoded, List.map_append, List.map_append,
          Context.map_withoutProgram_play hdrums hshifts, hstate]
      refine ⟨Context.warnings_play_congr hdrums hshifts, ?_, hevents⟩
      rw [← Event.filter_isNote_map_withoutProgram, hevents,
        Event.filter_isNote_map_withoutProgram]

end Dse

end DseMidi
