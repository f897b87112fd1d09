import Mathlib.Data.List.Nodup
import DseMidi.Proofs.Notes

/-!
# DseMidi.Proofs.Releases

**Repeated notes are not cut.** A note ends one tick before its length is over, so it is over when
a later note starts that is no nearer than the length. Ordering the track keeps it that way: what
ends a note stands in front of the start of such a later note, also when both are at one tick.

Two notes can end with the same event, so "in front of" is not said of events but of events
together with the instruction that emitted them (`Traced`). The labelled events are ordered like
the events themselves (`map_event_sortTrace`).
-/

namespace DseMidi

/-! ### Where events come from -/

/-- Where an event of a track comes from. -/
inductive Origin
  | title
  /-- The instruction in this place of the stream. -/
  | instruction (place : Nat)
  | mark
  deriving DecidableEq

/-- An event of a track and where it comes from. -/
structure Traced where
  event : Event
  origin : Origin
  deriving DecidableEq

/-- Events of one origin. -/
def traced (origin : Origin) (events : List Event) : List Traced :=
  events.map fun e => ⟨e, origin⟩

/-- Traced events, ordered as those of a track are. -/
def sortTrace (trace : List Traced) : List Traced :=
  trace.mergeSort fun a b => decide (a.event.tick ≤ b.event.tick)

/-- The instruction in place `k` starts a note with `on` and ends it with `off`. -/
structure KeepsNote (trace : List Traced) (k : Nat) (on off : Event) : Prop where
  mem_on : ⟨on, .instruction k⟩ ∈ trace
  mem_off : ⟨off, .instruction k⟩ ∈ trace
  keys : ∃ key velocity, on.message = .noteOn key velocity ∧ off.message = .noteOff key 0

section Traces

variable {origin : Origin} {events : List Event} {trace : List Traced} {x : Traced}

theorem mem_traced : x ∈ traced origin events ↔ x.origin = origin ∧ x.event ∈ events := by
  rw [traced, List.mem_map]
  constructor
  · rintro ⟨e, he, rfl⟩
    exact ⟨rfl, he⟩
  · rintro ⟨rfl, he⟩
    exact ⟨x.event, he, rfl⟩

@[simp] theorem map_event_traced : (traced origin events).map Traced.event = events := by
  simp [traced, Function.comp_def]

theorem nodup_traced (h : events.Nodup) : (traced origin events).Nodup := by
  refine h.map ?_
  intro a b hab
  exact congrArg Traced.event hab

/-- Traced events are ordered like the events alone. -/
theorem map_event_sortTrace (trace : List Traced) (channel : UInt8) :
    (sortTrace trace).map Traced.event =
      (Track.sort ⟨channel, trace.map Traced.event⟩).events :=
  List.map_mergeSort fun _ _ _ _ => rfl

/-- An event that is emitted in front of another and is not later stays in front of it. -/
theorem pair_sublist_sortTrace {a b : Traced} (h : [a, b].Sublist trace)
    (hle : a.event.tick ≤ b.event.tick) : [a, b].Sublist (sortTrace trace) :=
  List.pair_sublist_mergeSort (fun a b c => Track.tickLe_trans a.event b.event c.event)
    (fun a b => Track.tickLe_total a.event b.event) (decide_eq_true hle) h

end Traces

/-! ### Lengths of notes -/

namespace Dse

/-- The length that the instruction brings, if it is a note with one. -/
def Instruction.ownLength? : Instruction → Option Nat
  | note _ _ lengthBytes => if lengthBytes.isEmpty then none else some (beNat lengthBytes)
  | _ => none

/-- The length of the note in place `k`: its own one, or that of the last note in front of it
that brings one. It is 1 if there is none. -/
def noteLength (is : List Instruction) (k : Nat) : Nat :=
  ((is.take (k + 1)).filterMap Instruction.ownLength?).getLastD 1

theorem State.defaultLength_after (s : State) (i : Instruction) :
    (s.after i).defaultLength = i.ownLength?.getD s.defaultLength := by
  cases i with
  | note velocity arg lengthBytes =>
    simp only [after, afterNote, Instruction.ownLength?]
    split <;> rfl
  | _ => rfl

theorem State.defaultLength_foldl_after (s : State) (is : List Instruction) :
    (is.foldl State.after s).defaultLength =
      (is.filterMap Instruction.ownLength?).getLastD s.defaultLength := by
  induction is generalizing s with
  | nil => rfl
  | cons i is ih =>
    rw [List.foldl_cons, ih, defaultLength_after]
    cases hown : i.ownLength? with
    | none => rw [List.filterMap_cons_none hown, Option.getD_none]
    | some length => rw [List.filterMap_cons_some hown, List.getLastD_cons, Option.getD_some]

/-- The length that is remembered behind a place is that of the note there. -/
theorem defaultLength_behind {is : List Instruction} {k : Nat} {i : Instruction}
    (h : is[k]? = some i) :
    (((is.take k).foldl State.after .initial).after i).defaultLength = noteLength is k := by
  have hbehind := State.defaultLength_foldl_after .initial (is.take k ++ [i])
  rw [List.foldl_append] at hbehind
  rw [noteLength, List.take_add_one, h, Option.toList_some]
  exact hbehind

/-- The note is over at the end of its length. -/
theorem releaseTick_le (tick length : Nat) : releaseTick tick length ≤ tick + 2 * length := by
  rw [releaseTick]
  omega

/-! ### Traces of runs -/

namespace Context

/-- The events of instructions, the first of which is in place `place`. -/
def traceFrom (ctx : Context) (place : Nat) (s : State) : List Instruction → List Traced
  | [] => []
  | i :: is =>
    traced (.instruction place) (ctx.events s i) ++ ctx.traceFrom (place + 1) (s.after i) is

/-- The events of a track under a title, in the order in which they are emitted. -/
def trace (ctx : Context) (name : String) (is : List Instruction) : List Traced :=
  traced .title (titleEvents name ctx.track) ++ ctx.traceFrom 0 .initial is ++
    traced .mark [.ofMeta (is.foldl State.after .initial).tick (.text endMarker)]

variable {ctx : Context} {place offset : Nat} {s : State} {is : List Instruction} {x : Traced}
  {e : Event}

theorem map_event_traceFrom (offset : Nat) :
    (ctx.traceFrom place s is).map Traced.event = (ctx.play offset s is).events := by
  induction is generalizing place offset s with
  | nil => rfl
  | cons i is ih =>
    rw [traceFrom, List.map_append, map_event_traced, ih (offset + i.size), play_cons]

theorem map_event_trace (ctx : Context) (name : String) (offset : Nat) (is : List Instruction) :
    (ctx.trace name is).map Traced.event =
      titleEvents name ctx.track ++ (ctx.decoded offset .initial is).events := by
  rw [trace, List.map_append, List.map_append, map_event_traced, map_event_traced,
    map_event_traceFrom offset, decoded, state_play, List.append_assoc]

/-- A traced event of a run is one of the instruction in its place. -/
theorem exists_of_mem_traceFrom (h : x ∈ ctx.traceFrom place s is) :
    ∃ k i, is[k]? = some i ∧ x.origin = .instruction (place + k) ∧
      x.event ∈ ctx.events ((is.take k).foldl State.after s) i := by
  induction is generalizing place s with
  | nil => cases h
  | cons i is ih =>
    rcases List.mem_append.mp h with here | hlater
    · obtain ⟨horigin, hevent⟩ := mem_traced.mp here
      exact ⟨0, i, rfl, horigin, hevent⟩
    · obtain ⟨k, j, hj, horigin, hevent⟩ := ih hlater
      refine ⟨k + 1, j, hj, ?_, hevent⟩
      rw [horigin, Nat.add_assoc, Nat.add_comm 1 k]

/-- What an instruction emits is traced to its place. -/
theorem mem_traceFrom {k : Nat} {i : Instruction} (hi : is[k]? = some i)
    (h : e ∈ ctx.events ((is.take k).foldl State.after s) i) :
    ⟨e, .instruction (place + k)⟩ ∈ ctx.traceFrom place s is := by
  induction is generalizing place s k with
  | nil => cases hi
  | cons first is ih =>
    cases k with
    | zero =>
      obtain rfl := Option.some.inj hi
      exact List.mem_append_left _ (mem_traced.mpr ⟨rfl, h⟩)
    | succ k =>
      have hmem : ⟨e, .instruction (place + 1 + k)⟩ ∈
          ctx.traceFrom (place + 1) (s.after first) is := ih hi h
      rw [Nat.add_assoc, Nat.add_comm 1 k] at hmem
      exact List.mem_append_right _ hmem

/-- What comes from different places is emitted in the order of these. -/
theorem pair_sublist_traceFrom {k l : Nat} (hkl : k < l) {first second : Event}
    (hfirst : ⟨first, .instruction k⟩ ∈ ctx.traceFrom place s is)
    (hsecond : ⟨second, .instruction l⟩ ∈ ctx.traceFrom place s is) :
    [⟨first, .instruction k⟩, ⟨second, .instruction l⟩].Sublist (ctx.traceFrom place s is) := by
  induction is generalizing place s with
  | nil => cases hfirst
  | cons i is ih =>
    -- What is behind the first instruction comes from later places than this one.
    have hbehind : ∀ {n e}, ⟨e, .instruction n⟩ ∈ ctx.traceFrom (place + 1) (s.after i) is →
        place < n := by
      intro n e h
      obtain ⟨m, j, -, horigin, -⟩ := exists_of_mem_traceFrom h
      obtain rfl := Origin.instruction.inj horigin
      omega
    rcases List.mem_append.mp hsecond with hhere | hlater
    · obtain ⟨horigin, -⟩ := mem_traced.mp hhere
      obtain rfl := Origin.instruction.inj horigin
      rcases List.mem_append.mp hfirst with hhere' | hlater'
      · obtain ⟨horigin', -⟩ := mem_traced.mp hhere'
        obtain rfl := Origin.instruction.inj horigin'
        omega
      · have hlt := hbehind hlater'
        omega
    · rcases List.mem_append.mp hfirst with hhere' | hlater'
      · exact (List.singleton_sublist.mpr hhere').append (List.singleton_sublist.mpr hlater)
      · exact List.sublist_append_of_sublist_right (ih hlater' hlater)

/-- An instruction emits no event twice. -/
theorem nodup_events (ctx : Context) (s : State) (i : Instruction) : (ctx.events s i).Nodup := by
  cases i with
  | note velocity arg lengthBytes =>
    simp only [events]
    split
    · simp [noteEvents, Event.noteOff]
    · exact List.nodup_nil
  | tempo bpm =>
    simp only [events]
    split
    · exact List.nodup_singleton _
    · exact List.nodup_nil
  | pitchBend high low =>
    simp only [events]
    split
    · exact List.nodup_singleton _
    · simp [bendRangeEvents, Controller.parameterMsb, Controller.parameterLsb,
        Controller.dataEntryMsb, Controller.dataEntryLsb]
  | loopStart | program _ | controller _ _ | verbatim _ _ => exact List.nodup_singleton _
  | fixedDelay _ | repeatDelay | addDelay _ | delay8 _ | delay16 _ _ | setOctave _ =>
    exact List.nodup_nil

theorem nodup_traceFrom : (ctx.traceFrom place s is).Nodup := by
  induction is generalizing place s with
  | nil => exact List.nodup_nil
  | cons i is ih =>
    refine List.Nodup.append (nodup_traced (ctx.nodup_events s i)) ih ?_
    -- Equal events of two instructions have different origins.
    intro x here hlater
    obtain ⟨horigin, -⟩ := mem_traced.mp here
    obtain ⟨k, j, -, horigin', -⟩ := exists_of_mem_traceFrom hlater
    have hplace := Origin.instruction.inj (horigin.symm.trans horigin')
    omega

theorem mem_trace_instruction_iff {name : String} {k : Nat} :
    ⟨e, .instruction k⟩ ∈ ctx.trace name is ↔
      ⟨e, .instruction k⟩ ∈ ctx.traceFrom 0 .initial is := by
  simp [trace, mem_traced]

theorem nodup_trace (ctx : Context) (name : String) (is : List Instruction) :
    (ctx.trace name is).Nodup := by
  have htitle : (titleEvents name ctx.track).Nodup := by
    rw [titleEvents]
    split
    · exact List.nodup_singleton _
    · exact List.nodup_nil
  have hplaces : ∀ x ∈ ctx.traceFrom 0 .initial is, ∃ k, x.origin = .instruction k := by
    intro x hx
    obtain ⟨k, i, -, horigin, -⟩ := exists_of_mem_traceFrom hx
    exact ⟨_, horigin⟩
  refine ((nodup_traced htitle).append nodup_traceFrom ?_).append
    (nodup_traced (List.nodup_singleton _)) ?_
  · intro x hx hx'
    obtain ⟨horigin, -⟩ := mem_traced.mp hx
    obtain ⟨k, hk⟩ := hplaces x hx'
    rw [horigin] at hk
    cases hk
  · intro x hx hx'
    obtain ⟨horigin, -⟩ := mem_traced.mp hx'
    rcases List.mem_append.mp hx with hx | hx
    · obtain ⟨horigin', -⟩ := mem_traced.mp hx
      rw [horigin] at horigin'
      cases horigin'
    · obtain ⟨k, hk⟩ := hplaces x hx
      rw [horigin] at hk
      cases hk

/-! ### Notes -/

theorem tick_of_noteOn {i : Instruction} {key velocity : UInt8} (h : e ∈ ctx.events s i)
    (hon : e.message = .noteOn key velocity) : e.tick = s.tick := by
  refine tick_of_mem_events h ?_
  rw [Event.atCursor, hon]

theorem tick_of_noteOff {i : Instruction} {key velocity : UInt8} (h : e ∈ ctx.events s i)
    (hoff : e.message = .noteOff key velocity) :
    e.tick = releaseTick s.tick (s.after i).defaultLength := by
  rcases events_inv h with ⟨hcursor, -⟩ | ⟨key, rfl⟩ | hrange
  · rw [Event.atCursor, hoff] at hcursor
    cases hcursor
  · rfl
  · obtain ⟨-, number, -, value, hmessage⟩ := bendRangeEvents_inv hrange
    rw [hoff] at hmessage
    cases hmessage

/-- What starts a note is followed by what ends it. -/
theorem exists_noteOff_of_noteOn {i : Instruction} {key velocity : UInt8}
    (h : e ∈ ctx.events s i) (hon : e.message = .noteOn key velocity) :
    ∃ off ∈ ctx.events s i, off.message = .noteOff key 0 := by
  rcases silent_or_of_mem_events h with hsilent | ⟨⟨v, arg, lengthBytes, rfl⟩, -⟩
  · rw [Event.Silent, hon] at hsilent
    cases hsilent
  · obtain ⟨sounding, hkey, rfl | rfl⟩ := events_note_inv h
    · obtain ⟨rfl, rfl⟩ := Message.noteOn.inj hon
      simp only [events, hkey]
      exact ⟨_, List.mem_cons_of_mem _ List.mem_cons_self, rfl⟩
    · cases hon

section Kept

variable {name : String} {k l : Nat} {on off next nextOff : Event}

/-- Every start of a note is that of a note that is kept. -/
theorem exists_keepsNote (h : x ∈ ctx.trace name is) (hon : x.event.message.isNoteOn) :
    ∃ k off, x.origin = .instruction k ∧ KeepsNote (ctx.trace name is) k x.event off := by
  obtain ⟨key, velocity, hmessage⟩ : ∃ key velocity, x.event.message = .noteOn key velocity := by
    revert hon
    cases x.event.message with
    | noteOn key velocity => exact fun _ => ⟨key, velocity, rfl⟩
    | _ => intro hon; cases hon
  have hplay : x ∈ ctx.traceFrom 0 .initial is := by
    rcases List.mem_append.mp h with hfront | hmark
    · rcases List.mem_append.mp hfront with htitle | hplay
      · rw [eq_of_mem_titleEvents (mem_traced.mp htitle).2] at hmessage
        cases hmessage
      · exact hplay
    · rw [List.mem_singleton.mp (mem_traced.mp hmark).2] at hmessage
      cases hmessage
  obtain ⟨k, i, hi, horigin, hevent⟩ := exists_of_mem_traceFrom hplay
  obtain ⟨off, hoff, hend⟩ := exists_noteOff_of_noteOn hevent hmessage
  have hmem : ⟨off, .instruction (0 + k)⟩ ∈ ctx.traceFrom 0 .initial is := mem_traceFrom hi hoff
  rw [Nat.zero_add] at horigin hmem
  refine ⟨k, off, horigin, ?_, mem_trace_instruction_iff.mpr hmem, key, velocity, hmessage, hend⟩
  rw [← horigin]
  exact h

/-- A note is over when its length is. -/
theorem off_tick_le (h : KeepsNote (ctx.trace name is) k on off) :
    off.tick ≤ on.tick + 2 * noteLength is k := by
  obtain ⟨key, velocity, hon, hoff⟩ := h.keys
  obtain ⟨n, i, hi, horigin, hstart⟩ :=
    exists_of_mem_traceFrom (mem_trace_instruction_iff.mp h.mem_on)
  obtain ⟨n', i', hi', horigin', hend⟩ :=
    exists_of_mem_traceFrom (mem_trace_instruction_iff.mp h.mem_off)
  -- Both ends come from one instruction, played from one state.
  obtain rfl : k = n := by simpa using horigin
  obtain rfl : k = n' := by simpa using horigin'
  obtain rfl := Option.some.inj (hi.symm.trans hi')
  rw [tick_of_noteOff hend hoff, tick_of_noteOn hstart hon, defaultLength_behind hi]
  exact releaseTick_le _ _

/-- A note that is over when a later one starts ends in front of it. -/
theorem release_before (hkl : k < l) (h : KeepsNote (ctx.trace name is) k on off)
    (h' : KeepsNote (ctx.trace name is) l next nextOff)
    (hle : on.tick + 2 * noteLength is k ≤ next.tick) :
    [⟨off, .instruction k⟩, ⟨next, .instruction l⟩].Sublist (sortTrace (ctx.trace name is)) := by
  have hplayed := pair_sublist_traceFrom hkl (mem_trace_instruction_iff.mp h.mem_off)
    (mem_trace_instruction_iff.mp h'.mem_on)
  refine pair_sublist_sortTrace ?_ (Nat.le_trans (off_tick_le h) hle)
  exact List.sublist_append_of_sublist_left (List.sublist_append_of_sublist_right hplayed)

end Kept

end Context

end Dse

/-! ### Loaded tracks -/

/-- The trace is of the emitted events, tells them all apart, and in order it is the track. -/
structure Track.TracedBy (t : Track) (trace : List Traced) (emitted : List Event) : Prop where
  emitted : trace.map Traced.event = emitted
  nodup : trace.Nodup
  ordered : (sortTrace trace).map (fun x => x.event.onChannel t.channel) = t.events

/-- A loaded track is traced to the instructions of its chunk. -/
theorem Dse.Chunk.Plays.tracedBy {tables : SideTables} {data : Bytes} {name : String}
    {chunk : Chunk} {index : Nat} {t : Track} (h : chunk.Plays tables data name index t) :
    ∃ is rest, Listing.ofBytes (data.drop chunk.streamStart) = ⟨is, .complete rest⟩ ∧
      t.TracedBy (Context.trace ⟨tables, index⟩ name is) (titleEvents name index ++
        (Context.decoded ⟨tables, index⟩ chunk.streamStart .initial is).events) := by
  obtain ⟨is, rest, channel, hlist, rfl⟩ := h
  have hemitted := Context.map_event_trace ⟨tables, index⟩ name chunk.streamStart is
  refine ⟨is, rest, hlist, hemitted, Context.nodup_trace _ _ _, ?_⟩
  have hevents := map_event_sortTrace (Context.trace ⟨tables, index⟩ name is)
    (UInt8.ofNat index)
  rw [Track.onChannel_channel, Decoded.toTrack_eq, Track.sort_onChannel_events, ← hemitted,
    ← hevents, List.map_map]
  rfl

/-- **Repeated notes.** The events of a loaded track are traced to the instructions that emit
them, and every start of a note is that of a note with an end. If a later note of the stream does
not start before the length of an earlier one is over, then the earlier one ends in front of the
start of the later one, also when both are at one tick. -/
theorem load_releases {tables : SideTables} {data : Bytes} {loaded : Loaded}
    (h : load tables data = .ok loaded) :
    ∃ header, Dse.Header.read data = .ok header ∧
      List.Forall₂ (fun (p : Dse.Chunk × Nat) (t : Track) => ∃ is rest d,
          Dse.Listing.ofBytes (data.drop p.1.streamStart) = ⟨is, .complete rest⟩ ∧
          p.1.decode data p.2 tables .initial = .ok d ∧
          let trace := Dse.Context.trace ⟨tables, p.2⟩ header.name is
          t.TracedBy trace (Dse.titleEvents header.name p.2 ++ d.events) ∧
          (∀ x ∈ trace, x.event.message.isNoteOn →
            ∃ k off, x.origin = .instruction k ∧ KeepsNote trace k x.event off) ∧
          ∀ k l on off next nextOff, k < l →
            KeepsNote trace k on off → KeepsNote trace l next nextOff →
            on.tick + 2 * Dse.noteLength is k ≤ next.tick →
            [⟨off, .instruction k⟩, ⟨next, .instruction l⟩].Sublist (sortTrace trace))
        header.tracks.zipIdx loaded.sequence.tracks := by
  obtain ⟨header, hheader, -, -, htracks⟩ := load_inv h
  refine ⟨header, hheader, htracks.imp ?_⟩
  intro p t hplays
  obtain ⟨is, rest, hlist, htraced⟩ := hplays.tracedBy
  refine ⟨is, rest, _, hlist, Dse.Chunk.decode_of_complete hlist, htraced, ?_, ?_⟩
  · intro x hx hon
    exact Dse.Context.exists_keepsNote hx hon
  · intro k l on off next nextOff hkl hkept hkept' hle
    exact Dse.Context.release_before hkl hkept hkept' hle

/-- Notes of one key: two of no length at the same place, and one behind a note that is just
over. -/
def repeatedNotes : List Dse.Instruction :=
  [.setOctave 5, .note 100 0x60 [0], .note 90 0x20 [], .loopStart, .note 80 0x60 [4],
   .delay8 4, .note 70 0x20 []]

/-- The opcode stream of these notes. -/
def repeatedStream : Bytes := Dse.streamBytes repeatedNotes ++ [Dse.endOpcode]

theorem ofBytes_repeatedStream :
    Dse.Listing.ofBytes repeatedStream = ⟨repeatedNotes, .complete []⟩ :=
  Dse.Listing.ofBytes_streamBytes (by decide) []

/-- The notes of no length end at the tick at which they and the next ones start, in front of
these; the note of length 4 ends one tick in front of the last one. -/
theorem load_releases_repeatedStream :
    ∃ loaded t trace, load .default (singleTrackFile repeatedStream) = .ok loaded ∧
      loaded.sequence.tracks = [t] ∧
      (sortTrace trace).map (fun x => x.event.onChannel t.channel) = t.events ∧
      [⟨.noteOff 0 0 60, .instruction 1⟩, ⟨⟨0, 0, .noteOn 60 90⟩, .instruction 2⟩].Sublist
        (sortTrace trace) ∧
      [⟨.noteOff 0 0 60, .instruction 2⟩, ⟨⟨0, 0, .noteOn 60 80⟩, .instruction 4⟩].Sublist
        (sortTrace trace) ∧
      [⟨.noteOff 7 0 60, .instruction 4⟩, ⟨⟨8, 0, .noteOn 60 70⟩, .instruction 6⟩].Sublist
        (sortTrace trace) := by
  have hload := load_singleTrackFile .default ofBytes_repeatedStream
  obtain ⟨header, hheader, htracks⟩ := load_releases hload
  rw [read_singleTrackFile] at hheader
  cases hheader
  obtain ⟨t, tracks, ⟨is, rest, d, hlist, -, htraced, -, hreleases⟩, hnil, htrack⟩ :=
    List.forall₂_cons_left_iff.mp htracks
  obtain rfl := List.forall₂_nil_left_iff.mp hnil
  have hstream := ofBytes_repeatedStream
  rw [← drop_singleTrackFile repeatedStream] at hstream
  cases hstream.symm.trans hlist
  have hfirst : KeepsNote (Dse.Context.trace ⟨.default, 0⟩ "" repeatedNotes) 1
      ⟨0, 0, .noteOn 60 100⟩ (.noteOff 0 0 60) := ⟨by decide, by decide, 60, 100, rfl, rfl⟩
  have hsecond : KeepsNote (Dse.Context.trace ⟨.default, 0⟩ "" repeatedNotes) 2
      ⟨0, 0, .noteOn 60 90⟩ (.noteOff 0 0 60) := ⟨by decide, by decide, 60, 90, rfl, rfl⟩
  have hthird : KeepsNote (Dse.Context.trace ⟨.default, 0⟩ "" repeatedNotes) 4
      ⟨0, 0, .noteOn 60 80⟩ (.noteOff 7 0 60) := ⟨by decide, by decide, 60, 80, rfl, rfl⟩
  have hlast : KeepsNote (Dse.Context.trace ⟨.default, 0⟩ "" repeatedNotes) 6
      ⟨8, 0, .noteOn 60 70⟩ (.noteOff 15 0 60) := ⟨by decide, by decide, 60, 70, rfl, rfl⟩
  refine ⟨_, t, _, hload, htrack, htraced.ordered, ?_, ?_, ?_⟩
  · exact hreleases 1 2 _ _ _ _ (by decide) hfirst hsecond (by decide)
  · exact hreleases 2 4 _ _ _ _ (by decide) hsecond hthird (by decide)
  · exact hreleases 4 6 _ _ _ _ (by decide) hthird hlast (by decide)

end DseMidi
