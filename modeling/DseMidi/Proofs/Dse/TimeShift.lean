import DseMidi.Proofs.BendRange
import DseMidi.Proofs.Smf.Placement

/-!
# DseMidi.Proofs.Dse.TimeShift

**When a track starts makes no difference.** A track that is played from a later position gives
the same events, all of them later by as much, and the same warnings. Only the setup of the bend
range has its place in the file and not in the track: it stays at tick zero.

This holds of one instruction, whatever the state remembers (`State.after_later`,
`Context.events_later`, `Context.warnings_later`), and so of a run (`Context.play_later`). It also
holds where a difference is cut off at zero: the end of a note is computed as one tick less than
its length asks for, but not less than the start of the note, and so never cut off at tick zero
alone (`releaseTick_add`).

Whether a track decodes is not a matter of the state at all. `Chunk.decode_later` says both, and
where the events at the cursor are.
-/

namespace DseMidi

/-- The event in a track that starts a number of ticks later. What sets the bend range stays where
it is. -/
def Event.postponed (ticks : Nat) (e : Event) : Event :=
  if e.setsRange then e else e.later ticks

theorem Event.postponed_of_not_setsRange {e : Event} (h : e.setsRange = false) (ticks : Nat) :
    e.postponed ticks = e.later ticks := by
  rw [postponed, h]
  rfl

/-- What sets the bend range is not at the cursor. -/
theorem Event.atCursor_eq_false_of_setsRange {e : Event} (h : e.setsRange) :
    e.atCursor = false := by
  rcases e with ⟨tick, channel, message⟩
  cases message with
  | controller number value => simpa [setsRange, atCursor] using h
  | _ => cases h

namespace Dse

/-- The state a number of ticks later. -/
def State.later (ticks : Nat) (s : State) : State := { s with tick := ticks + s.tick }

/-- A decoded track that starts a number of ticks later. -/
def Decoded.later (ticks : Nat) (d : Decoded) : Decoded where
  events := d.events.map (Event.postponed ticks)
  state := d.state.later ticks
  warnings := d.warnings

/-! ### One instruction -/

/-- The end of a note is as far behind its start wherever it starts. -/
theorem releaseTick_add (ticks tick length : Nat) :
    releaseTick (ticks + tick) length = ticks + releaseTick tick length := by
  unfold releaseTick
  omega

/-- What an instruction does to the state does not depend on the cursor. -/
theorem State.after_later (ticks : Nat) (s : State) (i : Instruction) :
    (s.later ticks).after i = (s.after i).later ticks := by
  cases i with
  | fixedDelay _ | repeatDelay | addDelay _ | delay8 _ | delay16 _ _ =>
    simp only [after, later, delay, Nat.add_assoc]
  | _ => rfl

section Step

variable (ctx : Context) (ticks : Nat) (s : State)

theorem Context.map_postponed_noteEvents (velocity key : UInt8) :
    (ctx.noteEvents s velocity key).map (Event.postponed ticks) =
      ctx.noteEvents (s.later ticks) velocity key := by
  rw [noteEvents, noteEvents, State.later, releaseTick_add]
  rfl

theorem Context.map_postponed_bendRangeEvents :
    ctx.bendRangeEvents.map (Event.postponed ticks) = ctx.bendRangeEvents := rfl

/-- **One step.** The events of an instruction are as much later as the cursor is. -/
theorem Context.events_later (i : Instruction) :
    ctx.events (s.later ticks) i = (ctx.events s i).map (Event.postponed ticks) := by
  cases i with
  | note velocity arg lengthBytes =>
    have hnote : (s.later ticks).afterNote arg lengthBytes =
        (s.afterNote arg lengthBytes).later ticks := rfl
    have hkey : ctx.soundingKey? ((s.afterNote arg lengthBytes).later ticks) arg =
        ctx.soundingKey? (s.afterNote arg lengthBytes) arg := rfl
    simp only [events, hnote, hkey]
    split
    · exact (ctx.map_postponed_noteEvents ticks _ velocity _).symm
    · rfl
  | tempo bpm =>
    simp only [events]
    split <;> rfl
  | pitchBend high low =>
    have hready : (s.later ticks).bendReady = s.bendReady := rfl
    simp only [events, hready, List.map_append]
    split
    · rfl
    · rw [map_postponed_bendRangeEvents]
      rfl
  | controller dial value =>
    have hdial : Event.setsRange ⟨s.tick, ctx.channel, .controller dial.controller value⟩ = false :=
      decide_eq_false dial.controller_not_mem
    rw [events, events, List.map_singleton, Event.postponed_of_not_setsRange hdial]
    rfl
  | _ => rfl

/-- Its warnings say nothing of the cursor. -/
theorem Context.warnings_later (offset : Nat) (i : Instruction) :
    ctx.warnings offset (s.later ticks) i = ctx.warnings offset s i := by
  cases i <;> rfl

end Step

/-! ### Whole runs -/

section Runs

variable {ctx : Context} {offset : Nat} {s : State} {is : List Instruction}

/-- **A whole run** is as much later as its start. -/
theorem Context.play_later (ctx : Context) (offset ticks : Nat) (s : State)
    (is : List Instruction) :
    ctx.play offset (s.later ticks) is = (ctx.play offset s is).later ticks := by
  induction is generalizing offset s with
  | nil => rfl
  | cons i is ih =>
    rw [play_cons, play_cons, State.after_later, ih, events_later, warnings_later]
    simp only [Decoded.later, List.map_append]

/-- So is a track with the mark at its end. -/
theorem Context.decoded_later (ctx : Context) (offset ticks : Nat) (s : State)
    (is : List Instruction) :
    ctx.decoded offset (s.later ticks) is = (ctx.decoded offset s is).later ticks := by
  rw [decoded, decoded, play_later]
  simp only [Decoded.later, List.map_append]
  rfl

/-- What sets the bend range is at tick zero, wherever the cursor is. -/
theorem Context.tick_of_setsRange_of_mem_decoded {e : Event}
    (h : e ∈ (ctx.decoded offset s is).events) (hrange : e.setsRange) : e.tick = 0 := by
  rcases List.mem_append.mp h with hplay | hmark
  · obtain ⟨i, -, s', hevent⟩ := exists_of_mem_play hplay
    rcases events_inv hevent with ⟨hcursor, -⟩ | ⟨key, rfl⟩ | hsetup
    · rw [Event.atCursor_eq_false_of_setsRange hrange] at hcursor
      cases hcursor
    · cases hrange
    · exact (bendRangeEvents_inv hsetup).1
  · obtain rfl := List.mem_singleton.mp hmark
    cases hrange

/-- Events at the cursor lie between the first and the last position of a track. -/
theorem Context.between_of_mem_decoded {e : Event} (h : e ∈ (ctx.decoded offset s is).events)
    (hcursor : e.atCursor) :
    s.tick ≤ e.tick ∧ e.tick ≤ (ctx.decoded offset s is).state.tick := by
  rcases List.mem_append.mp h with hplay | hmark
  · exact between_of_mem_play hplay hcursor
  · obtain rfl := List.mem_singleton.mp hmark
    exact ⟨tick_le_state_play, Nat.le_refl _⟩

end Runs

/-! ### Whole tracks -/

/-- **A later start.** From a position that is a number of ticks later, a track decodes exactly if
it does from the first one, and with the same fault if it does not. If it does, all is the same but
for the ticks: those of the events and of the state at the end are later by as much, except that
the bend range is still set at tick zero.

From any state, the events at the cursor, which are all but ends of notes and the setup of the bend
range, do not go back in time and lie between the first and the last position. -/
theorem Chunk.decode_later (chunk : Chunk) (data : Bytes) (track : Nat) (tables : SideTables)
    (s : State) :
    (∀ ticks, chunk.decode data track tables (s.later ticks) =
      (chunk.decode data track tables s).map (Decoded.later ticks)) ∧
    ∀ d, chunk.decode data track tables s = .ok d →
      (∀ e ∈ d.events, e.setsRange → e.tick = 0) ∧
      Ordered (d.events.filter Event.atCursor) ∧
      ∀ e ∈ d.events, e.atCursor → s.tick ≤ e.tick ∧ e.tick ≤ d.state.tick := by
  constructor
  · intro ticks
    rcases hlist : Listing.ofBytes (data.drop chunk.streamStart) with ⟨is, ending⟩
    cases ending with
    | complete rest =>
      rw [decode_of_complete hlist, decode_of_complete hlist, Context.decoded_later]
      rfl
    | unknown opcode =>
      rw [decode_of_unknown hlist, decode_of_unknown hlist]
      rfl
    | truncated =>
      rw [decode_of_truncated hlist, decode_of_truncated hlist]
      rfl
  · intro d hd
    obtain ⟨is, rest, -, rfl⟩ := decode_inv hd
    refine ⟨?_, Context.ordered_decoded _ _ _ _, ?_⟩
    · intro e he hrange
      exact Context.tick_of_setsRange_of_mem_decoded he hrange
    · intro e he hcursor
      exact Context.between_of_mem_decoded he hcursor

/-- A note that is to end before it begins, a bend, and a delay. -/
def shiftedInstructions : List Instruction :=
  [.note 100 0x60 [0], .repeatDelay, .pitchBend 0x10 0x00, .addDelay 8, .note 90 0x20 []]

/-- Seven ticks later, from a state that holds a negative delay: the first note keeps its length of
zero, and the bend range keeps its place. -/
theorem Chunk.decode_later_shiftedInstructions :
    ∃ d, (⟨0, 0, 0⟩ : Chunk).decode ([0, 0, 0, 0] ++ streamBytes shiftedInstructions ++ [0x98]) 0
        .default ⟨0, 5, 0, 1, -3, false⟩ = .ok d ∧
      (⟨0, 0, 0⟩ : Chunk).decode ([0, 0, 0, 0] ++ streamBytes shiftedInstructions ++ [0x98]) 0
        .default ⟨7, 5, 0, 1, -3, false⟩ = .ok (d.later 7) ∧
      d.events.map Event.tick = [0, 0, 0, 0, 0, 0, 0, 10, 10, 10] ∧
      (d.later 7).events.map Event.tick = [7, 7, 0, 0, 0, 0, 7, 17, 17, 17] ∧
      (d.later 7).state = ⟨17, 5, 0, 0, 5, true⟩ ∧
      Ordered (d.events.filter Event.atCursor) := by
  have hwell : ∀ i ∈ shiftedInstructions, i.WellFormed := by decide
  have hplayed : (⟨0, 0, 0⟩ : Chunk).decode
      ([0, 0, 0, 0] ++ streamBytes shiftedInstructions ++ [0x98]) 0 .default
        ⟨0, 5, 0, 1, -3, false⟩ =
        .ok (Context.decoded ⟨.default, 0⟩ 4 ⟨0, 5, 0, 1, -3, false⟩ shiftedInstructions) :=
    Chunk.decode_of_complete (Listing.ofBytes_streamBytes hwell [])
  obtain ⟨hlater, hok⟩ := Chunk.decode_later ⟨0, 0, 0⟩
    ([0, 0, 0, 0] ++ streamBytes shiftedInstructions ++ [0x98]) 0 .default ⟨0, 5, 0, 1, -3, false⟩
  have hseven := hlater 7
  rw [hplayed] at hseven
  exact ⟨_, hplayed, hseven, rfl, rfl, rfl, (hok _ hplayed).2.1⟩

end Dse

end DseMidi
