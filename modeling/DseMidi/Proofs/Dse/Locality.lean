import DseMidi.Proofs.Dse.Timeline

/-!
# DseMidi.Proofs.Dse.Locality

**What a track's events depend on.** Where its instructions stand in the file does not matter
to what they play: the position only goes into warnings, which move with it (`Fault.shift`;
`Fault.unplaced` takes it out altogether), and the number of the track only into warnings and
into the provisional channel, which is gone once the track is moved to another. So the words of
a stream say what it plays (`instructionsOf`), in whatever file they stand and whatever is
around them.
-/

namespace DseMidi

/-- A warning without its position in the file. -/
def Fault.unplaced : Fault → Fault
  | .droppedNote track key _ => .droppedNote track key 0
  | .ignoredTempo track _ => .ignoredTempo track 0
  | fault => fault

/-- The fault as it is when `n` more bytes stand in front of its place in the file. -/
def Fault.shift (n : Nat) : Fault → Fault
  | .notATrack track offset found => .notATrack track (offset + n) found
  | .truncated offset length => .truncated (offset + n) (length + n)
  | .unterminatedQuantity offset => .unterminatedQuantity (offset + n)
  | .unknownOpcode opcode offset => .unknownOpcode opcode (offset + n)
  | .droppedNote track key offset => .droppedNote track key (offset + n)
  | .ignoredTempo track offset => .ignoredTempo track (offset + n)
  | fault => fault

/-- Without its position, a warning is the same wherever it is given. -/
theorem Fault.unplaced_shift {w : Fault} (h : w.isWarning) (n : Nat) :
    (w.shift n).unplaced = w.unplaced := by
  cases w with
  | droppedNote track key offset => rfl
  | ignoredTempo track offset => rfl
  | _ => cases h

namespace Dse

/-! ### From words to instructions -/

/-- The instructions that the words of a track spell. -/
def instructionsOf (words : List Bytes) : List Instruction :=
  (Listing.ofBytes (words.flatten ++ [endOpcode])).instructions

/-- A stream that spells words up to the end opcode is listed as their instructions. -/
theorem Spells.exists_ofBytes {stream : Bytes} {words : List Bytes}
    (h : Spells stream words endOpcode) :
    ∃ rest, Listing.ofBytes stream = ⟨instructionsOf words, .complete rest⟩ := by
  obtain ⟨hwords, rest, rfl⟩ := h
  obtain ⟨is, -, hlist⟩ := Listing.ofBytes_of_end hwords
  refine ⟨rest, ?_⟩
  rw [instructionsOf, hlist, hlist]

/-! ### Position -/

section Position

variable {ctx : Context} {offset : Nat} {s : State} {is : List Instruction}

/-- A run emits the same wherever it stands. -/
theorem Context.events_play_eq (offset offset' : Nat) :
    (ctx.play offset s is).events = (ctx.play offset' s is).events := by
  induction is generalizing offset offset' s with
  | nil => rfl
  | cons i is ih => rw [play_cons, play_cons, ih]

theorem Context.events_decoded_eq (offset offset' : Nat) :
    (ctx.decoded offset s is).events = (ctx.decoded offset' s is).events := by
  rw [decoded, decoded, events_play_eq offset offset', state_play, state_play]

/-- The warnings of an instruction move with it. -/
theorem Context.warnings_shift (offset n : Nat) (i : Instruction) :
    ctx.warnings (offset + n) s i = (ctx.warnings offset s i).map (Fault.shift n) := by
  cases i with
  | note velocity arg lengthBytes =>
    simp only [warnings]
    split <;> rfl
  | tempo bpm =>
    simp only [warnings]
    split <;> rfl
  | _ => rfl

/-- So do those of a run. -/
theorem Context.warnings_play_shift (offset n : Nat) :
    (ctx.play (offset + n) s is).warnings =
      (ctx.play offset s is).warnings.map (Fault.shift n) := by
  induction is generalizing offset s with
  | nil => rfl
  | cons i is ih =>
    rw [play_cons, play_cons, List.map_append, warnings_shift, Nat.add_right_comm offset n i.size,
      ih]

theorem Context.isWarning_of_mem_play {w : Fault} (h : w ∈ (ctx.play offset s is).warnings) :
    w.isWarning := by
  induction is generalizing offset s with
  | nil => cases h
  | cons i is ih =>
    rw [play_cons] at h
    rcases List.mem_append.mp h with h | h
    · exact isWarning_of_mem_warnings h
    · exact ih h

/-- A run warns of the same wherever it stands, but for the positions. -/
theorem Context.unplaced_warnings_play (offset offset' : Nat) :
    (ctx.play offset s is).warnings.map Fault.unplaced =
      (ctx.play offset' s is).warnings.map Fault.unplaced := by
  have hzero : ∀ offset, (ctx.play offset s is).warnings.map Fault.unplaced =
      (ctx.play 0 s is).warnings.map Fault.unplaced := by
    intro offset
    rw [← Nat.zero_add offset, warnings_play_shift, List.map_map]
    refine List.map_congr_left ?_
    intro w hw
    exact Fault.unplaced_shift (isWarning_of_mem_play hw) offset
  rw [hzero offset, hzero offset']

end Position

/-! ### Track number -/

section Number

variable {tables : SideTables} {s : State}

/-- On a given channel, an instruction emits the same as part of any track. -/
theorem Context.map_onChannel_events (track track' : Nat) (i : Instruction) (channel : UInt8) :
    (Context.events ⟨tables, track⟩ s i).map (Event.onChannel channel) =
      (Context.events ⟨tables, track'⟩ s i).map (Event.onChannel channel) := by
  cases i with
  | note velocity arg lengthBytes =>
    have hkey : Context.soundingKey? ⟨tables, track⟩ (s.afterNote arg lengthBytes) arg =
      Context.soundingKey? ⟨tables, track'⟩ (s.afterNote arg lengthBytes) arg := rfl
    simp only [events, hkey]
    split <;> rfl
  | pitchBend high low =>
    simp only [events]
    split <;> rfl
  | _ => rfl

theorem Context.map_onChannel_play (track track' offset : Nat) (is : List Instruction)
    (channel : UInt8) :
    (Context.play ⟨tables, track⟩ offset s is).events.map (Event.onChannel channel) =
      (Context.play ⟨tables, track'⟩ offset s is).events.map (Event.onChannel channel) := by
  induction is generalizing offset s with
  | nil => rfl
  | cons i is ih =>
    rw [play_cons, play_cons, List.map_append, List.map_append, map_onChannel_events track track',
      ih]

theorem Context.map_onChannel_decoded (track track' offset offset' : Nat)
    (is : List Instruction) (channel : UInt8) :
    (Context.decoded ⟨tables, track⟩ offset s is).events.map (Event.onChannel channel) =
      (Context.decoded ⟨tables, track'⟩ offset' s is).events.map (Event.onChannel channel) := by
  rw [events_decoded_eq offset offset', decoded, decoded, List.map_append, List.map_append,
    map_onChannel_play track track', state_play, state_play]

end Number

end Dse

end DseMidi
