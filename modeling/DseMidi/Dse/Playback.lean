import DseMidi.SideTables
import DseMidi.Dse.Container
import DseMidi.Dse.Listing

/-!
# DseMidi.Dse.Playback

**What a track's instructions sound like.**

A `State` holds all that a track remembers between two instructions. Playing one
instruction is three separate functions of the state before it:

* `State.after` is the state behind it. It depends on no tables and no track
  number, so the timing of a track never does either.
* `Context.events` are the MIDI events it gives, in order.
* `Context.warnings` are the problems skipped over, with the instruction's offset.

`Context.play` strings these together over a list of instructions and
`Chunk.decode` applies it to one track of a file. Delays and note lengths are doubled
on the way, since a tick of the output is half a tick of the sequence.
-/

namespace DseMidi.Dse

/-! ### The memory of a track -/

/-- What a track remembers between instructions. -/
structure State where
  /-- The current position, in output ticks. -/
  tick : Nat
  octave : Int
  /-- The selected program, before any table is applied. -/
  program : UInt8
  /-- The length of notes that bring none of their own. -/
  defaultLength : Nat
  /-- The delay that the next one can repeat or change. -/
  priorDelay : Int
  /-- Whether the bend range has been sent. -/
  bendReady : Bool
  deriving DecidableEq

namespace State

/-- The state at the start of a track. -/
def initial : State := ⟨0, 0, 0, 1, 0, false⟩

/-- The octave change in a note's argument byte, from two down to one up. -/
def octaveShift (arg : UInt8) : Int :=
  ((arg.toNat / 16 % 4 : Nat) : Int) - 2

/-- The key of a note in the current octave. -/
def noteKey (s : State) (arg : UInt8) : Int :=
  s.octave * 12 + ((arg.toNat % 16 : Nat) : Int)

/-- The state from which a note sounds: its octave change has happened and its
length, if it brings one, is remembered. -/
def afterNote (s : State) (arg : UInt8) (lengthBytes : Bytes) : State :=
  { s with
    octave := s.octave + octaveShift arg
    defaultLength := if lengthBytes.isEmpty then s.defaultLength else beNat lengthBytes }

/-- Waits for a number of the sequence's ticks and remembers it. A negative delay does
not move the position. -/
def delay (s : State) (ticks : Int) : State :=
  { s with tick := s.tick + 2 * ticks.toNat, priorDelay := ticks }

/-- The state behind an instruction. -/
def after (s : State) : Instruction → State
  | .note _ arg lengthBytes => s.afterNote arg lengthBytes
  | .fixedDelay index => s.delay (fixedDelays.get index)
  | .repeatDelay => s.delay s.priorDelay
  | .addDelay delta => s.delay (max (s.priorDelay + delta.toInt8.toInt) 0)
  | .delay8 ticks => s.delay ticks.toNat
  | .delay16 low high => s.delay (leNat [low, high])
  | .setOctave octave => { s with octave := octave.toNat }
  | .program number => { s with program := number &&& 0x7F }
  | .pitchBend _ _ => { s with bendReady := true }
  | .loopStart | .tempo _ | .controller _ _ | .verbatim _ _ => s

/-- Time never runs backwards. -/
theorem tick_le_after (s : State) (i : Instruction) : s.tick ≤ (s.after i).tick := by
  cases i <;> simp [after, afterNote, delay]

end State

/-! ### Values derived from operands -/

/-- The tick of the note off for a note that starts at `tick`: one tick before the
note's length is over, but not before the note. -/
def releaseTick (tick length : Nat) : Nat :=
  max (tick + 2 * length - 1) tick

/-- Microseconds in a quarter note at a tempo; there is no answer for a tempo of zero. -/
def quarterMicros? (bpm : UInt8) : Option Nat :=
  if bpm = 0 then none else some (60000000 / bpm.toNat)

/-- The two seven-bit halves of a pitch bend: the 16-bit signed bend is moved to the
unsigned range and loses its two lowest bits. -/
def bendHalves (raw : UInt16) : UInt8 × UInt8 :=
  let pitch := (raw + 0x8000).toNat
  (UInt8.ofNat (pitch / 4 % 128), UInt8.ofNat (pitch / 512))

/-- The semitones that a full pitch bend covers. -/
def bendSemitones : UInt8 := 8

/-- The text at the end of a track: `end`. -/
def endMarker : Bytes := asciiBytes ['e', 'n', 'd']

/-- The text at a loop's start: `loopStart`. -/
def loopMarker : Bytes :=
  asciiBytes ['l', 'o', 'o', 'p', 'S', 't', 'a', 'r', 't']

/-- The text of an instruction without meaning in MIDI: its bytes in hexadecimal,
separated by colons. -/
def verbatimText (opcode : UInt8) (args : Bytes) : Bytes :=
  asciiBytes (hexByte opcode ++ args.flatMap fun b => ':' :: hexByte b)

/-! ### Events and warnings -/

/-- What is fixed while a track is played. -/
structure Context where
  tables : SideTables
  /-- The number of the track. -/
  track : Nat

namespace Context

/-- The channel of the track's events until channels are assigned. -/
def channel (ctx : Context) : UInt8 := UInt8.ofNat ctx.track

/-- The MIDI key of a note that sounds from state `s`, unless it has none. -/
def soundingKey? (ctx : Context) (s : State) (arg : UInt8) : Option UInt8 :=
  (SideTables.keyByte? (s.noteKey arg)).bind (ctx.tables.keyFor s.program)

/-- The controllers that set the range of pitch bends. They stand at the start of the
track, wherever its first bend is. -/
def bendRangeEvents (ctx : Context) : List Event :=
  [⟨0, ctx.channel, .controller Controller.parameterMsb 0⟩,
   ⟨0, ctx.channel, .controller Controller.parameterLsb 0⟩,
   ⟨0, ctx.channel, .controller Controller.dataEntryMsb bendSemitones⟩,
   ⟨0, ctx.channel, .controller Controller.dataEntryLsb 0⟩]

/-- The start and the end of a note that sounds from state `s`. -/
def noteEvents (ctx : Context) (s : State) (velocity key : UInt8) : List Event :=
  [⟨s.tick, ctx.channel, .noteOn key velocity⟩,
   .noteOff (releaseTick s.tick s.defaultLength) ctx.channel key]

/-- The events of an instruction played from state `s`. -/
def events (ctx : Context) (s : State) : Instruction → List Event
  | .note velocity arg lengthBytes =>
    let s := s.afterNote arg lengthBytes
    match ctx.soundingKey? s arg with
    | some key => ctx.noteEvents s velocity key
    | none => []
  | .loopStart => [.ofMeta s.tick (.text loopMarker)]
  | .tempo bpm =>
    match quarterMicros? bpm with
    | some micros => [.ofMeta s.tick (.tempo micros)]
    | none => []
  | .program number =>
    [⟨s.tick, ctx.channel, .programChange (ctx.tables.programFor (number &&& 0x7F))⟩]
  | .controller dial value => [⟨s.tick, ctx.channel, .controller dial.controller value⟩]
  | .pitchBend high low =>
    let (lsb, msb) := bendHalves (UInt16.ofNat (beNat [high, low]))
    (if s.bendReady then [] else ctx.bendRangeEvents)
      ++ [⟨s.tick, ctx.channel, .pitchBend lsb msb⟩]
  | .verbatim opcode args => [.ofMeta s.tick (.text (verbatimText opcode args))]
  | .fixedDelay _ | .repeatDelay | .addDelay _ | .delay8 _ | .delay16 _ _ | .setOctave _ => []

/-- The warnings of an instruction at `offset` played from state `s`. -/
def warnings (ctx : Context) (offset : Nat) (s : State) : Instruction → List Fault
  | .note _ arg lengthBytes =>
    let s := s.afterNote arg lengthBytes
    match ctx.soundingKey? s arg with
    | some _ => []
    | none => [.droppedNote ctx.track (s.noteKey arg) offset]
  | .tempo bpm =>
    match quarterMicros? bpm with
    | some _ => []
    | none => [.ignoredTempo ctx.track offset]
  | _ => []

/-- Only recoverable faults are warnings. -/
theorem isWarning_of_mem_warnings {ctx : Context} {offset : Nat} {s : State}
    {i : Instruction} {w : Fault} (h : w ∈ ctx.warnings offset s i) : w.isWarning := by
  unfold warnings at h
  split at h
  · dsimp only at h
    split at h
    · cases h
    · obtain rfl := List.mem_singleton.1 h
      rfl
  · split at h
    · cases h
    · obtain rfl := List.mem_singleton.1 h
      rfl
  · cases h

end Context

/-! ### Whole tracks -/

/-- What playing instructions gives. -/
structure Decoded where
  /-- The events, in the order of the instructions and not of their ticks. -/
  events : List Event
  /-- The state behind the last instruction. -/
  state : State
  /-- The problems skipped over, in order. -/
  warnings : List Fault

/-- Plays instructions, the first of which stands at `offset`, from state `s`. -/
def Context.play (ctx : Context) (offset : Nat) (s : State) : List Instruction → Decoded
  | [] => ⟨[], s, []⟩
  | i :: rest =>
    let following := ctx.play (offset + i.size) (s.after i) rest
    { following with
      events := ctx.events s i ++ following.events
      warnings := ctx.warnings offset s i ++ following.warnings }

@[simp] theorem Context.play_nil (ctx : Context) (offset : Nat) (s : State) :
    ctx.play offset s [] = ⟨[], s, []⟩ := rfl

/-- The state behind a list of instructions is theirs alone. -/
theorem Context.state_play (ctx : Context) (offset : Nat) (s : State) (is : List Instruction) :
    (ctx.play offset s is).state = is.foldl State.after s := by
  induction is generalizing offset s with
  | nil => rfl
  | cons i is ih => exact ih (offset + i.size) (s.after i)

/-- Decodes the track that a chunk places in a file, as track number `track`, from
`state`. The opcodes run to the end of the track, wherever the declared length of the
chunk ends; a text marks that end. -/
def Chunk.decode (chunk : Chunk) (data : Bytes) (track : Nat) (tables : SideTables)
    (state : State) : Except Fault Decoded :=
  let listing := Listing.ofBytes (data.drop chunk.streamStart)
  match listing.ending with
  | .complete _ =>
    let played := Context.play ⟨tables, track⟩ chunk.streamStart state listing.instructions
    .ok { played with
      events := played.events ++ [.ofMeta played.state.tick (.text endMarker)] }
  | .unknown opcode =>
    .error (.unknownOpcode opcode (chunk.streamStart + streamSize listing.instructions))
  | .truncated => .error (.truncated (max data.length chunk.streamStart) data.length)

end DseMidi.Dse
