import DseMidi.Decimal.Shortest
import DseMidi.Json.Printer
import DseMidi.Track

/-!
# DseMidi.Dump

**Sequences as JSON.**

`Sequence.json` shows a sequence as it is. `Sequence.dump` adds what a reader of the
dump asks first: the tempo of the sequence in beats per minute, and for each track the
number of its notes and its length. A name is left out of the dump when it is empty,
and the tempo when no event sets it.
-/

namespace DseMidi

/-! ### Events -/

/-- A payload as JSON: text if it is non-empty printable ASCII, numbers otherwise. -/
def payloadJson (data : Bytes) : Json :=
  if !data.isEmpty && data.all fun b => 0x20 ≤ b && b < 0x7F then
    .string (String.ofList (data.map fun b => Char.ofNat b.toNat))
  else .array (data.map Json.byte)

/-- The type of a meta event as JSON. -/
def MetaType.json : MetaType → Json
  | text => .string "text"
  | sequenceName => .string "sequence_name"
  | endOfTrack => .string "end_of_track"
  | tempo => .string "tempo"
  | other byte => .object [("other", Json.byte byte)]

/-- The name of a message's type and its data, in the order of a dump. -/
def Message.fields : Message → String × List (String × Json)
  | noteOff key velocity =>
    ("note_off", [("key", Json.byte key), ("velocity", Json.byte velocity)])
  | noteOn key velocity =>
    ("note_on", [("key", Json.byte key), ("velocity", Json.byte velocity)])
  | noteAftertouch key pressure =>
    ("note_aftertouch", [("key", Json.byte key), ("pressure", Json.byte pressure)])
  | controller number value =>
    ("controller", [("controller", Json.byte number), ("value", Json.byte value)])
  | programChange program => ("program_change", [("program", Json.byte program)])
  | channelAftertouch pressure =>
    ("channel_aftertouch", [("pressure", Json.byte pressure)])
  | pitchBend lsb msb => ("pitch_bend", [("lsb", Json.byte lsb), ("msb", Json.byte msb)])
  | metaEvent type data => ("meta", [("kind", type.json), ("data", payloadJson data)])
  | sysEx status data => ("sys_ex", [("status", Json.byte status), ("data", payloadJson data)])

/-- An event as JSON: time and channel, then its message. -/
def Event.json (e : Event) : Json :=
  let (type, fields) := e.message.fields
  .object ([("tick", .nat e.tick), ("channel", Json.byte e.channel), ("type", .string type)]
    ++ fields)

/-! ### Tempo -/

/-- The microseconds in a quarter note that a message sets. Only a tempo event with
exactly three bytes sets any. -/
def Message.quarterMicros? : Message → Option Nat
  | metaEvent .tempo [high, mid, low] => some (beNat [high, mid, low])
  | _ => none

/-- The tempo settings of a sequence with their ticks, track by track. -/
def Sequence.tempos (s : Sequence) : List (Nat × Nat) :=
  s.tracks.flatMap fun t => t.events.filterMap fun e =>
    e.message.quarterMicros?.map fun micros => (e.tick, micros)

/-- The entry with the least tick, the first of them if there are several. -/
def earliest? : List (Nat × Nat) → Option (Nat × Nat)
  | [] => none
  | entry :: rest =>
    match earliest? rest with
    | none => some entry
    | some later => if later.1 < entry.1 then some later else some entry

/-- The microseconds in a quarter note with which the sequence starts. -/
def Sequence.openingTempo? (s : Sequence) : Option Nat :=
  (earliest? s.tempos).map (·.2)

/-- Beats per minute for microseconds in a quarter note, as the shortest decimal that
reads back as the 53-bit quotient. A quarter note without length has no beats. -/
def beatsPerMinute (micros : Nat) : Decimal :=
  if micros = 0 then ⟨0, 0⟩ else (Binary.ofQuotient 60000000 micros).shortest

/-! ### Tracks and sequences -/

/-- A track as it is. -/
def Track.json (t : Track) : Json :=
  .object [("channel", Json.byte t.channel), ("events", .array (t.events.map Event.json))]

/-- A sequence as it is. -/
def Sequence.json (s : Sequence) : Json :=
  .object [("name", .string s.name), ("time_division", .nat s.timeDivision.toNat),
    ("tracks", .array (s.tracks.map Track.json))]

/-- A track with its number of notes and its length. -/
def Track.dump (t : Track) : Json :=
  .object [("channel", Json.byte t.channel), ("notes", .nat t.noteCount),
    ("length", .nat t.duration), ("events", .array (t.events.map Event.json))]

/-- A sequence with its tempo and the summaries of its tracks. -/
def Sequence.dump (s : Sequence) : Json :=
  let name := if s.name = "" then [] else [("name", Json.string s.name)]
  let tempo := match s.openingTempo? with
    | none => []
    | some micros => [("bpm", Json.decimal (beatsPerMinute micros))]
  .object (name ++ [("time_division", .nat s.timeDivision.toNat)] ++ tempo
    ++ [("tracks", .array (s.tracks.map Track.dump))])

end DseMidi
