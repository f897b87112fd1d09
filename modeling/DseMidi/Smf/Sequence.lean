import DseMidi.Smf.Chunk
import DseMidi.Smf.Wire
import DseMidi.Text.Utf8

/-!
# DseMidi.Smf.Sequence

**Sequences from MIDI files.**

Times become absolute and end-of-track events go; all other events of a track are kept
in order. In a file with one track for all channels the events are dealt out to sixteen
tracks, one for each channel; in a file with parallel tracks each keeps its events and
takes the channel of its first channel voice message.
-/

namespace DseMidi.Smf

/-! ### Tracks -/

/-- Whether the event marks the end of its track. -/
def WireEvent.isEndOfTrack (w : WireEvent) : Bool :=
  match w.message with
  | .metaEvent .endOfTrack _ => true
  | _ => false

/-- The events at their absolute ticks, counted from `start`. The time of an
end-of-track event counts although the event goes. -/
def absoluteFrom (start : Nat) : List WireEvent → List Event
  | [] => []
  | w :: rest =>
    let tick := start + w.delta
    -- Tracks that were joined without care go on behind such an event.
    if w.isEndOfTrack then absoluteFrom tick rest
    else ⟨tick, w.channel, w.message⟩ :: absoluteFrom tick rest

/-- The events in the data of a track chunk. -/
def trackEvents (data : Bytes) : List Event :=
  absoluteFrom 0 (readEvents data)

/-! ### Layout by format -/

/-- The track that an event of a one-track file belongs to: its channel's, or the first
if it belongs to no channel. -/
def homeTrack (e : Event) : UInt8 :=
  if e.message.isChannelVoice then e.channel &&& 0x0F else 0

/-- The tracks of the sixteen channels. -/
def splitByChannel (events : List Event) : List Track :=
  (List.range 16).map fun channel =>
    ⟨UInt8.ofNat channel, events.filter fun e => homeTrack e = UInt8.ofNat channel⟩

/-- The channel of the first channel voice message, zero if there is none. -/
def firstChannel (events : List Event) : UInt8 :=
  ((events.find? fun e => e.message.isChannelVoice).map (·.channel)).getD 0

/-- The tracks of a file, unless its tracks do not play together. -/
def layOut : Format → List Bytes → Except Fault (List Track)
  | .single, data => .ok (splitByChannel (data.flatMap trackEvents))
  | .parallel, data => .ok (data.map fun d => ⟨firstChannel (trackEvents d), trackEvents d⟩)
  | .sequential, _ => .error .sequentialFormat

/-! ### Sequences -/

/-- The name that an event gives to its sequence. -/
def sequenceName? (e : Event) : Option Bytes :=
  match e.message with
  | .metaEvent .sequenceName data => some data
  | _ => none

/-- The name of a sequence: the first one that an event of the first track gives. -/
def nameOfTracks (tracks : List Track) : String :=
  match tracks with
  | [] => ""
  | first :: _ => ((first.events.findSome? sequenceName?).map Utf8.decodeLossy).getD ""

/-- Reads a MIDI file. -/
def decode (data : Bytes) : Except Fault Sequence := do
  let (header, trackData) ← (readLayout data).mapError Fault.smf
  let tracks ← layOut header.format trackData
  .ok ⟨nameOfTracks tracks, header.timeDivision, tracks⟩

end DseMidi.Smf
