import DseMidi.Track
import DseMidi.Quantity

/-!
# DseMidi.Smf.Image

**Standard MIDI Files as they are written**: format 1, one chunk for each track.

A track becomes the body of a chunk by itself; an `Image` collects bodies and lays
the file out when all of them, and so all lengths, are known. Fields have the widths
that the format gives them: channels keep four bits, data bytes seven, and counts
and lengths wrap at the width of their field.
-/

namespace DseMidi.Smf

/-! ### Events -/

/-- A channel voice message on the wire: status nibble and channel in one byte, then
the data bytes without their top bit. -/
def voiceBytes (status channel : UInt8) (data : Bytes) : Bytes :=
  (status ||| (channel &&& 0x0F)) :: data.map (· &&& 0x7F)

/-- A payload behind its length. -/
def payloadBytes (data : Bytes) : Bytes :=
  Quantity.encode data.length ++ data

/-- An event on the wire, without its time. -/
def eventBytes (e : Event) : Bytes :=
  match e.message with
  | .noteOff key velocity => voiceBytes 0x80 e.channel [key, velocity]
  | .noteOn key velocity => voiceBytes 0x90 e.channel [key, velocity]
  | .noteAftertouch key pressure => voiceBytes 0xA0 e.channel [key, pressure]
  | .controller number value => voiceBytes 0xB0 e.channel [number, value]
  | .programChange program => voiceBytes 0xC0 e.channel [program]
  | .channelAftertouch pressure => voiceBytes 0xD0 e.channel [pressure]
  | .pitchBend lsb msb => voiceBytes 0xE0 e.channel [lsb, msb]
  | .metaEvent type data => 0xFF :: type.toByte :: payloadBytes data
  | .sysEx status data => status :: payloadBytes data

/-! ### Tracks -/

/-- Events behind one at tick `last`, each after the time that has passed. -/
def eventsBytes (last : Nat) : List Event → Bytes
  | [] => []
  | e :: rest => Quantity.encode (e.tick - last) ++ eventBytes e ++ eventsBytes e.tick rest

/-- The mark at the end of every track. -/
def endOfTrack : Bytes := [0x00, 0xFF, 0x2F, 0x00]

/-- The body of a track's chunk. The events are expected in the order of their ticks. -/
def trackBody (t : Track) : Bytes :=
  eventsBytes 0 t.events ++ endOfTrack

@[simp] theorem eventsBytes_nil (last : Nat) : eventsBytes last [] = [] := rfl

@[simp] theorem eventsBytes_cons (last : Nat) (e : Event) (rest : List Event) :
    eventsBytes last (e :: rest) =
      Quantity.encode (e.tick - last) ++ eventBytes e ++ eventsBytes e.tick rest := rfl

/-! ### Files -/

/-- The identifier of a header chunk: `MThd`. -/
def headerTag : Bytes := [0x4D, 0x54, 0x68, 0x64]

/-- The identifier of a track chunk: `MTrk`. -/
def trackTag : Bytes := [0x4D, 0x54, 0x72, 0x6B]

/-- A chunk: identifier, length, data. -/
def chunkBytes (tag data : Bytes) : Bytes :=
  tag ++ beBytes 4 data.length ++ data

/-- A file in the making. -/
structure Image where
  timeDivision : UInt16
  /-- The bodies of the tracks so far. -/
  bodies : List Bytes

namespace Image

/-- The image without tracks. -/
def empty (timeDivision : UInt16) : Image := ⟨timeDivision, []⟩

/-- The image with a further track. -/
def push (image : Image) (t : Track) : Image :=
  { image with bodies := image.bodies ++ [trackBody t] }

/-- The number of tracks so far. -/
def trackCount (image : Image) : Nat := image.bodies.length

/-- The contents of the header chunk: format 1, the track count, the division. -/
def headerData (image : Image) : Bytes :=
  beBytes 2 1 ++ beBytes 2 image.trackCount ++ beBytes 2 image.timeDivision.toNat

/-- The laid-out file. -/
def bytes (image : Image) : Bytes :=
  chunkBytes headerTag image.headerData ++ image.bodies.flatMap (chunkBytes trackTag)

/-- Tracks are added at the end, one after the other. -/
theorem foldl_push (image : Image) (tracks : List Track) :
    tracks.foldl push image =
      ⟨image.timeDivision, image.bodies ++ tracks.map trackBody⟩ := by
  induction tracks generalizing image with
  | nil => simp
  | cons t rest ih => rw [List.foldl_cons, ih]; simp [push]

end Image

/-- The image of a whole sequence. -/
def image (s : Sequence) : Image :=
  s.tracks.foldl Image.push (Image.empty s.timeDivision)

/-- A sequence as a Standard MIDI File. -/
def encode (s : Sequence) : Bytes :=
  (image s).bytes

end DseMidi.Smf
