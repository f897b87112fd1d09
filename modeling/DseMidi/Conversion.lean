import DseMidi.ChannelAllocation
import DseMidi.Dse.Playback
import DseMidi.Smf.Image

/-!
# DseMidi.Conversion

**From a DSE sequence to a Standard MIDI File.**

`load` reads the container, decodes its tracks one by one, orders each by tick and
assigns channels; `convert` writes the result as a MIDI file. Every track starts from
the same state, so tracks influence each other only through their channel numbers. The
first fault of the container or of a track ends the conversion; the warnings of all
tracks are kept in track order.
-/

namespace DseMidi

/-- Ticks in a quarter note of the output. -/
def outputDivision : UInt16 := 96

/-- A sequence and the problems skipped over while it was decoded. -/
structure Loaded where
  sequence : Sequence
  warnings : List Fault

/-- The events of a decoded track in output order. The first track also carries the
name of the sequence, in front of its events at tick zero. -/
def Dse.Decoded.toTrack (d : Dse.Decoded) (name : String) (index : Nat) : Track :=
  let title := if index = 0 then [Event.ofMeta 0 (.metaEvent .sequenceName (utf8Bytes name))]
    else []
  Track.sort ⟨UInt8.ofNat index, title ++ d.events⟩

/-- The tracks of `chunks`, the first of which is number `index`, each with its warnings. -/
def loadTracks (tables : SideTables) (data : Bytes) (name : String) :
    Nat → List Dse.Chunk → Except Fault (List (Track × List Fault))
  | _, [] => .ok []
  | index, chunk :: rest => do
    let decoded ← chunk.decode data index tables .initial
    let following ← loadTracks tables data name (index + 1) rest
    .ok ((decoded.toTrack name index, decoded.warnings) :: following)

/-- Decodes a DSE sequence into ordered tracks with channels. -/
def load (tables : SideTables) (data : Bytes) : Except Fault Loaded := do
  let header ← Dse.Header.read data
  let tracks ← loadTracks tables data header.name 0 header.tracks
  .ok {
    sequence := ⟨header.name, outputDivision, allocateChannels (tracks.map (·.1))⟩
    warnings := tracks.flatMap (·.2) }

/-- Converts a DSE sequence to a Standard MIDI File. -/
def convert (tables : SideTables) (data : Bytes) : Except Fault Bytes :=
  (load tables data).map fun loaded => Smf.encode loaded.sequence

end DseMidi
