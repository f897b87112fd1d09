import DseMidi.Smf.Image
import DseMidi.Smf.TimeCode

/-!
# DseMidi.Smf.Chunk

**The outer layout of MIDI files as they are found**: chunks, and the RIFF container
that may be around them.

Reading is forgiving where a file is cut short. A chunk whose length goes past the end
takes what is left, chunks with unknown identifiers are passed over, the track count of
the header is not looked at, and nothing behind the header can make the file invalid: a
chunk that cannot be read only ends the list of tracks.
-/

namespace DseMidi.Smf

/-! ### The header -/

/-- How the tracks of a file belong together. -/
inductive Format
  /-- All channels in one track. -/
  | single
  /-- Tracks that play together. -/
  | parallel
  /-- Tracks that are independent patterns. -/
  | sequential
  deriving DecidableEq

/-- The format with a number. -/
def Format.ofNat? : Nat → Option Format
  | 0 => some single
  | 1 => some parallel
  | 2 => some sequential
  | _ => none

/-- The contents of a header chunk. -/
structure FileHeader where
  format : Format
  /-- The division as it stands in the file. -/
  timeDivision : UInt16
  deriving DecidableEq

/-- Reads the contents of a header chunk. Bytes behind the division are not looked at. -/
def FileHeader.ofBytes? : Bytes → Option FileHeader
  | f₁ :: f₀ :: _ :: _ :: d₁ :: d₀ :: _ =>
    if isDivision d₁ then
      (Format.ofNat? (beNat [f₁, f₀])).map fun format =>
        ⟨format, UInt16.ofNat (beNat [d₁, d₀])⟩
    else none
  | _ => none

/-! ### Chunks -/

/-- A chunk of a kind that is known. -/
inductive Chunk
  | header (contents : FileHeader)
  | track (data : Bytes)
  /-- Something that is no chunk, or a header that cannot be used. Nothing is read
  behind it. -/
  | unreadable
  deriving DecidableEq

/-- The data of a track chunk. -/
def Chunk.trackData? : Chunk → Option Bytes
  | track data => some data
  | _ => none

/-- The chunks of a file, without those of unknown kind. -/
def chunks : Bytes → List Chunk
  | [] => []
  | t₃ :: t₂ :: t₁ :: t₀ :: n₃ :: n₂ :: n₁ :: n₀ :: rest =>
    let tag := [t₃, t₂, t₁, t₀]
    let length := beNat [n₃, n₂, n₁, n₀]
    let data := rest.take length
    if tag = headerTag then
      match FileHeader.ofBytes? data with
      | some contents => .header contents :: chunks (rest.drop length)
      -- A header that cannot be used hides the chunks behind it.
      | none => [.unreadable]
    else if tag = trackTag then
      .track data :: chunks (rest.drop length)
    else chunks (rest.drop length)
  | _ => [.unreadable]
termination_by bytes => bytes.length
decreasing_by all_goals simp only [List.length_cons, List.length_drop]; omega

/-! ### RIFF -/

/-- The identifier of a RIFF container: `RIFF`. -/
def riffTag : Bytes := [0x52, 0x49, 0x46, 0x46]

/-- What a RIFF container with a MIDI file says that it is: `RMID`. -/
def rmidTag : Bytes := [0x52, 0x4D, 0x49, 0x44]

/-- The identifier of the chunk with the MIDI file: `data`. -/
def riffDataTag : Bytes := [0x64, 0x61, 0x74, 0x61]

/-- The data of the first `data` chunk. A chunk of odd length has a byte of padding, and
lengths are little-endian, unlike those in a MIDI file. -/
def riffData? : Bytes → Option Bytes
  | t₃ :: t₂ :: t₁ :: t₀ :: n₀ :: n₁ :: n₂ :: n₃ :: rest =>
    let length := leNat [n₀, n₁, n₂, n₃]
    if [t₃, t₂, t₁, t₀] = riffDataTag then some (rest.take length)
    else riffData? (rest.drop (length + length % 2))
  | _ => none
termination_by bytes => bytes.length
decreasing_by all_goals simp only [List.length_cons, List.length_drop]; omega

/-- The MIDI file in a RIFF container. -/
def unwrapRiff : Bytes → Except SmfFault Bytes
  | _ :: _ :: _ :: _ :: n₀ :: n₁ :: n₂ :: n₃ :: rest =>
    match splitExact 4 (rest.take (leNat [n₀, n₁, n₂, n₃])) with
    | none => .error .noRiffFormType
    | some (formType, contents) =>
      if formType = rmidTag then
        match riffData? contents with
        | some data => .ok data
        | none => .error .noRmidData
      else .error .notRmid
  | _ => .error .noRiffChunk

/-! ### Files -/

/-- The chunks of a file, inside a RIFF container or not. -/
def chunksOfFile (data : Bytes) : Except SmfFault (List Chunk) :=
  if data.take 4 = riffTag then (unwrapRiff data).map chunks
  else if data.take 4 = headerTag then .ok (chunks data)
  else .error .notMidi

/-- The header of a file and the data of its tracks. -/
def readLayout (data : Bytes) : Except SmfFault (FileHeader × List Bytes) := do
  match ← chunksOfFile data with
  | [] => .error .noHeader
  | .unreadable :: _ => .error .invalidHeader
  | .track _ :: _ => .error .trackBeforeHeader
  | .header contents :: rest => .ok (contents, rest.filterMap Chunk.trackData?)

end DseMidi.Smf
