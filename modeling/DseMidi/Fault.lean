import DseMidi.Bytes

/-!
# DseMidi.Fault

**What can go wrong, by cause, and how it is said.**

One type covers both the failures that end a conversion and the warnings that
accompany a successful one; `Fault.isWarning` tells them apart. Offsets are
positions in the file that was being read. The wording lives in `message` alone,
so that code and theorems speak of causes only.
-/

namespace DseMidi

/-! ### Faults of a MIDI file's outer layout -/

/-- Why the outer layout of a MIDI file is refused. Faults inside a track are not
listed: they end the track and keep what was read of it. -/
inductive SmfFault
  /-- The file starts neither like a MIDI file nor like a RIFF container. -/
  | notMidi
  /-- The first chunk could not be read, or is a header with unusable contents. -/
  | invalidHeader
  /-- A track stands where the header should. -/
  | trackBeforeHeader
  /-- The chunks end before any header. -/
  | noHeader
  /-- The RIFF container has no chunk at all. -/
  | noRiffChunk
  /-- The RIFF container is too short to say what it contains. -/
  | noRiffFormType
  /-- The RIFF container holds something other than a MIDI file. -/
  | notRmid
  /-- The RIFF container has no `data` chunk. -/
  | noRmidData
  deriving DecidableEq

/-- The wording of an outer-layout fault. -/
def SmfFault.message : SmfFault → String
  | notMidi => "not a midi file"
  | invalidHeader => "invalid midi header"
  | trackBeforeHeader => "expected header, found track"
  | noHeader => "no midi header chunk"
  | noRiffChunk => "no main riff chunk"
  | noRiffFormType => "failed to read riff formtype"
  | notRmid => "not an rmid riff file"
  | noRmidData => "no rmid data chunk"

/-! ### Faults of the file system -/

/-- Why a file could not be read or created. -/
inductive FileFault
  /-- Nothing is there, or a directory on the way is missing. -/
  | notFound
  /-- A directory stands where a file should. -/
  | isDirectory
  /-- A file stands where a directory should. -/
  | notDirectory
  /-- A name, or the whole path, is longer than the system allows. -/
  | nameTooLong
  /-- The path has a zero character, which no name can hold. -/
  | zeroInPath
  /-- Any other reason, as the system words it. -/
  | other (description : String)
  deriving DecidableEq

/-- The wording of a file fault, with the system's error number if the system saw it. -/
def FileFault.message : FileFault → String
  | notFound => "No such file or directory (os error 2)"
  | isDirectory => "Is a directory (os error 21)"
  | notDirectory => "Not a directory (os error 20)"
  | nameTooLong => "File name too long (os error 36)"
  | zeroInPath => "file name contained an unexpected NUL byte"
  | other description => description

/-! ### All faults -/

/-- Everything that reading, decoding and converting can report. -/
inductive Fault
  /-- The file does not begin with the identifier of a DSE sequence. -/
  | notASequence (found : Bytes)
  /-- The chunk of track `track` at `offset` does not begin with a track identifier. -/
  | notATrack (track offset : Nat) (found : Bytes)
  /-- Data ends where more was needed; `length` is the size of the whole file. -/
  | truncated (offset length : Nat)
  /-- No byte from `offset` on ends the variable-length quantity. -/
  | unterminatedQuantity (offset : Nat)
  /-- The opcode at `offset` is not assigned. -/
  | unknownOpcode (opcode : UInt8) (offset : Nat)
  /-- The note at `offset` has no MIDI key and was left out. -/
  | droppedNote (track : Nat) (key : Int) (offset : Nat)
  /-- The tempo at `offset` is zero and was left out. -/
  | ignoredTempo (track offset : Nat)
  /-- The MIDI file holds independent patterns (format 2). -/
  | sequentialFormat
  /-- The outer layout of the MIDI file is wrong. -/
  | smf (cause : SmfFault)
  /-- A file could not be read or created. -/
  | file (cause : FileFault)
  deriving DecidableEq

namespace Fault

/-- Whether a conversion goes on after the fault: only a left-out note and a
left-out tempo are recoverable. -/
def isWarning : Fault → Bool
  | droppedNote .. | ignoredTempo .. => true
  | _ => false

/-- Two-digit hexadecimal bytes in brackets. -/
private def hexList (bytes : Bytes) : String :=
  "[" ++ ", ".intercalate (bytes.map fun b => String.ofList (hexByte b)) ++ "]"

/-- A position as hexadecimal with the usual mark in front. -/
private def hexOffset (offset : Nat) : String :=
  "0x" ++ String.ofList (hexDigits offset)

/-- The wording of a fault. -/
def message : Fault → String
  | notASequence found =>
    "Bad file identifier " ++ hexList found ++ ", not a DSE sequence"
  | notATrack track offset found =>
    "Invalid track identifier " ++ hexList found ++ " for track " ++ toString track
      ++ " at " ++ hexOffset offset
  | truncated offset length =>
    "Unexpected end of data at " ++ hexOffset offset
      ++ " (file is " ++ toString length ++ " bytes)"
  | unterminatedQuantity offset =>
    "Unterminated variable-length quantity at " ++ hexOffset offset
  | unknownOpcode opcode offset =>
    "Command " ++ String.ofList (hexByte opcode) ++ " at 0x"
      ++ String.ofList ((hexDigits offset).leftpad 8 '0') ++ " not known"
  | droppedNote track key offset =>
    "Dropped invalid note " ++ toString key ++ " on track " ++ toString track
      ++ " at " ++ hexOffset offset
  | ignoredTempo track offset =>
    "Ignored tempo of 0 BPM on track " ++ toString track ++ " at " ++ hexOffset offset
  | sequentialFormat => "Invalid MIDI file at 0x8: unsupported MIDI format 2"
  | smf cause => "Malformed MIDI file: invalid midi: " ++ cause.message
  | file cause => "IO error: " ++ cause.message

end Fault

end DseMidi
