import DseMidi.Cursor

/-!
# DseMidi.Dse.Container

**The container of a DSE sequence**: a header with a name and a track count, and the
track chunks behind it, each padded to a multiple of four bytes.

`Header.read` makes its checks in a fixed order and reports the first that fails:
the identifier, the file size, the name, the track count, and for each chunk its
identifier and its length. Neither the file size nor the chunk lengths are compared
with the file: a declared length only says where the next chunk starts.
-/

namespace DseMidi.Dse

/-! ### Layout -/

/-- The identifier of a sequence file: `smdl`. -/
def sequenceIdentifier : Bytes := [0x73, 0x6D, 0x64, 0x6C]

/-- The identifier of a track chunk: `trk` and a space. -/
def trackIdentifier : Bytes := [0x74, 0x72, 0x6B, 0x20]

/-- Where the file size stands. -/
def fileSizeOffset : Nat := 0x08
/-- Where the name stands. -/
def nameOffset : Nat := 0x20
/-- The size of the name field. -/
def nameFieldSize : Nat := 15
/-- Where the number of tracks stands. -/
def trackCountOffset : Nat := 0x56
/-- Where the first track chunk starts. -/
def firstChunkOffset : Nat := 0x80

/-- Where a chunk's length stands, counted from the chunk. -/
def chunkLengthOffset : Nat := 0x0C
/-- Where a chunk's data starts, counted from the chunk. -/
def chunkDataOffset : Nat := 0x10
/-- The bytes in a chunk's data before its first opcode. -/
def preambleLength : Nat := 4

/-! ### Types -/

/-- The place of one track in the file. -/
structure Chunk where
  /-- Where the chunk starts. -/
  start : Nat
  /-- Where its data starts. -/
  dataStart : Nat
  /-- The declared size of its data. -/
  length : Nat
  deriving DecidableEq

/-- Where the opcodes of the track start. -/
def Chunk.streamStart (c : Chunk) : Nat :=
  c.dataStart + preambleLength

/-- Where the next chunk starts: behind the data, at a multiple of four bytes. -/
def Chunk.next (c : Chunk) : Nat :=
  c.dataStart + (c.length + 3) / 4 * 4

/-- What the container says about a sequence. -/
structure Header where
  /-- The declared size of the file. -/
  declaredSize : Nat
  name : String
  trackCount : UInt8
  tracks : List Chunk
  deriving DecidableEq

/-! ### The name field -/

/-- The text without the spaces at its two ends. -/
def trimSpaces (text : List Char) : List Char :=
  ((text.dropWhile (· = ' ')).reverse.dropWhile (· = ' ')).reverse

/-- The name in a name field: the bytes before the first zero, with a question mark
for each byte that is not ASCII, without surrounding spaces. -/
def nameOfField (field : Bytes) : String :=
  String.ofList <| trimSpaces <| (field.takeWhile (· ≠ 0)).map fun b =>
    if b < 0x80 then Char.ofNat b.toNat else '?'

/-! ### Reading -/

/-- The `count` chunks from `position` on, the first of which is number `index`. -/
def readChunks (data : Bytes) : Nat → Nat → Nat → Except Fault (List Chunk)
  | 0, _, _ => .ok []
  | count + 1, index, position => do
    let found ← peek data position 4
    -- A foreign chunk is reported even if its length is missing.
    if found ≠ trackIdentifier then
      .error (.notATrack index position found)
    else
      let length ← peekNat data (position + chunkLengthOffset) 4
      let chunk : Chunk := ⟨position, position + chunkDataOffset, length⟩
      let rest ← readChunks data count (index + 1) chunk.next
      .ok (chunk :: rest)

/-- The header of a sequence file. -/
def Header.read (data : Bytes) : Except Fault Header := do
  let found ← peek data 0 4
  if found ≠ sequenceIdentifier then
    .error (.notASequence found)
  else
    let declaredSize ← peekNat data fileSizeOffset 4
    let field ← peek data nameOffset nameFieldSize
    let count ← peekNat data trackCountOffset 1
    let tracks ← readChunks data count 0 firstChunkOffset
    .ok ⟨declaredSize, nameOfField field, UInt8.ofNat count, tracks⟩

end DseMidi.Dse
