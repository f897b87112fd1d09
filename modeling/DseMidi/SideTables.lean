import DseMidi.Track

/-!
# DseMidi.SideTables

**The three tables that adapt a game's instruments to General MIDI**: which program
stands for which, which percussion key for which, and by how many semitones each
program is shifted. A table is 128 bytes; a missing table, or one of another size,
leaves programs and keys as they are.
-/

namespace DseMidi

/-- Lookup tables for programs and keys. Entries are whole bytes; `keyFor` drops
keys that MIDI does not have. -/
structure SideTables where
  /-- The General MIDI program for each program. -/
  programs : Vector UInt8 128
  /-- The General MIDI percussion key for each key of the percussion program. -/
  drumKeys : Vector UInt8 128
  /-- The shift in semitones for each program. -/
  shifts : Vector Int8 128
  deriving DecidableEq

namespace SideTables

/-! ### Building -/

/-- The table that maps each number to itself. -/
def identity : Vector UInt8 128 :=
  Vector.ofFn fun i => UInt8.ofNat i.val

/-- The tables that change nothing. -/
def default : SideTables :=
  ⟨identity, identity, Vector.replicate 128 0⟩

/-- The table in a file's contents, if there is a file and it has the right size. -/
def table? (contents : Option Bytes) : Option (Vector UInt8 128) :=
  match contents with
  | none => none
  | some bytes =>
    if h : bytes.length = 128 then some ⟨bytes.toArray, by simpa using h⟩ else none

/-- The tables in the contents of up to three files; each unusable one keeps its
default. The shifts are signed bytes. -/
def ofContents (programs drumKeys shifts : Option Bytes) : SideTables :=
  { programs := (table? programs).getD identity
    drumKeys := (table? drumKeys).getD identity
    shifts := ((table? shifts).map fun t => t.map UInt8.toInt8).getD
      (Vector.replicate 128 0) }

/-! ### Looking up -/

/-- The table index of a program: only its low seven bits count. -/
def programIndex (program : UInt8) : Fin 128 :=
  ⟨program.toNat % 128, Nat.mod_lt _ (by decide)⟩

/-- The key byte for a number on the MIDI scale of 0 to 127. -/
def keyByte? (key : Int) : Option UInt8 :=
  if 0 ≤ key ∧ key ≤ 127 then some (UInt8.ofNat key.toNat) else none

/-- The General MIDI program for a program. -/
def programFor (t : SideTables) (program : UInt8) : UInt8 :=
  t.programs.get (programIndex program)

/-- The key sent for `key` while `program` is selected, if MIDI has it: keys of the
percussion program are looked up, all others are shifted. -/
def keyFor (t : SideTables) (program key : UInt8) : Option UInt8 :=
  if program = percussionProgram then
    (t.drumKeys[key.toNat]?).bind fun mapped => keyByte? mapped.toNat
  else
    keyByte? (key.toNat + (t.shifts.get (programIndex program)).toInt)

/-- A key byte is always a MIDI key. -/
theorem keyByte?_le {key : Int} {b : UInt8} (h : keyByte? key = some b) : b ≤ 127 := by
  unfold keyByte? at h
  split at h
  · next range =>
    obtain rfl := Option.some.inj h
    rw [UInt8.le_iff_toNat_le, UInt8.toNat_ofNat']
    have : key.toNat ≤ 127 := by omega
    show key.toNat % 2 ^ 8 ≤ 127
    omega
  · cases h

/-- Whatever the tables hold, a mapped key is a MIDI key. -/
theorem keyFor_le {t : SideTables} {program key b : UInt8}
    (h : t.keyFor program key = some b) : b ≤ 127 := by
  unfold keyFor at h
  split at h
  · obtain ⟨mapped, -, h⟩ := Option.bind_eq_some_iff.1 h
    exact keyByte?_le h
  · exact keyByte?_le h

end SideTables

end DseMidi
