import DseMidi.Bytes

/-!
# DseMidi.Dse.Instruction

**The instructions of a track's opcode stream** and their bytes.

`Operation` says what an opcode byte selects, for all 256 of them. An `Instruction`
is an opcode together with its complete operands, in a form in which the operands
have their meaning; the opcode that ends a track is not an instruction but the end
of the list of them.

* `Instruction.bytes` writes an instruction and `Front.ofBytes` reads one off the
  front of a stream; `Front.ofBytes_eq_instruction` says that a read instruction's
  bytes are exactly those taken, so every read shortens the stream.
* `Instruction.WellFormed` holds of every instruction that is read: a note's opcode
  is its velocity, and operand counts are those that the opcode calls for.
-/

namespace DseMidi.Dse

/-! ### Opcodes -/

/-- The lengths, in the sequence's own ticks, of the sixteen fixed delays. -/
def fixedDelays : Vector Nat 16 :=
  #v[96, 72, 64, 48, 36, 32, 24, 18, 16, 12, 9, 8, 6, 4, 3, 2]

/-- The settings that a track changes by a controller message. -/
inductive Dial
  | modulation
  | volume
  | expression
  | pan
  deriving DecidableEq

/-- The opcode that changes a dial. -/
def Dial.opcode : Dial → UInt8
  | modulation => 0xBE
  | volume => 0xE0
  | expression => 0xE3
  | pan => 0xE8

/-- The number of the MIDI controller for a dial. -/
def Dial.controller : Dial → UInt8
  | modulation => 1
  | volume => 7
  | expression => 11
  | pan => 10

/-- What an opcode selects. -/
inductive Operation
  /-- A note; the opcode is its velocity. -/
  | note
  /-- A delay out of `fixedDelays`. -/
  | fixedDelay (index : Fin 16)
  /-- The last delay again. -/
  | repeatDelay
  /-- The last delay changed by a signed amount. -/
  | addDelay
  /-- A delay given in one byte. -/
  | delay8
  /-- A delay given in two bytes, least significant first. -/
  | delay16
  | endOfTrack
  | loopStart
  | setOctave
  | tempo
  | program
  | controller (dial : Dial)
  | pitchBend
  /-- No meaning in MIDI; kept as text, with this many operand bytes. -/
  | verbatim (arity : Nat)
  /-- Not assigned. -/
  | unknown
  deriving DecidableEq

/-- The opcodes that are kept as text, with their operand counts. -/
def verbatimArities : List (UInt8 × Nat) :=
  [(0x9C, 1), (0x9D, 0), (0xA8, 2), (0xA9, 1), (0xAA, 1), (0xB2, 1), (0xB4, 2),
   (0xB5, 1), (0xBF, 1), (0xC0, 0), (0xD0, 1), (0xD1, 1), (0xD2, 1), (0xD4, 3),
   (0xD6, 2), (0xDB, 1), (0xDC, 5), (0xE2, 3), (0xEA, 3), (0xF6, 1)]

/-- What each opcode selects. -/
def Operation.ofOpcode (opcode : UInt8) : Operation :=
  if opcode < 0x80 then .note
  else if opcode < 0x90 then .fixedDelay ⟨opcode.toNat % 16, Nat.mod_lt _ (by decide)⟩
  else if opcode = 0x90 then .repeatDelay
  else if opcode = 0x91 then .addDelay
  else if opcode = 0x92 then .delay8
  else if opcode = 0x93 then .delay16
  else if opcode = 0x98 then .endOfTrack
  else if opcode = 0x99 then .loopStart
  else if opcode = 0xA0 then .setOctave
  else if opcode = 0xA4 then .tempo
  else if opcode = 0xAC then .program
  else if opcode = 0xBE then .controller .modulation
  else if opcode = 0xD7 then .pitchBend
  else if opcode = 0xE0 then .controller .volume
  else if opcode = 0xE3 then .controller .expression
  else if opcode = 0xE8 then .controller .pan
  else match verbatimArities.lookup opcode with
    | some arity => .verbatim arity
    | none => .unknown

/-! ### Instructions -/

/-- An opcode with its operands. -/
inductive Instruction
  /-- A note: its velocity, the byte with octave change, key and length count, and
  the bytes of its length, if it brings one. -/
  | note (velocity arg : UInt8) (lengthBytes : Bytes)
  | fixedDelay (index : Fin 16)
  | repeatDelay
  | addDelay (delta : UInt8)
  | delay8 (ticks : UInt8)
  | delay16 (low high : UInt8)
  | loopStart
  | setOctave (octave : UInt8)
  | tempo (bpm : UInt8)
  | program (program : UInt8)
  | controller (dial : Dial) (value : UInt8)
  | pitchBend (high low : UInt8)
  | verbatim (opcode : UInt8) (args : Bytes)
  deriving DecidableEq

namespace Instruction

/-- The number of length bytes that a note's argument byte announces. -/
def lengthCount (arg : UInt8) : Nat := arg.toNat / 64

/-- The bytes of an instruction. -/
def bytes : Instruction → Bytes
  | note velocity arg lengthBytes => velocity :: arg :: lengthBytes
  | fixedDelay index => [UInt8.ofNat (0x80 + index.val)]
  | repeatDelay => [0x90]
  | addDelay delta => [0x91, delta]
  | delay8 ticks => [0x92, ticks]
  | delay16 low high => [0x93, low, high]
  | loopStart => [0x99]
  | setOctave octave => [0xA0, octave]
  | tempo bpm => [0xA4, bpm]
  | program number => [0xAC, number]
  | controller dial value => [dial.opcode, value]
  | pitchBend high low => [0xD7, high, low]
  | verbatim opcode args => opcode :: args

/-- The number of bytes of an instruction. -/
def size (i : Instruction) : Nat := i.bytes.length

theorem size_pos (i : Instruction) : 0 < i.size := by
  cases i <;> simp [size, bytes]

/-- The opcode and the operands belong together. -/
def WellFormed : Instruction → Prop
  | note velocity arg lengthBytes => velocity < 0x80 ∧ lengthBytes.length = lengthCount arg
  | verbatim opcode args => Operation.ofOpcode opcode = .verbatim args.length
  | _ => True

instance (i : Instruction) : Decidable i.WellFormed := by
  cases i <;> unfold WellFormed <;> infer_instance

/-! ### Reading one instruction -/

/-- The instruction of an operation's opcode, with its operands taken off `rest`; no
instruction if the operands are incomplete or the operation is none. -/
def ofOperands (opcode : UInt8) : Operation → Bytes → Option (Instruction × Bytes)
  | .note, arg :: rest =>
    (splitExact (lengthCount arg) rest).map fun (lengthBytes, rest) =>
      (note opcode arg lengthBytes, rest)
  | .fixedDelay index, rest => some (fixedDelay index, rest)
  | .repeatDelay, rest => some (repeatDelay, rest)
  | .addDelay, delta :: rest => some (addDelay delta, rest)
  | .delay8, ticks :: rest => some (delay8 ticks, rest)
  | .delay16, low :: high :: rest => some (delay16 low high, rest)
  | .loopStart, rest => some (loopStart, rest)
  | .setOctave, octave :: rest => some (setOctave octave, rest)
  | .tempo, bpm :: rest => some (tempo bpm, rest)
  | .program, number :: rest => some (program number, rest)
  | .controller dial, value :: rest => some (controller dial value, rest)
  | .pitchBend, high :: low :: rest => some (pitchBend high low, rest)
  | .verbatim arity, rest =>
    (splitExact arity rest).map fun (args, rest) => (verbatim opcode args, rest)
  | _, _ => none

end Instruction

/-- What stands at the front of an opcode stream. -/
inductive Front
  | instruction (i : Instruction) (rest : Bytes)
  /-- The opcode that ends the track, and what follows it. -/
  | endOfTrack (rest : Bytes)
  | unknown (opcode : UInt8)
  /-- The data ends here, or inside an instruction. -/
  | truncated

/-- Reads what stands at the front of an opcode stream. -/
def Front.ofBytes : Bytes → Front
  | [] => .truncated
  | opcode :: rest =>
    match Operation.ofOpcode opcode with
    | .endOfTrack => .endOfTrack rest
    | .unknown => .unknown opcode
    | operation =>
      match Instruction.ofOperands opcode operation rest with
      | some (i, rest) => .instruction i rest
      | none => .truncated

/-! ### What was read is what is written

The opcodes of an operation are known from the operation alone: notes have the lower
half of all opcodes, verbatim operations share their list, and every other
operation has a single one. This is checked for each of the 256 opcodes. -/

/-- Whether `opcode` is one that the operation can be selected by. -/
def Operation.HasOpcode (opcode : UInt8) : Operation → Prop
  | note => opcode < 0x80
  | fixedDelay index => opcode = UInt8.ofNat (0x80 + index.val)
  | repeatDelay => opcode = 0x90
  | addDelay => opcode = 0x91
  | delay8 => opcode = 0x92
  | delay16 => opcode = 0x93
  | endOfTrack => opcode = 0x98
  | loopStart => opcode = 0x99
  | setOctave => opcode = 0xA0
  | tempo => opcode = 0xA4
  | program => opcode = 0xAC
  | controller dial => opcode = dial.opcode
  | pitchBend => opcode = 0xD7
  | verbatim arity => (opcode, arity) ∈ verbatimArities
  | unknown => verbatimArities.lookup opcode = none

instance (opcode : UInt8) (o : Operation) : Decidable (o.HasOpcode opcode) := by
  cases o <;> unfold Operation.HasOpcode <;> infer_instance

/-- An operation is only selected by its opcodes. -/
theorem Operation.hasOpcode_ofOpcode (opcode : UInt8) :
    (Operation.ofOpcode opcode).HasOpcode opcode := by
  refine forall_byte ?_ opcode
  decide +kernel

/-- The bytes of an instruction that was read are those that were taken for it. -/
theorem Instruction.bytes_of_ofOperands {opcode : UInt8} {bytes rest : Bytes} {i : Instruction}
    (h : ofOperands opcode (Operation.ofOpcode opcode) bytes = some (i, rest)) :
    opcode :: bytes = i.bytes ++ rest ∧ i.WellFormed := by
  have selected := Operation.hasOpcode_ofOpcode opcode
  generalize ho : Operation.ofOpcode opcode = o at h selected
  unfold ofOperands at h
  split at h
  -- Notes and verbatim instructions carry a counted piece, the others single bytes.
  · obtain ⟨⟨lengthBytes, rest⟩, taken, h⟩ := Option.map_eq_some_iff.1 h
    obtain ⟨rfl, rfl⟩ := Prod.mk.inj h
    obtain ⟨rfl, count⟩ := splitExact_eq_some_iff.1 taken
    exact ⟨rfl, selected, count⟩
  case h_13 =>
    obtain ⟨⟨args, rest⟩, taken, h⟩ := Option.map_eq_some_iff.1 h
    obtain ⟨rfl, rfl⟩ := Prod.mk.inj h
    obtain ⟨rfl, rfl⟩ := splitExact_eq_some_iff.1 taken
    exact ⟨rfl, ho⟩
  case h_14 => cases h
  all_goals
    obtain ⟨rfl, rfl⟩ := Prod.mk.inj (Option.some.inj h)
    subst selected
    exact ⟨rfl, trivial⟩

/-- Reading an instruction takes its bytes off the front and nothing else. -/
theorem Front.ofBytes_eq_instruction {bytes rest : Bytes} {i : Instruction}
    (h : Front.ofBytes bytes = .instruction i rest) :
    bytes = i.bytes ++ rest ∧ i.WellFormed := by
  cases bytes with
  | nil => cases h
  | cons opcode bytes =>
    rw [Front.ofBytes] at h
    split at h
    · cases h
    · cases h
    · split at h
      · next taken =>
        cases h
        exact Instruction.bytes_of_ofOperands taken
      · cases h

/-- Reading an instruction shortens the stream. -/
theorem Front.length_lt_of_ofBytes {bytes rest : Bytes} {i : Instruction}
    (h : Front.ofBytes bytes = .instruction i rest) : rest.length < bytes.length := by
  have := i.size_pos
  rw [(Front.ofBytes_eq_instruction h).1, List.length_append]
  unfold Instruction.size at this
  omega

end DseMidi.Dse
