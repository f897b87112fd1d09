import DseMidi.Event
import DseMidi.Smf.TimeCode

/-!
# DseMidi.Smf.Wire

**Events as they stand in a track of a MIDI file**: each with the time since the one
before it, under a status byte that channel messages may leave out.

`readEvent?` reads one event and `readEvents` all that can be read: the first thing that
is not an event ends the track and keeps what stands before it. Quantities have at most
four bytes here. A quantity or a payload that is cut short is taken as far as it goes.
-/

namespace DseMidi.Smf

/-! ### Quantities -/

/-- Reads at most `limit` further groups of a quantity whose groups so far gave
`value`. -/
def readQuantity : Nat → Nat → Bytes → Nat × Bytes
  | 0, value, bytes => (value, bytes)
  | _ + 1, value, [] => (value, [])
  | limit + 1, value, b :: rest =>
    let value := value * 128 + b.toNat % 128
    if b < 0x80 then (value, rest) else readQuantity limit value rest

/-- The number of groups in a quantity. -/
def quantityLimit : Nat := 4

/-- A payload behind its length. -/
def readPayload (bytes : Bytes) : Bytes × Bytes :=
  let (length, rest) := readQuantity quantityLimit 0 bytes
  (rest.take length, rest.drop length)

theorem length_readQuantity_le (limit value : Nat) (bytes : Bytes) :
    (readQuantity limit value bytes).2.length ≤ bytes.length := by
  induction limit generalizing value bytes with
  | zero => exact Nat.le_refl _
  | succ limit ih =>
    cases bytes with
    | nil => exact Nat.le_refl _
    | cons b rest =>
      rw [readQuantity]
      split
      · exact Nat.le_succ _
      · exact Nat.le_succ_of_le (ih _ rest)

theorem length_readPayload_le (bytes : Bytes) :
    (readPayload bytes).2.length ≤ bytes.length := by
  have := length_readQuantity_le quantityLimit 0 bytes
  unfold readPayload
  simp only [List.length_drop]
  omega

/-! ### Channel messages -/

/-- Reads a data byte, whose top bit is clear. -/
def readData? : Bytes → Option (UInt8 × Bytes)
  | [] => none
  | b :: rest => if b < 0x80 then some (b, rest) else none

/-- Reads the one data byte of a message. -/
def readOne? (message : UInt8 → Message) (bytes : Bytes) : Option (Message × Bytes) :=
  (readData? bytes).map fun (a, rest) => (message a, rest)

/-- Reads the two data bytes of a message. -/
def readTwo? (message : UInt8 → UInt8 → Message) (bytes : Bytes) : Option (Message × Bytes) :=
  (readData? bytes).bind fun (a, rest) =>
    (readData? rest).map fun (b, rest) => (message a b, rest)

/-- Reads the data of the channel message with a status byte. -/
def readVoice? (status : UInt8) (bytes : Bytes) : Option (Message × Bytes) :=
  if status < 0x90 then readTwo? .noteOff bytes
  else if status < 0xA0 then readTwo? .noteOn bytes
  else if status < 0xB0 then readTwo? .noteAftertouch bytes
  else if status < 0xC0 then readTwo? .controller bytes
  else if status < 0xD0 then readOne? .programChange bytes
  else if status < 0xE0 then readOne? .channelAftertouch bytes
  else readTwo? .pitchBend bytes

theorem length_readData?_lt {bytes rest : Bytes} {a : UInt8}
    (h : readData? bytes = some (a, rest)) : rest.length < bytes.length := by
  cases bytes with
  | nil => cases h
  | cons b tail =>
    rw [readData?] at h
    split at h
    · cases h; exact Nat.lt_succ_self _
    · cases h

theorem length_readOne?_lt {message : UInt8 → Message} {bytes rest : Bytes} {m : Message}
    (h : readOne? message bytes = some (m, rest)) : rest.length < bytes.length := by
  obtain ⟨⟨a, rest⟩, read, h⟩ := Option.map_eq_some_iff.1 h
  cases h
  exact length_readData?_lt read

theorem length_readTwo?_lt {message : UInt8 → UInt8 → Message} {bytes rest : Bytes}
    {m : Message} (h : readTwo? message bytes = some (m, rest)) :
    rest.length < bytes.length := by
  obtain ⟨⟨a, mid⟩, first, h⟩ := Option.bind_eq_some_iff.1 h
  obtain ⟨⟨b, rest⟩, second, h⟩ := Option.map_eq_some_iff.1 h
  cases h
  exact Nat.lt_trans (length_readData?_lt second) (length_readData?_lt first)

/-- A channel message has at least one data byte. -/
theorem length_readVoice?_lt {status : UInt8} {bytes rest : Bytes} {m : Message}
    (h : readVoice? status bytes = some (m, rest)) : rest.length < bytes.length := by
  unfold readVoice? at h
  repeat' split at h
  all_goals first
    | exact length_readTwo?_lt h
    | exact length_readOne?_lt h

/-! ### Meta events -/

/-- The data that is kept of a meta event, unless it is unusable. Events of a fixed
layout are cut to it and their fields to their range; all others, and those that are
too short for their layout, keep their data as it is. -/
def metaData? (type : UInt8) (data : Bytes) : Option Bytes :=
  if type = 0x00 then
    match data with
    | a :: b :: _ => some [a, b]
    | _ => some []
  else if type = 0x20 then
    match data with
    | channel :: _ => some [channel &&& 0x0F]
    | [] => some []
  else if type = 0x21 then
    match data with
    | device :: _ => some [device &&& 0x7F]
    | [] => some []
  else if type = 0x51 then
    match data with
    | a :: b :: c :: _ => some [a, b, c]
    | _ => some data
  else if type = 0x54 then
    match data with
    | h :: m :: s :: f :: c :: _ => smpteOffset? h m s f c
    | _ => some data
  else if type = 0x58 then
    match data with
    | a :: b :: c :: d :: _ => some [a, b, c, d]
    | _ => some data
  else if type = 0x59 then
    match data with
    | sharps :: minor :: _ => some [sharps, if minor = 0 then 0 else 1]
    | _ => none
  else some data

/-- Reads a meta event behind its status byte. -/
def readMeta? : Bytes → Option (Message × Bytes)
  | [] => none
  | type :: rest =>
    (metaData? type (readPayload rest).1).map fun data =>
      (.metaEvent (MetaType.ofByte type) data, (readPayload rest).2)

theorem length_readMeta?_lt {bytes rest : Bytes} {m : Message}
    (h : readMeta? bytes = some (m, rest)) : rest.length < bytes.length := by
  cases bytes with
  | nil => cases h
  | cons type tail =>
    obtain ⟨data, -, h⟩ := Option.map_eq_some_iff.1 h
    cases h
    exact Nat.lt_succ_of_le (length_readPayload_le tail)

/-! ### Events -/

/-- An event of a track: a message and the time since the event before it. -/
structure WireEvent where
  delta : Nat
  /-- The channel of a channel voice message, zero for others. -/
  channel : UInt8
  message : Message
  deriving DecidableEq

/-- Reads what follows the time of an event: its channel, its message, the status that
later events may leave out, and the rest. A status byte below `0xF0` is remembered, and
every other event that can be read forgets it. -/
def readBody? (running : Option UInt8) :
    Bytes → Option (UInt8 × Message × Option UInt8 × Bytes)
  | [] => none
  | b :: rest =>
    if b < 0x80 then
      -- No status: the byte is already data and stays where it is.
      running.bind fun status => (readVoice? status (b :: rest)).map fun (message, rest) =>
        (status &&& 0x0F, message, running, rest)
    else if b < 0xF0 then
      (readVoice? b rest).map fun (message, rest) => (b &&& 0x0F, message, some b, rest)
    else if b = 0xFF then
      (readMeta? rest).map fun (message, rest) => (0, message, none, rest)
    else if b = 0xF0 ∨ b = 0xF7 then
      some (0, .sysEx b (readPayload rest).1, none, (readPayload rest).2)
    else none

/-- Reads one event, given the status that it may leave out. -/
def readEvent? (running : Option UInt8) (bytes : Bytes) :
    Option (WireEvent × Option UInt8 × Bytes) :=
  let (delta, rest) := readQuantity quantityLimit 0 bytes
  (readBody? running rest).map fun (channel, message, running, rest) =>
    (⟨delta, channel, message⟩, running, rest)

theorem length_readBody?_lt {running running' : Option UInt8} {bytes rest : Bytes}
    {channel : UInt8} {m : Message}
    (h : readBody? running bytes = some (channel, m, running', rest)) :
    rest.length < bytes.length := by
  cases bytes with
  | nil => cases h
  | cons b tail =>
    rw [readBody?] at h
    split at h
    · obtain ⟨status, -, h⟩ := Option.bind_eq_some_iff.1 h
      obtain ⟨⟨_, _⟩, read, h⟩ := Option.map_eq_some_iff.1 h
      cases h
      exact length_readVoice?_lt read
    split at h
    · obtain ⟨⟨_, _⟩, read, h⟩ := Option.map_eq_some_iff.1 h
      cases h
      exact Nat.lt_succ_of_lt (length_readVoice?_lt read)
    split at h
    · obtain ⟨⟨_, _⟩, read, h⟩ := Option.map_eq_some_iff.1 h
      cases h
      exact Nat.lt_succ_of_lt (length_readMeta?_lt read)
    split at h
    · cases h
      exact Nat.lt_succ_of_le (length_readPayload_le tail)
    · cases h

/-- Every event takes at least one byte. -/
theorem length_readEvent?_lt {running running' : Option UInt8} {bytes rest : Bytes}
    {e : WireEvent} (h : readEvent? running bytes = some (e, running', rest)) :
    rest.length < bytes.length := by
  obtain ⟨⟨_, _, _, _⟩, read, h⟩ := Option.map_eq_some_iff.1 h
  cases h
  exact Nat.lt_of_lt_of_le (length_readBody?_lt read) (length_readQuantity_le _ _ _)

/-- The events of a track, given the status that the first may leave out. -/
def readEventsFrom (running : Option UInt8) (bytes : Bytes) : List WireEvent :=
  match h : readEvent? running bytes with
  | some (e, running, rest) =>
    have := length_readEvent?_lt h
    e :: readEventsFrom running rest
  | none => []
termination_by bytes.length

/-- The events of a track. -/
def readEvents (bytes : Bytes) : List WireEvent :=
  readEventsFrom none bytes

end DseMidi.Smf
