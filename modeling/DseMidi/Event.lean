import DseMidi.Bytes

/-!
# DseMidi.Event

**Timestamped MIDI events.**

A `Message` is what an event says; an `Event` adds the absolute tick and, for
channel voice messages, the channel. Data fields are whole bytes here: the seven
bits that a written file keeps are the writer's business.
-/

namespace DseMidi

/-! ### Meta events -/

/-- The type of a meta event. The four types that the library itself speaks about
have names; `other` carries any type byte, so it can also spell a named one and is then
still a different type. -/
inductive MetaType
  | text
  | sequenceName
  | endOfTrack
  | tempo
  | other (byte : UInt8)
  deriving DecidableEq

namespace MetaType

/-- The type that a type byte stands for. -/
def ofByte (byte : UInt8) : MetaType :=
  if byte = 0x01 then text
  else if byte = 0x03 then sequenceName
  else if byte = 0x2F then endOfTrack
  else if byte = 0x51 then tempo
  else other byte

/-- The type byte of a type. -/
def toByte : MetaType → UInt8
  | text => 0x01
  | sequenceName => 0x03
  | endOfTrack => 0x2F
  | tempo => 0x51
  | other byte => byte

@[simp] theorem toByte_ofByte (byte : UInt8) : (ofByte byte).toByte = byte := by
  unfold ofByte
  split
  · next h => exact h.symm
  split
  · next h => exact h.symm
  split
  · next h => exact h.symm
  split
  · next h => exact h.symm
  · rfl

end MetaType

/-! ### Messages -/

/-- What an event says. -/
inductive Message
  | noteOff (key velocity : UInt8)
  | noteOn (key velocity : UInt8)
  | noteAftertouch (key pressure : UInt8)
  | controller (number value : UInt8)
  | programChange (program : UInt8)
  | channelAftertouch (pressure : UInt8)
  /-- A 14-bit pitch bend in two halves of seven bits. -/
  | pitchBend (lsb msb : UInt8)
  | metaEvent (type : MetaType) (data : Bytes)
  /-- A system exclusive message or a continuation packet; `status` tells which. -/
  | sysEx (status : UInt8) (data : Bytes)
  deriving DecidableEq

namespace Message

/-- The status nibble of a channel voice message. -/
def status? : Message → Option UInt8
  | noteOff .. => some 0x80
  | noteOn .. => some 0x90
  | noteAftertouch .. => some 0xA0
  | controller .. => some 0xB0
  | programChange .. => some 0xC0
  | channelAftertouch .. => some 0xD0
  | pitchBend .. => some 0xE0
  | metaEvent .. | sysEx .. => none

/-- Whether the message is addressed to a channel. -/
def isChannelVoice : Message → Bool
  | metaEvent .. | sysEx .. => false
  | _ => true

/-- Whether the message starts a note. -/
def isNoteOn : Message → Bool
  | noteOn .. => true
  | _ => false

/-- A text meta event. -/
def text (data : Bytes) : Message :=
  metaEvent .text data

/-- A tempo meta event: microseconds per quarter note in three bytes. -/
def tempo (micros : Nat) : Message :=
  metaEvent .tempo (beBytes 3 micros)

end Message

/-! ### Controller numbers -/

namespace Controller

/-- Coarse part of the value of the selected parameter. -/
def dataEntryMsb : UInt8 := 6
/-- Fine part of the value of the selected parameter. -/
def dataEntryLsb : UInt8 := 38
/-- Low part of the number of the selected parameter. -/
def parameterLsb : UInt8 := 100
/-- High part of the number of the selected parameter. -/
def parameterMsb : UInt8 := 101

end Controller

/-! ### Events -/

/-- A message at an absolute tick. -/
structure Event where
  /-- Ticks since the start of the track. -/
  tick : Nat
  /-- The channel; it only matters for channel voice messages. -/
  channel : UInt8
  message : Message
  deriving DecidableEq

namespace Event

/-- A meta event, which belongs to no channel. -/
def ofMeta (tick : Nat) (message : Message) : Event :=
  ⟨tick, 0, message⟩

/-- A note's end, with release velocity zero. -/
def noteOff (tick : Nat) (channel key : UInt8) : Event :=
  ⟨tick, channel, .noteOff key 0⟩

/-- Moves a channel voice event to `channel`; other events belong to no channel and
stay as they are. -/
def onChannel (channel : UInt8) (e : Event) : Event :=
  if e.message.isChannelVoice then { e with channel } else e

@[simp] theorem onChannel_tick (channel : UInt8) (e : Event) :
    (e.onChannel channel).tick = e.tick := by
  unfold onChannel; split <;> rfl

@[simp] theorem onChannel_message (channel : UInt8) (e : Event) :
    (e.onChannel channel).message = e.message := by
  unfold onChannel; split <;> rfl

/-- The last move decides. -/
@[simp] theorem onChannel_onChannel (c d : UInt8) (e : Event) :
    (e.onChannel c).onChannel d = e.onChannel d := by
  unfold onChannel; split <;> simp_all

end Event

end DseMidi
