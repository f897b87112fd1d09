import DseMidi.Proofs.Smf.Reading

/-!
# DseMidi.Proofs.Smf.Walk

**What stands in the body of a track.** `walk` takes a body apart by its own lengths, with
times and payload lengths of any size, and refuses whatever is cut short or left over. It
forgives nothing and has no limits, so that what it finds is what the body says.

A written body walks back to its events (`walk_eventsBytes`), whatever its times are.
-/

namespace DseMidi

/-- The message is one whose bytes say what it is: any but a system exclusive message under
a foreign status. -/
def Message.Framed : Message → Prop
  | .sysEx status _ => status = 0xF0 ∨ status = 0xF7
  | _ => True

theorem Message.Portable.framed {m : Message} (h : m.Portable) : m.Framed := by
  cases m with
  | sysEx status data => exact h.1
  | _ => trivial

namespace Smf

/-! ### Walking -/

/-- An event of a body, and the groups that spell its time. -/
structure Record where
  time : Bytes
  event : WireEvent

/-- A payload behind its length, if all of it is there. -/
def payload? (bytes : Bytes) : Option (Bytes × Bytes) :=
  (Quantity.groups? bytes).bind fun (groups, rest) =>
    splitExact (Quantity.groupsFrom 0 groups) rest

/-- A meta event behind its status byte. -/
def metaMessage? : Bytes → Option (Message × Bytes)
  | [] => none
  | type :: rest => (payload? rest).map fun (data, rest) => (.metaEvent (.ofByte type) data, rest)

/-- A message with its own status byte, and its channel. -/
def message? : Bytes → Option (UInt8 × Message × Bytes)
  | [] => none
  | status :: rest =>
    if status < 0x80 then none
    else if status < 0xF0 then
      (readVoice? status rest).map fun (message, rest) => (status &&& 0x0F, message, rest)
    else if status = 0xFF then
      (metaMessage? rest).map fun (message, rest) => (0, message, rest)
    else if status = 0xF0 ∨ status = 0xF7 then
      (payload? rest).map fun (data, rest) => (0, .sysEx status data, rest)
    else none

/-- The event in front of `bytes`, behind its time. -/
def record? (bytes : Bytes) : Option (Record × Bytes) :=
  (Quantity.groups? bytes).bind fun (time, rest) =>
    (message? rest).map fun (channel, message, rest) =>
      (⟨time, ⟨Quantity.groupsFrom 0 time, channel, message⟩⟩, rest)

/-- The events of a body, if it consists of them and of nothing else. -/
def walk (bytes : Bytes) : Option (List Record) :=
  if bytes.isEmpty then some []
  else
    match record? bytes with
    | none => none
    | some (r, rest) =>
      if _ : rest.length < bytes.length then (walk rest).map fun rs => r :: rs else none
termination_by bytes.length

theorem walk_nil : walk [] = some [] := by
  rw [walk]
  rfl

theorem walk_of_record {bytes rest : Bytes} {r : Record} (h : record? bytes = some (r, rest))
    (hlt : rest.length < bytes.length) : walk bytes = (walk rest).map fun rs => r :: rs := by
  have hne : bytes.isEmpty = false := by
    cases bytes with
    | nil => exact absurd hlt (Nat.not_lt_zero _)
    | cons b bytes => rfl
  rw [walk, hne, h]
  simp [hlt]

/-! ### Written events -/

theorem payload?_payloadBytes (data rest : Bytes) :
    payload? (payloadBytes data ++ rest) = some (data, rest) := by
  rw [payload?, payloadBytes, List.append_assoc, Quantity.groups?_encode, Option.bind_some]
  exact splitExact_eq_some_iff.mpr ⟨rfl, (Quantity.groupsFrom_encode _).symm⟩

theorem message?_voice {status : UInt8} (hs : status ∈ voiceStatuses) (channel : UInt8)
    {bytes rest : Bytes} {m : Message} (h : readVoice? status bytes = some (m, rest)) :
    message? ((status ||| (channel &&& 0x0F)) :: bytes) =
      some (channel &&& 0x0F, m, rest) := by
  obtain ⟨hnibble, hchannel⟩ := voiceStatus_or hs channel
  obtain ⟨hdata, hvoice⟩ := voiceStatus_bounds hs channel
  rw [message?, if_neg hdata, if_pos hvoice, readVoice?_congr hnibble, h, Option.map_some,
    hchannel]

/-- A written message says what a file keeps of it, whatever follows it. -/
theorem message?_eventBytes {e : Event} (h : e.message.Framed) (rest : Bytes) :
    message? (eventBytes e ++ rest) = some (e.normalized.channel, e.normalized.message, rest) := by
  rcases e with ⟨tick, channel, message⟩
  cases message with
  | noteOff key velocity =>
    have hdata := readTwo?_dataByte .noteOff key velocity rest
    exact message?_voice (show 0x80 ∈ voiceStatuses by decide) channel hdata
  | noteOn key velocity =>
    have hdata := readTwo?_dataByte .noteOn key velocity rest
    exact message?_voice (show 0x90 ∈ voiceStatuses by decide) channel hdata
  | noteAftertouch key pressure =>
    have hdata := readTwo?_dataByte .noteAftertouch key pressure rest
    exact message?_voice (show 0xA0 ∈ voiceStatuses by decide) channel hdata
  | controller number value =>
    have hdata := readTwo?_dataByte .controller number value rest
    exact message?_voice (show 0xB0 ∈ voiceStatuses by decide) channel hdata
  | programChange program =>
    have hdata := readOne?_dataByte .programChange program rest
    exact message?_voice (show 0xC0 ∈ voiceStatuses by decide) channel hdata
  | channelAftertouch pressure =>
    have hdata := readOne?_dataByte .channelAftertouch pressure rest
    exact message?_voice (show 0xD0 ∈ voiceStatuses by decide) channel hdata
  | pitchBend lsb msb =>
    have hdata := readTwo?_dataByte .pitchBend lsb msb rest
    exact message?_voice (show 0xE0 ∈ voiceStatuses by decide) channel hdata
  | metaEvent type data =>
    show (metaMessage? (type.toByte :: (payloadBytes data ++ rest))).map _ = _
    rw [metaMessage?, payload?_payloadBytes]
    rfl
  | sysEx status data =>
    show message? (status :: (payloadBytes data ++ rest)) = _
    rcases h with rfl | rfl
    · show (payload? (payloadBytes data ++ rest)).map _ = _
      rw [payload?_payloadBytes]
      rfl
    · show (payload? (payloadBytes data ++ rest)).map _ = _
      rw [payload?_payloadBytes]
      rfl

theorem record?_encode {e : Event} (h : e.message.Framed) (delta : Nat) (rest : Bytes) :
    record? (Quantity.encode delta ++ eventBytes e ++ rest) =
      some (⟨Quantity.encode delta, ⟨delta, e.normalized.channel, e.normalized.message⟩⟩,
        rest) := by
  rw [record?, List.append_assoc, Quantity.groups?_encode, Option.bind_some]
  dsimp only
  rw [message?_eventBytes h, Option.map_some, Quantity.groupsFrom_encode]

/-! ### Written bodies -/

/-- The record of a written event: its time in the fewest groups. -/
def Record.ofWire (w : WireEvent) : Record := ⟨Quantity.encode w.delta, w⟩

theorem walk_endOfTrack : walk endOfTrack = some [Record.ofWire endMark] := by
  have hrecord : record? endOfTrack = some (⟨[0], endMark⟩, []) := rfl
  have hmark : Record.ofWire endMark = ⟨[0], endMark⟩ := by
    rw [Record.ofWire, show endMark.delta = 0 from rfl, Quantity.encode_zero]
  rw [walk_of_record hrecord (by decide), walk_nil, hmark]
  rfl

/-- A written body consists of its events, each behind its time, and of the mark at its
end. -/
theorem walk_eventsBytes {events : List Event} (h : ∀ e ∈ events, e.message.Framed)
    (last : Nat) :
    walk (eventsBytes last events ++ endOfTrack) =
      some ((wireEvents last events ++ [endMark]).map Record.ofWire) := by
  induction events generalizing last with
  | nil => exact walk_endOfTrack
  | cons e rest ih =>
    obtain ⟨he, hframed⟩ := List.forall_mem_cons.mp h
    have hrecord := record?_encode he (e.tick - last) (eventsBytes e.tick rest ++ endOfTrack)
    have hrest := ih hframed e.tick
    rw [eventsBytes_cons, List.append_assoc, walk_of_record hrecord, hrest]
    · rfl
    · have hpos := List.length_pos_of_ne_nil (Quantity.encode_ne_nil (e.tick - last))
      simp only [List.length_append]
      omega

end Smf

end DseMidi
