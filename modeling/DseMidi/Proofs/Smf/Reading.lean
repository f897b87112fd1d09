import DseMidi.Proofs.Quantity
import DseMidi.Smf.Image
import DseMidi.Smf.Sequence

/-!
# DseMidi.Proofs.Smf.Reading

**Reading back what was written.** A written file keeps four bits of a channel, seven of a
data byte and the type byte of a meta event; `Event.normalized` is an event with just
that. A sequence whose times, payloads and types the reader can take (`Sequence.Portable`)
is read back as its normalized form. Types with a layout of their own are left out there; an
event of such a type is found again if it keeps to the layout (`Message.Legible`).

The way there has a lemma for each layer: a message (`readBody?_eventBytes`), the events
of a track (`trackEvents_trackBody`), the chunks of a file (`readLayout_encode`). The
reader has no limit on the number of tracks, and neither have the lemmas.
-/

namespace DseMidi

/-! ### What a file keeps -/

/-- The message with what a file keeps of it. -/
def Message.normalized : Message → Message
  | .noteOff key velocity => .noteOff (key &&& 0x7F) (velocity &&& 0x7F)
  | .noteOn key velocity => .noteOn (key &&& 0x7F) (velocity &&& 0x7F)
  | .noteAftertouch key pressure => .noteAftertouch (key &&& 0x7F) (pressure &&& 0x7F)
  | .controller number value => .controller (number &&& 0x7F) (value &&& 0x7F)
  | .programChange program => .programChange (program &&& 0x7F)
  | .channelAftertouch pressure => .channelAftertouch (pressure &&& 0x7F)
  | .pitchBend lsb msb => .pitchBend (lsb &&& 0x7F) (msb &&& 0x7F)
  | .metaEvent type data => .metaEvent (.ofByte type.toByte) data
  | .sysEx status data => .sysEx status data

/-- The event with what a file keeps of it. Only channel voice messages have a channel. -/
def Event.normalized (e : Event) : Event :=
  ⟨e.tick, if e.message.isChannelVoice then e.channel &&& 0x0F else 0, e.message.normalized⟩

/-- The track with what a file keeps of it. Its channel is not written: it is that of the
first channel voice message. -/
def Track.normalized (t : Track) : Track :=
  ⟨Smf.firstChannel (t.events.map Event.normalized), t.events.map Event.normalized⟩

/-- The sequence with what a file keeps of it. Its name is not written either: it is the one
that an event of the first track gives. -/
def Sequence.normalized (s : Sequence) : Sequence :=
  ⟨Smf.nameOfTracks (s.tracks.map Track.normalized), s.timeDivision,
    s.tracks.map Track.normalized⟩

/-! ### What the reader can take -/

/-- The types of meta events whose data the reader cuts to a fixed layout, or drops. -/
def reshapedTypes : List UInt8 := [0x00, 0x20, 0x21, 0x2F, 0x54, 0x58, 0x59]

/-- The message is one that the reader finds again: its payload is short enough and is kept as
it is, and it does not mark the end of a track. -/
def Message.Legible : Message → Prop
  | .metaEvent type data =>
    type.toByte ≠ 0x2F ∧ Smf.metaData? type.toByte data = some data ∧ data.length < 2 ^ 28
  | .sysEx status data => (status = 0xF0 ∨ status = 0xF7) ∧ data.length < 2 ^ 28
  | _ => True

/-- The message is of a type that the reader does not reshape at all, and so is found again
whatever its payload says. -/
def Message.Portable : Message → Prop
  | .metaEvent type data =>
    type.toByte ∉ reshapedTypes ∧ (type.toByte = 0x51 → data.length ≤ 3) ∧
      data.length < 2 ^ 28
  | .sysEx status data => (status = 0xF0 ∨ status = 0xF7) ∧ data.length < 2 ^ 28
  | _ => True

/-- Each tick is at or behind the one before it, the first of them behind `last`, and by
less than a quantity of four groups holds. -/
def Spaced (last : Nat) (ticks : List Nat) : Prop :=
  (last :: ticks).IsChain fun a b => a ≤ b ∧ b - a < 2 ^ 28

/-- The track is one that the reader finds again. -/
structure Track.Portable (t : Track) : Prop where
  spaced : Spaced 0 (t.events.map Event.tick)
  messages : ∀ e ∈ t.events, e.message.Portable
  /-- The length of the body fits its field. -/
  length_lt : (Smf.trackBody t).length < 2 ^ 32

/-- The sequence is one that the reader finds again. -/
structure Sequence.Portable (s : Sequence) : Prop where
  /-- Ticks in a quarter note, or a known rate of frames. -/
  division : s.timeDivision.toNat < 0x8000 ∨
    s.timeDivision.toNat / 256 ∈ [0xE8, 0xE7, 0xE3, 0xE2]
  tracks : ∀ t ∈ s.tracks, t.Portable

namespace Smf

/-! ### Messages -/

/-- The status nibbles of channel voice messages. -/
def voiceStatuses : List UInt8 := [0x80, 0x90, 0xA0, 0xB0, 0xC0, 0xD0, 0xE0]

/-- A status nibble and a channel share a byte without getting into each other's way. -/
theorem voiceStatus_or {status : UInt8} (h : status ∈ voiceStatuses) (channel : UInt8) :
    (status ||| (channel &&& 0x0F)).toNat / 16 = status.toNat / 16 ∧
      (status ||| (channel &&& 0x0F)) &&& 0x0F = channel &&& 0x0F := by
  have all : ∀ status ∈ voiceStatuses,
      (status ||| (channel &&& 0x0F)).toNat / 16 = status.toNat / 16 ∧
        (status ||| (channel &&& 0x0F)) &&& 0x0F = channel &&& 0x0F := by
    refine forall_byte ?_ channel
    decide +kernel
  exact all status h

/-- The status byte of a channel voice message is neither data nor a system status. -/
theorem voiceStatus_bounds {status : UInt8} (h : status ∈ voiceStatuses) (channel : UInt8) :
    ¬ (status ||| (channel &&& 0x0F)) < 0x80 ∧ (status ||| (channel &&& 0x0F)) < 0xF0 := by
  have hnibble := (voiceStatus_or h channel).1
  have hrange : ∀ status ∈ voiceStatuses, 8 ≤ status.toNat / 16 ∧ status.toNat / 16 < 15 := by
    decide +kernel
  obtain ⟨hlow, hhigh⟩ := hrange status h
  simp only [UInt8.lt_iff_toNat_lt, UInt8.reduceToNat]
  constructor
  · omega
  · omega

theorem dataByte_lt (b : UInt8) : b &&& 0x7F < 0x80 := by
  refine forall_byte ?_ b
  decide +kernel

theorem readOne?_dataByte (message : UInt8 → Message) (a : UInt8) (rest : Bytes) :
    readOne? message ((a &&& 0x7F) :: rest) = some (message (a &&& 0x7F), rest) := by
  simp [readOne?, readData?, dataByte_lt]

theorem readTwo?_dataByte (message : UInt8 → UInt8 → Message) (a b : UInt8) (rest : Bytes) :
    readTwo? message ((a &&& 0x7F) :: (b &&& 0x7F) :: rest) =
      some (message (a &&& 0x7F) (b &&& 0x7F), rest) := by
  simp [readTwo?, readData?, dataByte_lt]

/-- A payload that is short enough is read back. -/
theorem readPayload_payloadBytes {data : Bytes} (h : data.length < 2 ^ 28) (rest : Bytes) :
    readPayload (payloadBytes data ++ rest) = (data, rest) := by
  rw [readPayload, payloadBytes, List.append_assoc, readQuantity_encode h]
  simp

/-- The kind of a channel voice message is decided by its status nibble. -/
theorem readVoice?_congr {status status' : UInt8} (h : status.toNat / 16 = status'.toNat / 16)
    (bytes : Bytes) : readVoice? status bytes = readVoice? status' bytes := by
  have hlt : ∀ (b : UInt8) (k : Nat), b.toNat < k * 16 ↔ b.toNat / 16 < k := by
    intro b k
    rw [Nat.div_lt_iff_lt_mul (by decide)]
  simp only [readVoice?, UInt8.lt_iff_toNat_lt, UInt8.reduceToNat, hlt _ 9, hlt _ 10, hlt _ 11,
    hlt _ 12, hlt _ 13, hlt _ 14, h]

/-- A channel voice message is read under any running status, since it brings its own. -/
theorem readBody?_voice (status : UInt8) (hs : status ∈ voiceStatuses) (channel : UInt8)
    {bytes rest : Bytes} {m : Message} (h : readVoice? status bytes = some (m, rest))
    (running : Option UInt8) :
    ∃ running', readBody? running ((status ||| (channel &&& 0x0F)) :: bytes) =
      some (channel &&& 0x0F, m, running', rest) := by
  obtain ⟨hnibble, hchannel⟩ := voiceStatus_or hs channel
  obtain ⟨hdata, hvoice⟩ := voiceStatus_bounds hs channel
  rw [readBody?, if_neg hdata, if_pos hvoice, readVoice?_congr hnibble, h, Option.map_some,
    hchannel]
  exact ⟨_, rfl⟩

/-- Data of a type that the reader does not reshape stays as it is. -/
theorem metaData?_eq_some {type : UInt8} {data : Bytes} (htype : type ∉ reshapedTypes)
    (htempo : type = 0x51 → data.length ≤ 3) : metaData? type data = some data := by
  simp only [reshapedTypes, List.mem_cons, List.not_mem_nil, or_false, not_or] at htype
  obtain ⟨h00, h20, h21, -, h54, h58, h59⟩ := htype
  unfold metaData?
  rw [if_neg h00, if_neg h20, if_neg h21]
  by_cases h51 : type = 0x51
  · rw [if_pos h51]
    match data, htempo h51 with
    | [], _ | [_], _ | [_, _], _ | [_, _, _], _ => rfl
  · rw [if_neg h51, if_neg h54, if_neg h58, if_neg h59]

theorem legible_of_portable {m : Message} (h : m.Portable) : m.Legible := by
  cases m with
  | metaEvent type data =>
    obtain ⟨htype, htempo, hlen⟩ := h
    refine ⟨?_, metaData?_eq_some htype htempo, hlen⟩
    intro heq
    rw [heq] at htype
    exact absurd htype (by decide)
  | sysEx status data => exact h
  | _ => trivial

/-- A written event is read back with what a file keeps of it. -/
theorem readBody?_eventBytes {e : Event} (h : e.message.Legible) (running : Option UInt8)
    (rest : Bytes) :
    ∃ running', readBody? running (eventBytes e ++ rest) =
      some (e.normalized.channel, e.normalized.message, running', rest) := by
  rcases e with ⟨tick, channel, message⟩
  cases message with
  | noteOff key velocity =>
    exact readBody?_voice 0x80 (by decide) channel
      (readTwo?_dataByte .noteOff key velocity rest) running
  | noteOn key velocity =>
    exact readBody?_voice 0x90 (by decide) channel
      (readTwo?_dataByte .noteOn key velocity rest) running
  | noteAftertouch key pressure =>
    exact readBody?_voice 0xA0 (by decide) channel
      (readTwo?_dataByte .noteAftertouch key pressure rest) running
  | controller number value =>
    exact readBody?_voice 0xB0 (by decide) channel
      (readTwo?_dataByte .controller number value rest) running
  | programChange program =>
    exact readBody?_voice 0xC0 (by decide) channel
      (readOne?_dataByte .programChange program rest) running
  | channelAftertouch pressure =>
    exact readBody?_voice 0xD0 (by decide) channel
      (readOne?_dataByte .channelAftertouch pressure rest) running
  | pitchBend lsb msb =>
    exact readBody?_voice 0xE0 (by decide) channel
      (readTwo?_dataByte .pitchBend lsb msb rest) running
  | metaEvent type data =>
    obtain ⟨-, hdata, hlen⟩ := h
    refine ⟨none, ?_⟩
    show (readMeta? (type.toByte :: (payloadBytes data ++ rest))).map _ = _
    rw [readMeta?, readPayload_payloadBytes hlen, hdata]
    rfl
  | sysEx status data =>
    obtain ⟨hstatus, hlen⟩ := h
    refine ⟨none, ?_⟩
    show readBody? running (status :: (payloadBytes data ++ rest)) = _
    rcases hstatus with rfl | rfl
    · show some (_, _, _, _) = _
      rw [readPayload_payloadBytes hlen]
      rfl
    · show some (_, _, _, _) = _
      rw [readPayload_payloadBytes hlen]
      rfl

/-! ### Tracks -/

/-- A message that the reader finds again does not mark the end of a track. -/
theorem isEndOfTrack_normalized {e : Event} (h : e.message.Legible) (delta : Nat) :
    WireEvent.isEndOfTrack ⟨delta, e.normalized.channel, e.normalized.message⟩ = false := by
  rcases e with ⟨tick, channel, message⟩
  cases message with
  | metaEvent type data =>
    have hne : MetaType.ofByte type.toByte ≠ .endOfTrack := by
      intro heq
      apply h.1
      rw [← MetaType.toByte_ofByte type.toByte, heq]
      rfl
    have hmessage : (⟨tick, channel, .metaEvent type data⟩ : Event).normalized.message =
        .metaEvent (.ofByte type.toByte) data := rfl
    rw [WireEvent.isEndOfTrack, hmessage]
    cases ht : MetaType.ofByte type.toByte with
    | endOfTrack => exact absurd ht hne
    | _ => rfl
  | _ => rfl

theorem readEventsFrom_of_some {running running' : Option UInt8} {bytes rest : Bytes}
    {e : WireEvent} (h : readEvent? running bytes = some (e, running', rest)) :
    readEventsFrom running bytes = e :: readEventsFrom running' rest := by
  rw [readEventsFrom]
  split <;> simp_all

theorem readEventsFrom_of_none {running : Option UInt8} {bytes : Bytes}
    (h : readEvent? running bytes = none) : readEventsFrom running bytes = [] := by
  rw [readEventsFrom]
  split <;> simp_all

theorem delta_le_of_mem_readEventsFrom {running : Option UInt8} {bytes : Bytes} {w : WireEvent}
    (h : w ∈ readEventsFrom running bytes) : w.delta ≤ 0x0FFFFFFF := by
  fun_induction readEventsFrom running bytes with
  | case1 running bytes e running' rest hread _ ih =>
    rcases List.mem_cons.mp h with rfl | h
    · obtain ⟨⟨channel, message, running'', rest'⟩, -, hevent⟩ := Option.map_eq_some_iff.mp hread
      cases hevent
      exact Nat.le_of_lt_succ (readQuantity_lt quantityLimit 0 bytes)
    · exact ih h
  | case2 => cases h

/-- The mark at the end of a track, right behind the event before it. -/
def endMark : WireEvent := ⟨0, 0, .metaEvent .endOfTrack []⟩

/-- The mark at the end of a track is read under any running status, and is the last thing
in it. -/
theorem readEventsFrom_endOfTrack (running : Option UInt8) :
    readEventsFrom running endOfTrack = [endMark] := by
  have hmark : readEvent? running endOfTrack = some (endMark, none, []) := rfl
  have hempty : readEvent? none [] = none := rfl
  rw [readEventsFrom_of_some hmark, readEventsFrom_of_none hempty]

/-- A written event is read back, with what a file keeps of it, after the time that has
passed. -/
theorem readEventsFrom_encode {e : Event} (h : e.message.Legible) {delta : Nat}
    (hdelta : delta < 2 ^ 28) (running : Option UInt8) (rest : Bytes) :
    ∃ running', readEventsFrom running (Quantity.encode delta ++ eventBytes e ++ rest) =
      ⟨delta, e.normalized.channel, e.normalized.message⟩ :: readEventsFrom running' rest := by
  obtain ⟨running', hbody⟩ := readBody?_eventBytes h running rest
  have hread : readEvent? running (Quantity.encode delta ++ eventBytes e ++ rest) =
      some (⟨delta, e.normalized.channel, e.normalized.message⟩, running', rest) := by
    rw [readEvent?, List.append_assoc, readQuantity_encode hdelta]
    dsimp only
    rw [hbody, Option.map_some]
  exact ⟨running', readEventsFrom_of_some hread⟩

/-- Events as they stand in a track behind one at tick `last`. -/
def wireEvents (last : Nat) : List Event → List WireEvent
  | [] => []
  | e :: rest =>
    ⟨e.tick - last, e.normalized.channel, e.normalized.message⟩ :: wireEvents e.tick rest

/-- The events of a written track are found, in order, each with what a file keeps of it. -/
theorem readEventsFrom_eventsBytes {events : List Event} {last : Nat}
    (hspaced : Spaced last (events.map Event.tick))
    (hmessages : ∀ e ∈ events, e.message.Legible) (running : Option UInt8) :
    readEventsFrom running (eventsBytes last events ++ endOfTrack) =
      wireEvents last events ++ [endMark] := by
  induction events generalizing last running with
  | nil => exact readEventsFrom_endOfTrack running
  | cons e rest ih =>
    obtain ⟨⟨-, hlt⟩, hrest⟩ := List.isChain_cons_cons.mp hspaced
    obtain ⟨he, hmessages⟩ := List.forall_mem_cons.mp hmessages
    obtain ⟨running', hread⟩ := readEventsFrom_encode he hlt running
      (eventsBytes e.tick rest ++ endOfTrack)
    rw [eventsBytes_cons, List.append_assoc, hread, ih hrest hmessages]
    rfl

/-- With their times added up, the events are back at their ticks. -/
theorem absoluteFrom_wireEvents {events : List Event} {last : Nat}
    (hspaced : Spaced last (events.map Event.tick))
    (hmessages : ∀ e ∈ events, e.message.Legible) :
    absoluteFrom last (wireEvents last events ++ [endMark]) = events.map Event.normalized := by
  induction events generalizing last with
  | nil => rfl
  | cons e rest ih =>
    obtain ⟨⟨hle, -⟩, hrest⟩ := List.isChain_cons_cons.mp hspaced
    obtain ⟨he, hmessages⟩ := List.forall_mem_cons.mp hmessages
    rw [wireEvents, List.cons_append, absoluteFrom, isEndOfTrack_normalized he]
    dsimp only
    rw [Nat.add_sub_of_le hle, ih hrest hmessages]
    rfl

theorem trackEvents_eventsBytes {events : List Event}
    (hspaced : Spaced 0 (events.map Event.tick))
    (hmessages : ∀ e ∈ events, e.message.Legible) :
    trackEvents (eventsBytes 0 events ++ endOfTrack) = events.map Event.normalized := by
  rw [trackEvents, readEvents, readEventsFrom_eventsBytes hspaced hmessages,
    absoluteFrom_wireEvents hspaced hmessages]

/-- The reader finds in a written track what a file keeps of it. -/
theorem trackEvents_trackBody {t : Track} (h : t.Portable) :
    trackEvents (trackBody t) = t.events.map Event.normalized :=
  trackEvents_eventsBytes h.spaced fun e he => legible_of_portable (h.messages e he)

end Smf

end DseMidi
