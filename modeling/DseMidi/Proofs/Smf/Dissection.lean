import Mathlib.Data.List.Forall2
import Mathlib.Tactic.FinCases
import DseMidi.Proofs.Smf.Placement
import DseMidi.Proofs.Smf.RoundTrip
import DseMidi.Proofs.Smf.Walk

/-!
# DseMidi.Proofs.Smf.Dissection

**A written file can be taken apart in one way only.** `contents?` cuts a file at the lengths
that stand in it: chunks at theirs, payloads at theirs, channel voice messages at the number of
data bytes that their status has, times where their last group is. It looks for no marks and
resumes nowhere, so payloads can hold anything, also what looks like an event or a chunk; and it
refuses a file of which anything is left over.

* `quantity?` and `block?` read numbers and payloads with the quantity reader of the library,
  which has no limit on groups and keeps 64 bits.
* `events?_eventsBytes` takes the body of a track apart, and `contents?_encode` a whole file,
  for ticks of up to 64 bits. What comes out decides the sequence, as far as a file keeps it.
-/

namespace DseMidi

/-- The track is one that a file can hold: its events are in order, and ticks, status bytes and
the length of the body fit their fields. -/
structure Track.Writable (t : Track) : Prop where
  ordered : Ordered t.events
  tick_lt : ∀ e ∈ t.events, e.tick < 2 ^ 64
  framed : ∀ e ∈ t.events, e.message.Framed
  length_lt : (Smf.trackBody t).length < 2 ^ 32

namespace Smf

/-! ### Cutting events -/

/-- The quantity in front of `bytes`, and the bytes behind it. -/
def quantity? (bytes : Bytes) : Option (Nat × Bytes) :=
  match Quantity.decode bytes 0 with
  | .ok (value, count) => some (value, bytes.drop count)
  | .error _ => none

/-- The payload behind its length in front of `bytes`, and the bytes behind it. -/
def block? (bytes : Bytes) : Option (Bytes × Bytes) :=
  (quantity? bytes).bind fun (length, rest) => splitExact length rest

/-- The number of data bytes that follow the status byte of a channel voice message. -/
def dataLength (status : UInt8) : Nat :=
  if status.toNat / 16 = 0xC ∨ status.toNat / 16 = 0xD then 1 else 2

/-- The channel voice message with a status byte and data. -/
def voiceMessage? (status : UInt8) (data : Bytes) : Option Message :=
  match status.toNat / 16, data with
  | 0x8, [key, velocity] => some (.noteOff key velocity)
  | 0x9, [key, velocity] => some (.noteOn key velocity)
  | 0xA, [key, pressure] => some (.noteAftertouch key pressure)
  | 0xB, [number, value] => some (.controller number value)
  | 0xC, [program] => some (.programChange program)
  | 0xD, [pressure] => some (.channelAftertouch pressure)
  | 0xE, [lsb, msb] => some (.pitchBend lsb msb)
  | _, _ => none

/-- The meta event behind its status byte, and the bytes behind it. -/
def metaContent? : Bytes → Option (Message × Bytes)
  | [] => none
  | type :: rest => (block? rest).map fun (data, rest) => (.metaEvent (.ofByte type) data, rest)

/-- The message in front of `bytes` with its channel, and the bytes behind it. -/
def content? : Bytes → Option (UInt8 × Message × Bytes)
  | [] => none
  | status :: rest =>
    if status = 0xFF then (metaContent? rest).map fun (message, rest) => (0, message, rest)
    else if status = 0xF0 ∨ status = 0xF7 then
      (block? rest).map fun (data, rest) => (0, .sysEx status data, rest)
    else
      (splitExact (dataLength status) rest).bind fun (data, rest) =>
        (voiceMessage? status data).map fun message => (status &&& 0x0F, message, rest)

/-- The event in front of `bytes`, behind its time, and the bytes behind it. -/
def event? (bytes : Bytes) : Option (WireEvent × Bytes) :=
  (quantity? bytes).bind fun (delta, rest) =>
    (content? rest).map fun (channel, message, rest) => (⟨delta, channel, message⟩, rest)

/-- The events of a body, if it consists of them and of nothing else. -/
def events? (bytes : Bytes) : Option (List WireEvent) :=
  if bytes.isEmpty then some []
  else
    match event? bytes with
    | none => none
    | some (w, rest) =>
      if _ : rest.length < bytes.length then (events? rest).map fun ws => w :: ws else none
termination_by bytes.length

theorem events?_nil : events? [] = some [] := by
  rw [events?]
  rfl

theorem events?_of_event? {bytes rest : Bytes} {w : WireEvent}
    (h : event? bytes = some (w, rest)) (hlt : rest.length < bytes.length) :
    events? bytes = (events? rest).map fun ws => w :: ws := by
  have hne : bytes.isEmpty = false := by
    cases bytes with
    | nil => exact absurd hlt (Nat.not_lt_zero _)
    | cons b bytes => rfl
  rw [events?, hne, h]
  simp [hlt]

/-! ### Cutting files -/

/-- What a file says of itself, and the events of its tracks. -/
structure Contents where
  format : Nat
  trackCount : Nat
  timeDivision : Nat
  tracks : List (List WireEvent)

/-- The data of a chunk of one kind in front of `bytes`, and the bytes behind it. -/
def chunkData? (tag bytes : Bytes) : Option (Bytes × Bytes) :=
  (splitExact 4 bytes).bind fun (found, rest) =>
    if found = tag then
      (splitExact 4 rest).bind fun (length, rest) => splitExact (beNat length) rest
    else none

/-- The events of a number of track chunks, if `bytes` consist of them and of nothing else. -/
def trackChunks? : Nat → Bytes → Option (List (List WireEvent))
  | 0, bytes => if bytes.isEmpty then some [] else none
  | count + 1, bytes =>
    (chunkData? trackTag bytes).bind fun (body, rest) =>
      (events? body).bind fun ws => (trackChunks? count rest).map fun tracks => ws :: tracks

/-- The contents of a file that consists of a header, as many track chunks as the header says,
and of nothing else. -/
def contents? (file : Bytes) : Option Contents :=
  (chunkData? headerTag file).bind fun (header, rest) =>
    match header with
    | [f₁, f₀, n₁, n₀, d₁, d₀] =>
      (trackChunks? (beNat [n₁, n₀]) rest).map fun tracks =>
        ⟨beNat [f₁, f₀], beNat [n₁, n₀], beNat [d₁, d₀], tracks⟩
    | _ => none

/-! ### Written events -/

theorem quantity?_encode {n : Nat} (h : n < 2 ^ 64) (rest : Bytes) :
    quantity? (Quantity.encode n ++ rest) = some (n, rest) := by
  have hvalue : n % Quantity.modulus = n := Nat.mod_eq_of_lt h
  rw [quantity?, Quantity.decode_encode, hvalue]
  dsimp only
  rw [List.drop_left]

theorem block?_payloadBytes {data : Bytes} (h : data.length < 2 ^ 64) (rest : Bytes) :
    block? (payloadBytes data ++ rest) = some (data, rest) := by
  rw [block?, payloadBytes, List.append_assoc, quantity?_encode h, Option.bind_some]
  exact splitExact_eq_some_iff.mpr ⟨rfl, rfl⟩

/-- The number of data bytes and the message are decided by the status nibble. -/
theorem dataLength_congr {status status' : UInt8} (h : status.toNat / 16 = status'.toNat / 16) :
    dataLength status = dataLength status' := by
  rw [dataLength, dataLength, h]

theorem voiceMessage?_congr {status status' : UInt8}
    (h : status.toNat / 16 = status'.toNat / 16) (data : Bytes) :
    voiceMessage? status data = voiceMessage? status' data := by
  unfold voiceMessage?
  rw [h]

/-- A channel voice message is cut behind the data that its status has. -/
theorem content?_voiceBytes {status : UInt8} (hs : status ∈ voiceStatuses) (channel : UInt8)
    {data : Bytes} {m : Message} (hlength : dataLength status = data.length)
    (hmessage : voiceMessage? status (data.map (· &&& 0x7F)) = some m) (rest : Bytes) :
    content? (voiceBytes status channel data ++ rest) = some (channel &&& 0x0F, m, rest) := by
  obtain ⟨hnibble, hchannel⟩ := voiceStatus_or hs channel
  have hvoice := (voiceStatus_bounds hs channel).2
  have hsystem : ∀ system : UInt8, ¬ system < 0xF0 →
      status ||| (channel &&& 0x0F) ≠ system := by
    rintro system hsystem rfl
    exact hsystem hvoice
  have hcut : splitExact data.length (data.map (· &&& 0x7F) ++ rest) =
      some (data.map (· &&& 0x7F), rest) :=
    splitExact_eq_some_iff.mpr ⟨rfl, List.length_map _⟩
  rw [voiceBytes, List.cons_append, content?, if_neg (hsystem 0xFF (by decide)),
    if_neg (not_or.mpr ⟨hsystem 0xF0 (by decide), hsystem 0xF7 (by decide)⟩),
    dataLength_congr hnibble, hlength, hcut, Option.bind_some]
  dsimp only
  rw [voiceMessage?_congr hnibble, hmessage, Option.map_some, hchannel]

/-- A written message is cut off with what a file keeps of it, whatever its payload and what
follows it look like. -/
theorem content?_eventBytes {e : Event} (hframed : e.message.Framed)
    (hlength : (eventBytes e).length < 2 ^ 64) (rest : Bytes) :
    content? (eventBytes e ++ rest) =
      some (e.normalized.channel, e.normalized.message, rest) := by
  rcases e with ⟨tick, channel, message⟩
  cases message with
  | noteOff key velocity =>
    exact content?_voiceBytes (show 0x80 ∈ voiceStatuses by decide) channel rfl rfl rest
  | noteOn key velocity =>
    exact content?_voiceBytes (show 0x90 ∈ voiceStatuses by decide) channel rfl rfl rest
  | noteAftertouch key pressure =>
    exact content?_voiceBytes (show 0xA0 ∈ voiceStatuses by decide) channel rfl rfl rest
  | controller number value =>
    exact content?_voiceBytes (show 0xB0 ∈ voiceStatuses by decide) channel rfl rfl rest
  | programChange program =>
    exact content?_voiceBytes (show 0xC0 ∈ voiceStatuses by decide) channel rfl rfl rest
  | channelAftertouch pressure =>
    exact content?_voiceBytes (show 0xD0 ∈ voiceStatuses by decide) channel rfl rfl rest
  | pitchBend lsb msb =>
    exact content?_voiceBytes (show 0xE0 ∈ voiceStatuses by decide) channel rfl rfl rest
  | metaEvent type data =>
    have hdata : data.length < 2 ^ 64 := by
      simp only [eventBytes, payloadBytes, List.length_cons, List.length_append] at hlength
      omega
    show (metaContent? (type.toByte :: (payloadBytes data ++ rest))).map _ = _
    rw [metaContent?, block?_payloadBytes hdata]
    rfl
  | sysEx status data =>
    have hdata : data.length < 2 ^ 64 := by
      simp only [eventBytes, payloadBytes, List.length_cons, List.length_append] at hlength
      omega
    show content? (status :: (payloadBytes data ++ rest)) = _
    rcases hframed with rfl | rfl
    · show (block? (payloadBytes data ++ rest)).map _ = _
      rw [block?_payloadBytes hdata]
      rfl
    · show (block? (payloadBytes data ++ rest)).map _ = _
      rw [block?_payloadBytes hdata]
      rfl

theorem event?_encode {e : Event} (hframed : e.message.Framed)
    (hlength : (eventBytes e).length < 2 ^ 64) {delta : Nat} (hdelta : delta < 2 ^ 64)
    (rest : Bytes) :
    event? (Quantity.encode delta ++ eventBytes e ++ rest) =
      some (⟨delta, e.normalized.channel, e.normalized.message⟩, rest) := by
  rw [event?, List.append_assoc, quantity?_encode hdelta, Option.bind_some]
  dsimp only
  rw [content?_eventBytes hframed hlength, Option.map_some]

/-! ### Written tracks -/

theorem events?_endOfTrack : events? endOfTrack = some [endMark] := by
  have hevent : event? endOfTrack = some (endMark, []) := rfl
  rw [events?_of_event? hevent (by decide), events?_nil]
  rfl

/-- A written body consists of its events, each behind its time, and of the mark at its end. -/
theorem events?_eventsBytes {events : List Event} (last : Nat)
    (htick : ∀ e ∈ events, e.tick < 2 ^ 64) (hframed : ∀ e ∈ events, e.message.Framed)
    (hlength : (eventsBytes last events).length < 2 ^ 64) :
    events? (eventsBytes last events ++ endOfTrack) =
      some (wireEvents last events ++ [endMark]) := by
  induction events generalizing last with
  | nil => exact events?_endOfTrack
  | cons e rest ih =>
    obtain ⟨hetick, htick⟩ := List.forall_mem_cons.mp htick
    obtain ⟨heframed, hframed⟩ := List.forall_mem_cons.mp hframed
    rw [eventsBytes_cons, List.length_append, List.length_append] at hlength
    have hdelta : e.tick - last < 2 ^ 64 := Nat.lt_of_le_of_lt (Nat.sub_le _ _) hetick
    have hevent := event?_encode heframed (by omega) hdelta (eventsBytes e.tick rest ++ endOfTrack)
    rw [eventsBytes_cons, List.append_assoc, events?_of_event? hevent,
      ih e.tick htick hframed (by omega)]
    · rfl
    · have hpos := List.length_pos_of_ne_nil (Quantity.encode_ne_nil (e.tick - last))
      simp only [List.length_append]
      omega

theorem events?_trackBody {t : Track} (h : t.Writable) :
    events? (trackBody t) = some (wireEvents 0 t.events ++ [endMark]) := by
  refine events?_eventsBytes 0 h.tick_lt h.framed ?_
  have hlength := h.length_lt
  rw [trackBody, List.length_append] at hlength
  omega

/-! ### Written files -/

theorem chunkData?_chunkBytes {tag data : Bytes} (htag : tag.length = 4)
    (hlength : data.length < 2 ^ 32) (rest : Bytes) :
    chunkData? tag (chunkBytes tag data ++ rest) = some (data, rest) := by
  have hvalue : beNat (beBytes 4 data.length) = data.length := by
    rw [beNat_beBytes]
    exact Nat.mod_eq_of_lt hlength
  have hcut : ∀ {n : Nat} {taken : Bytes} (rest : Bytes), taken.length = n →
      splitExact n (taken ++ rest) = some (taken, rest) :=
    fun rest h => splitExact_eq_some_iff.mpr ⟨rfl, h⟩
  rw [chunkData?, chunkBytes, List.append_assoc, List.append_assoc, hcut _ htag,
    Option.bind_some]
  dsimp only
  rw [if_pos rfl, hcut _ (length_beBytes 4 _), Option.bind_some, hvalue]
  exact hcut rest rfl

theorem trackChunks?_flatMap {tracks : List Track} (h : ∀ t ∈ tracks, t.Writable) :
    trackChunks? tracks.length ((tracks.map trackBody).flatMap (chunkBytes trackTag)) =
      some (tracks.map fun t => wireEvents 0 t.events ++ [endMark]) := by
  induction tracks with
  | nil => rfl
  | cons t tracks ih =>
    obtain ⟨ht, htracks⟩ := List.forall_mem_cons.mp h
    rw [List.length_cons, List.map_cons, List.flatMap_cons, trackChunks?,
      chunkData?_chunkBytes rfl ht.length_lt, Option.bind_some]
    dsimp only
    rw [events?_trackBody ht, Option.bind_some, ih htracks]
    rfl

theorem contents?_image {s : Sequence} (hcount : s.tracks.length < 2 ^ 16)
    (htracks : ∀ t ∈ s.tracks, t.Writable) :
    contents? (encode s) = some ⟨1, s.tracks.length, s.timeDivision.toNat,
      s.tracks.map fun t => wireEvents 0 t.events ++ [endMark]⟩ := by
  have hcountValue : beNat (beBytes 2 s.tracks.length) = s.tracks.length := by
    rw [beNat_beBytes]
    exact Nat.mod_eq_of_lt hcount
  have hdivision : beNat (beBytes 2 s.timeDivision.toNat) = s.timeDivision.toNat := by
    rw [beNat_beBytes]
    exact Nat.mod_eq_of_lt s.timeDivision.toNat_lt
  have hheader : (image s).headerData =
      beBytes 2 1 ++ beBytes 2 s.tracks.length ++ beBytes 2 s.timeDivision.toNat := by
    rw [image_eq, Image.headerData, Image.trackCount, List.length_map]
  have hheaderLength : (image s).headerData.length < 2 ^ 32 := by
    simp [hheader]
  rw [encode, Image.bytes, contents?, chunkData?_chunkBytes rfl hheaderLength, Option.bind_some,
    hheader, image_eq]
  rw [beBytes_two] at hcountValue hdivision
  simp only [beBytes_two, List.cons_append, List.nil_append, hcountValue, hdivision,
    trackChunks?_flatMap htracks, Option.map_some]
  rfl

/-- **A written file can be taken apart in one way only.** Cutting a written file at the lengths
that stand in it uses all of it up and gives format 1, the number of tracks, the division, and for
each track its events in order, as far as a file keeps them, at the sums of the times in front of
them, and behind them one mark of the end without any time. Adding the tracks one by one to an
empty image lays out the same file. Two sequences with the same file have the same division and,
as far as a file keeps them, the same events. -/
theorem contents?_encode {s : Sequence} (hcount : s.tracks.length < 2 ^ 16)
    (htracks : ∀ t ∈ s.tracks, t.Writable) :
    ∃ contents, contents? (encode s) = some contents ∧ contents.format = 1 ∧
      contents.trackCount = s.tracks.length ∧
      contents.timeDivision = s.timeDivision.toNat ∧
      List.Forall₂ (fun t ws => ∃ events, ws = events ++ [endMark] ∧
        placed events = t.events.map Event.normalized) s.tracks contents.tracks ∧
      (s.tracks.foldl Image.push (.empty s.timeDivision)).bytes = encode s ∧
      ∀ s' : Sequence, s'.tracks.length < 2 ^ 16 → (∀ t ∈ s'.tracks, t.Writable) →
        encode s' = encode s → s'.timeDivision = s.timeDivision ∧
          s'.tracks.map (fun t => t.events.map Event.normalized) =
            s.tracks.map fun t => t.events.map Event.normalized := by
  have hevents : ∀ {tracks : List Track}, (∀ t ∈ tracks, t.Writable) →
      (tracks.map fun t => wireEvents 0 t.events ++ [endMark]).map
        (fun ws => placed ws.dropLast) = tracks.map fun t => t.events.map Event.normalized := by
    intro tracks h
    rw [List.map_map]
    refine List.map_congr_left ?_
    intro t ht
    rw [Function.comp_apply, List.dropLast_concat, placed_wireEvents (h t ht).ordered]
  have hcontents := contents?_image hcount htracks
  refine ⟨_, hcontents, rfl, rfl, rfl, ?_, rfl, ?_⟩
  · rw [List.forall₂_map_right_iff, List.forall₂_same]
    intro t ht
    exact ⟨wireEvents 0 t.events, rfl, placed_wireEvents (htracks t ht).ordered⟩
  · intro s' hcount' htracks' hfile
    rw [← hfile, contents?_image hcount' htracks', Option.some.injEq, Contents.mk.injEq]
      at hcontents
    obtain ⟨-, -, hdivision, htracks''⟩ := hcontents
    refine ⟨UInt16.toNat_inj.mp hdivision, ?_⟩
    rw [← hevents htracks', htracks'', hevents htracks]

/-- A sequence with ticks of all 64 bits, bits that are not written, a track without events, a mark
of the end in the middle of a track, and payloads that look like chunks and events. -/
def longSequence : Sequence :=
  ⟨"", 0xFFFF,
    [⟨7, [⟨0, 9, .metaEvent (.other 0x2F) [0xFF, 0x2F, 0x00]⟩,
      ⟨5, 3, .sysEx 0xF7 [0x4D, 0x54, 0x72, 0x6B, 0x00, 0x00, 0x00, 0x04]⟩,
      ⟨2 ^ 63, 0x25, .noteOn 0xFF 0x64⟩, ⟨2 ^ 64 - 1, 0, .programChange 0x80⟩]⟩,
     ⟨1, []⟩]⟩

theorem contents?_encode_longSequence :
    longSequence.tracks.length < 2 ^ 16 ∧ (∀ t ∈ longSequence.tracks, t.Writable) ∧
      ∃ contents first, contents? (encode longSequence) = some contents ∧
        contents.format = 1 ∧ contents.trackCount = 2 ∧ contents.timeDivision = 0xFFFF ∧
        contents.tracks = [first ++ [endMark], [endMark]] ∧
        placed first = [⟨0, 0, .metaEvent .endOfTrack [0xFF, 0x2F, 0x00]⟩,
          ⟨5, 0, .sysEx 0xF7 [0x4D, 0x54, 0x72, 0x6B, 0x00, 0x00, 0x00, 0x04]⟩,
          ⟨2 ^ 63, 5, .noteOn 0x7F 0x64⟩, ⟨2 ^ 64 - 1, 0, .programChange 0⟩] := by
  have htracks : ∀ t ∈ longSequence.tracks, t.Writable := by
    intro t ht
    fin_cases ht
    · refine ⟨?_, by decide, ?_, by decide +kernel⟩
      · unfold Ordered
        decide
      · simp [Message.Framed]
    · refine ⟨?_, by decide, ?_, by decide +kernel⟩
      · exact List.Pairwise.nil
      · simp
  obtain ⟨contents, hcontents, hformat, hcount, hdivision, hevents, -⟩ :=
    contents?_encode (by decide) htracks
  obtain ⟨_, _, ⟨first, rfl, hfirst⟩, hrest, htwo⟩ := List.forall₂_cons_left_iff.mp hevents
  obtain ⟨_, _, ⟨second, rfl, hsecond⟩, hnil, rfl⟩ := List.forall₂_cons_left_iff.mp hrest
  obtain rfl := List.forall₂_nil_left_iff.mp hnil
  have hempty : second = [] := by
    have hlength := congrArg List.length hsecond
    simpa [placed] using hlength
  rw [hempty] at htwo
  exact ⟨by decide, htracks, contents, first, hcontents, hformat, hcount, hdivision, htwo, hfirst⟩

end Smf

end DseMidi
