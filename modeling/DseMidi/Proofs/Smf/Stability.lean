import DseMidi.Proofs.Gaps
import DseMidi.Proofs.Smf.RoundTrip

/-!
# DseMidi.Proofs.Smf.Stability

**Reading settles a sequence.** The reader rebuilds the payloads of some twenty types of
messages: it cuts fields off, drops bits that a field does not have, and turns numbers into
zero and one. What it gives is not what stood in the file, but it is something that it gives
back: rebuilding a payload twice is rebuilding it once (`metaData?_of_metaData?`).

So every event of a track that was read is one that the reader finds again, and finds as it is
(`Event.Settled`, `settled_of_mem_trackEvents`), whatever ended the track. A file that was read
can be written anew, if the gaps between its events fit a written track, and is then read as
the same sequence (`decode_encode_of_decode`).
-/

namespace DseMidi

/-- The reader finds the event again, and a file keeps all of it. -/
structure Event.Settled (e : Event) : Prop where
  legible : e.message.Legible
  normalized_eq : e.normalized = e

namespace Smf

/-! ### Payloads -/

/-- A byte that has lost its top bits has none to lose. -/
theorem and_and_self (b mask : UInt8) : b &&& mask &&& mask = b &&& mask := by
  rw [UInt8.and_assoc, UInt8.and_self]

/-- A start in time code keeps its rate and its hour without the top bit. -/
theorem smpteOffset?_inv {hours minutes seconds frames hundredths : UInt8} {kept : Bytes}
    (h : smpteOffset? hours minutes seconds frames hundredths = some kept) :
    kept = [hours &&& 0x7F, minutes, seconds, frames, hundredths] ∧
      smpteOffset? (hours &&& 0x7F) minutes seconds frames hundredths = some kept := by
  obtain ⟨hrate, hhour⟩ : (hours &&& 0x7F).toNat / 32 % 4 = hours.toNat / 32 % 4 ∧
      (hours &&& 0x7F).toNat % 32 = hours.toNat % 32 := by
    refine forall_byte ?_ hours
    decide +kernel
  simp only [smpteOffset?] at h ⊢
  split at h
  · next hrange =>
    obtain rfl := Option.some.inj h
    rw [hrate, hhour, if_pos hrange, and_and_self]
    exact ⟨rfl, rfl⟩
  · cases h

/-- **Rebuilding settles a payload**, and it never makes one longer. -/
theorem metaData?_of_metaData? {type : UInt8} {data kept : Bytes}
    (h : metaData? type data = some kept) :
    metaData? type kept = some kept ∧ kept.length ≤ data.length := by
  -- Where the payload is kept as it is, this is what `h` says.
  have hsame : kept = data → metaData? type kept = some kept ∧ kept.length ≤ data.length := by
    rintro rfl
    exact ⟨h, Nat.le_refl _⟩
  unfold metaData? at h
  split at h
  · next htype =>
    subst htype
    split at h <;> cases h <;> exact ⟨rfl, by simp⟩
  split at h
  · next htype =>
    subst htype
    split at h
    · next channel rest =>
      cases h
      refine ⟨?_, by simp⟩
      show some [channel &&& 0x0F &&& 0x0F] = _
      rw [and_and_self]
    · cases h
      exact hsame rfl
  split at h
  · next htype =>
    subst htype
    split at h
    · next device rest =>
      cases h
      refine ⟨?_, by simp⟩
      show some [device &&& 0x7F &&& 0x7F] = _
      rw [and_and_self]
    · cases h
      exact hsame rfl
  split at h
  · next htype =>
    subst htype
    split at h
    · cases h
      exact ⟨rfl, by simp⟩
    · cases h
      exact hsame rfl
  split at h
  · next htype =>
    subst htype
    split at h
    · next hours minutes seconds frames hundredths rest =>
      obtain ⟨rfl, hagain⟩ := smpteOffset?_inv h
      exact ⟨hagain, by simp⟩
    · cases h
      exact hsame rfl
  split at h
  · next htype =>
    subst htype
    split at h
    · cases h
      exact ⟨rfl, by simp⟩
    · cases h
      exact hsame rfl
  split at h
  · next htype =>
    subst htype
    split at h
    · next sharps minor rest =>
      cases h
      refine ⟨?_, by simp⟩
      by_cases hminor : minor = 0
      · rw [if_pos hminor]
        rfl
      · rw [if_neg hminor]
        rfl
    · cases h
  · cases h
    exact hsame rfl

/-! ### Messages -/

theorem and_eq_of_lt {b : UInt8} (h : b < 0x80) : b &&& 0x7F = b := by
  revert h
  refine forall_byte ?_ b
  decide +kernel

theorem readData?_inv {bytes rest : Bytes} {b : UInt8}
    (h : readData? bytes = some (b, rest)) : b &&& 0x7F = b := by
  cases bytes with
  | nil => cases h
  | cons first tail =>
    rw [readData?] at h
    split at h
    · next hlt =>
      cases h
      exact and_eq_of_lt hlt
    · cases h

theorem readOne?_inv {message : UInt8 → Message} {bytes rest : Bytes} {m : Message}
    (h : readOne? message bytes = some (m, rest)) :
    ∃ a, m = message a ∧ a &&& 0x7F = a := by
  obtain ⟨⟨a, rest⟩, hread, h⟩ := Option.map_eq_some_iff.mp h
  cases h
  exact ⟨a, rfl, readData?_inv hread⟩

theorem readTwo?_inv {message : UInt8 → UInt8 → Message} {bytes rest : Bytes} {m : Message}
    (h : readTwo? message bytes = some (m, rest)) :
    ∃ a b, m = message a b ∧ a &&& 0x7F = a ∧ b &&& 0x7F = b := by
  obtain ⟨⟨a, mid⟩, hfirst, h⟩ := Option.bind_eq_some_iff.mp h
  obtain ⟨⟨b, rest⟩, hsecond, h⟩ := Option.map_eq_some_iff.mp h
  cases h
  exact ⟨a, b, rfl, readData?_inv hfirst, readData?_inv hsecond⟩

/-- A channel voice message that is read has data bytes of seven bits. -/
theorem readVoice?_inv {status : UInt8} {bytes rest : Bytes} {m : Message}
    (h : readVoice? status bytes = some (m, rest)) :
    m.isChannelVoice ∧ m.Legible ∧ m.normalized = m := by
  unfold readVoice? at h
  repeat' split at h
  all_goals first
    | obtain ⟨a, b, rfl, ha, hb⟩ := readTwo?_inv h
      exact ⟨rfl, trivial, by rw [Message.normalized, ha, hb]⟩
    | obtain ⟨a, rfl, ha⟩ := readOne?_inv h
      exact ⟨rfl, trivial, by rw [Message.normalized, ha]⟩

theorem length_readPayload_lt (bytes : Bytes) : (readPayload bytes).1.length < 2 ^ 28 := by
  have hlt := readQuantity_lt quantityLimit 0 bytes
  have hlimit : (0 + 1) * 128 ^ quantityLimit = 2 ^ 28 := by decide
  rw [readPayload, List.length_take]
  omega

/-- A meta event that is read has a payload that is kept as it is. -/
theorem readMeta?_inv {bytes rest : Bytes} {m : Message}
    (h : readMeta? bytes = some (m, rest)) :
    ∃ type data, m = .metaEvent (.ofByte type) data ∧ metaData? type data = some data ∧
      data.length < 2 ^ 28 := by
  cases bytes with
  | nil => cases h
  | cons type tail =>
    obtain ⟨data, hdata, h⟩ := Option.map_eq_some_iff.mp h
    cases h
    obtain ⟨hkept, hle⟩ := metaData?_of_metaData? hdata
    exact ⟨type, data, rfl, hkept, Nat.lt_of_le_of_lt hle (length_readPayload_lt tail)⟩

/-! ### Events -/

theorem settled_of_readVoice? {status : UInt8} {bytes rest : Bytes} {m : Message}
    (h : readVoice? status bytes = some (m, rest)) (tick : Nat) :
    Event.Settled ⟨tick, status &&& 0x0F, m⟩ := by
  obtain ⟨hvoice, hlegible, hnormalized⟩ := readVoice?_inv h
  refine ⟨hlegible, ?_⟩
  rw [Event.normalized, if_pos hvoice, and_and_self, hnormalized]

theorem settled_of_readMeta? {bytes rest : Bytes} {m : Message}
    (h : readMeta? bytes = some (m, rest)) {delta : Nat}
    (hmark : WireEvent.isEndOfTrack ⟨delta, 0, m⟩ = false) (tick : Nat) :
    Event.Settled ⟨tick, 0, m⟩ := by
  obtain ⟨type, data, rfl, hkept, hlength⟩ := readMeta?_inv h
  have htype : type ≠ 0x2F := by
    rintro rfl
    cases hmark
  refine ⟨?_, ?_⟩
  · show (MetaType.ofByte type).toByte ≠ 0x2F ∧ _
    rw [MetaType.toByte_ofByte]
    exact ⟨htype, hkept, hlength⟩
  · show (⟨tick, 0, .metaEvent (.ofByte (MetaType.ofByte type).toByte) data⟩ : Event) = _
    rw [MetaType.toByte_ofByte]

/-- An event that is read is settled at any tick, unless it marks the end of a track. -/
theorem settled_of_readEvent? {running running' : Option UInt8} {bytes rest : Bytes}
    {w : WireEvent} (h : readEvent? running bytes = some (w, running', rest))
    (hmark : w.isEndOfTrack = false) (tick : Nat) :
    Event.Settled ⟨tick, w.channel, w.message⟩ := by
  obtain ⟨⟨channel, m, running'', rest'⟩, hbody, h⟩ := Option.map_eq_some_iff.mp h
  cases h
  generalize (readQuantity quantityLimit 0 bytes).2 = body at hbody
  cases body with
  | nil => cases hbody
  | cons b tail =>
    rw [readBody?] at hbody
    split at hbody
    · obtain ⟨status, -, hbody⟩ := Option.bind_eq_some_iff.mp hbody
      obtain ⟨⟨message, rest⟩, hread, hbody⟩ := Option.map_eq_some_iff.mp hbody
      cases hbody
      exact settled_of_readVoice? hread tick
    split at hbody
    · obtain ⟨⟨message, rest⟩, hread, hbody⟩ := Option.map_eq_some_iff.mp hbody
      cases hbody
      exact settled_of_readVoice? hread tick
    split at hbody
    · obtain ⟨⟨message, rest⟩, hread, hbody⟩ := Option.map_eq_some_iff.mp hbody
      cases hbody
      exact settled_of_readMeta? hread hmark tick
    split at hbody
    · next hstatus =>
      cases hbody
      exact ⟨⟨hstatus, length_readPayload_lt tail⟩, rfl⟩
    · cases hbody

theorem exists_of_mem_readEventsFrom {running : Option UInt8} {bytes : Bytes} {w : WireEvent}
    (h : w ∈ readEventsFrom running bytes) :
    ∃ running bytes running' rest, readEvent? running bytes = some (w, running', rest) := by
  fun_induction readEventsFrom running bytes with
  | case1 running bytes e running' rest hread _ ih =>
    rcases List.mem_cons.mp h with rfl | h
    · exact ⟨running, bytes, running', rest, hread⟩
    · exact ih h
  | case2 => cases h

/-! ### Tracks -/

theorem exists_of_mem_absoluteFrom {start : Nat} {ws : List WireEvent} {e : Event}
    (h : e ∈ absoluteFrom start ws) :
    ∃ w ∈ ws, w.isEndOfTrack = false ∧ e.channel = w.channel ∧ e.message = w.message := by
  induction ws generalizing start with
  | nil => cases h
  | cons w rest ih =>
    rw [absoluteFrom] at h
    split at h
    · obtain ⟨w', hw', hevent⟩ := ih h
      exact ⟨w', List.mem_cons_of_mem _ hw', hevent⟩
    · next hmark =>
      rcases List.mem_cons.mp h with rfl | h
      · exact ⟨w, List.mem_cons_self, by simpa using hmark, rfl, rfl⟩
      · obtain ⟨w', hw', hevent⟩ := ih h
        exact ⟨w', List.mem_cons_of_mem _ hw', hevent⟩

/-- Times add up to ticks that do not decrease. -/
theorem ordered_absoluteFrom (start : Nat) (ws : List WireEvent) :
    Ordered (absoluteFrom start ws) ∧ ∀ e ∈ absoluteFrom start ws, start ≤ e.tick := by
  induction ws generalizing start with
  | nil => exact ⟨List.Pairwise.nil, by simp [absoluteFrom]⟩
  | cons w rest ih =>
    obtain ⟨hordered, hle⟩ := ih (start + w.delta)
    rw [absoluteFrom]
    split
    · refine ⟨hordered, ?_⟩
      intro e he
      have := hle e he
      omega
    · refine ⟨List.pairwise_cons.mpr ⟨hle, hordered⟩, ?_⟩
      intro e he
      rcases List.mem_cons.mp he with rfl | he
      · exact Nat.le_add_right _ _
      · have := hle e he
        omega

/-- **Events that were read are settled**, however the track went on behind them. -/
theorem settled_of_mem_trackEvents {data : Bytes} {e : Event} (h : e ∈ trackEvents data) :
    e.Settled := by
  obtain ⟨w, hw, hmark, hchannel, hmessage⟩ := exists_of_mem_absoluteFrom h
  obtain ⟨running, bytes, running', rest, hread⟩ := exists_of_mem_readEventsFrom hw
  have hsettled := settled_of_readEvent? hread hmark e.tick
  rw [← hchannel, ← hmessage] at hsettled
  exact hsettled

/-- A track that was read is read again as it was, if its gaps fit a written track. -/
theorem trackEvents_trackBody_of_read {data : Bytes} {t : Track}
    (ht : t.events = trackEvents data) (hgaps : t.ShortGaps) :
    trackEvents (trackBody t) = t.events := by
  have hordered : Ordered t.events := by
    rw [ht]
    exact (ordered_absoluteFrom 0 _).1
  have hsettled : ∀ e ∈ t.events, e.Settled := by
    rw [ht]
    intro e he
    exact settled_of_mem_trackEvents he
  have hspaced := (Track.shortGaps_iff hordered).mp hgaps
  rw [trackBody, trackEvents_eventsBytes hspaced fun e he => (hsettled e he).legible]
  calc t.events.map Event.normalized = t.events.map id :=
        List.map_congr_left fun e he => (hsettled e he).normalized_eq
    _ = t.events := List.map_id _

/-! ### Files -/

/-- The division in a header that is read is one that can be written. -/
theorem FileHeader.division_of_ofBytes? {bytes : Bytes} {header : FileHeader}
    (h : FileHeader.ofBytes? bytes = some header) :
    header.timeDivision.toNat < 0x8000 ∨
      header.timeDivision.toNat / 256 ∈ [0xE8, 0xE7, 0xE3, 0xE2] := by
  rw [FileHeader.ofBytes?.eq_def] at h
  split at h
  · next f₁ f₀ n₁ n₀ high low rest =>
    split at h
    · next hdivision =>
      obtain ⟨format, -, h⟩ := Option.map_eq_some_iff.mp h
      cases h
      have hhigh := high.toNat_lt
      have hlow := low.toNat_lt
      have hvalue : (UInt16.ofNat (beNat [high, low])).toNat = high.toNat * 256 + low.toNat := by
        simp only [beNat, List.foldl_cons, List.foldl_nil, UInt16.toNat_ofNat']
        omega
      simp only [isDivision, frameRates, Bool.or_eq_true, decide_eq_true_iff,
        UInt8.lt_iff_toNat_lt, UInt8.reduceToNat, List.mem_cons, List.not_mem_nil, or_false]
        at hdivision
      simp only [hvalue, List.mem_cons, List.not_mem_nil, or_false]
      omega
    · cases h
  · cases h

theorem exists_ofBytes?_of_mem_chunks {bytes : Bytes} {header : FileHeader}
    (h : .header header ∈ chunks bytes) : ∃ data, FileHeader.ofBytes? data = some header := by
  fun_induction chunks bytes with
  | case1 => cases h
  | case2 t₃ t₂ t₁ t₀ n₃ n₂ n₁ n₀ rest _ _ data _ contents hcontents ih =>
    rcases List.mem_cons.mp h with heq | h
    · cases heq
      exact ⟨data, hcontents⟩
    · exact ih h
  | case3 => simp at h
  | case4 t₃ t₂ t₁ t₀ n₃ n₂ n₁ n₀ rest _ _ _ _ _ ih =>
    rcases List.mem_cons.mp h with heq | h
    · cases heq
    · exact ih h
  | case5 t₃ t₂ t₁ t₀ n₃ n₂ n₁ n₀ rest _ _ _ _ ih => exact ih h
  | case6 => simp at h

theorem chunksOfFile_inv {data : Bytes} {found : List Chunk}
    (h : chunksOfFile data = .ok found) : ∃ bytes, found = chunks bytes := by
  unfold chunksOfFile at h
  split at h
  · cases hriff : unwrapRiff data with
    | error fault =>
      rw [hriff] at h
      cases h
    | ok bytes =>
      rw [hriff] at h
      cases h
      exact ⟨bytes, rfl⟩
  split at h
  · cases h
    exact ⟨data, rfl⟩
  · cases h

/-- The division of a file that is read is one that can be written. -/
theorem division_of_readLayout {data : Bytes} {header : FileHeader} {trackData : List Bytes}
    (h : readLayout data = .ok (header, trackData)) :
    header.timeDivision.toNat < 0x8000 ∨
      header.timeDivision.toNat / 256 ∈ [0xE8, 0xE7, 0xE3, 0xE2] := by
  cases hfound : chunksOfFile data with
  | error fault =>
    rw [readLayout, hfound] at h
    cases h
  | ok found =>
    rw [readLayout, hfound] at h
    obtain ⟨bytes, rfl⟩ := chunksOfFile_inv hfound
    have hmem : .header header ∈ chunks bytes := by
      cases hchunks : chunks bytes with
      | nil =>
        rw [hchunks] at h
        cases h
      | cons first rest =>
        rw [hchunks] at h
        cases first with
        | header contents =>
          cases h
          exact List.mem_cons_self
        | track _ => cases h
        | unreadable => cases h
    obtain ⟨contents, hcontents⟩ := exists_ofBytes?_of_mem_chunks hmem
    exact FileHeader.division_of_ofBytes? hcontents

/-- A track of a file with parallel tracks. -/
def parallelTrack (data : Bytes) : Track :=
  ⟨firstChannel (trackEvents data), trackEvents data⟩

theorem decode_of_readLayout {data : Bytes} {division : UInt16} {trackData : List Bytes}
    (h : readLayout data = .ok (⟨.parallel, division⟩, trackData)) :
    decode data = .ok ⟨nameOfTracks (trackData.map parallelTrack), division,
      trackData.map parallelTrack⟩ := by
  rw [decode, h]
  rfl

/-- **Writing what was read changes nothing.** A sequence that is read from a file with parallel
tracks is read again from the file that it is written to, if the first ticks and the gaps of
its tracks fit four groups and the bodies of that file fit their length fields. It does not
matter how the tracks of the first file were spelled, or what ended them. -/
theorem decode_encode_of_decode {data : Bytes} {s : Sequence} {header : FileHeader}
    {trackData : List Bytes} (hlayout : readLayout data = .ok (header, trackData))
    (hformat : header.format = .parallel) (h : decode data = .ok s)
    (hgaps : ∀ t ∈ s.tracks, t.ShortGaps)
    (hbodies : ∀ t ∈ s.tracks, (trackBody t).length < 2 ^ 32) :
    decode (encode s) = .ok s := by
  have hdivision := division_of_readLayout hlayout
  obtain ⟨format, division⟩ := header
  obtain rfl : format = .parallel := hformat
  obtain rfl := Except.ok.inj ((decode_of_readLayout hlayout).symm.trans h)
  -- Each track is built from the same events again.
  have htracks : ((trackData.map parallelTrack).map trackBody).map parallelTrack =
      trackData.map parallelTrack := by
    rw [List.map_map, List.map_map]
    refine List.map_congr_left ?_
    intro d hd
    have hagain : trackEvents (trackBody (parallelTrack d)) = trackEvents d :=
      trackEvents_trackBody_of_read rfl (hgaps _ (List.mem_map_of_mem hd))
    rw [Function.comp_apply, Function.comp_apply, parallelTrack, hagain]
    rfl
  rw [decode_of_readLayout (readLayout_encode hdivision hbodies), htracks]

/-- The body of a track with nearly everything that the reader rebuilds: numbers of a track with
and without a value, a channel and a port with bits that they do not have, tempos with a byte
too many and too few, a start in time code with a top bit, metres, a key whose mode is not a
flag, an unknown type, a name that is not text, exclusive messages and a status left out.
Behind an early mark of its end, a key that is too short breaks it off. -/
def roughBody : Bytes :=
  [0x00, 0xFF, 0x00, 0x02, 0x01, 0x05, 0x00, 0xFF, 0x00, 0x00,
   0x05, 0xFF, 0x20, 0x01, 0x1F, 0x00, 0xFF, 0x21, 0x02, 0x85, 0x01,
   0x00, 0xFF, 0x51, 0x04, 0x07, 0xA1, 0x20, 0x00, 0x00, 0xFF, 0x51, 0x01, 0x07,
   0x00, 0xFF, 0x54, 0x05, 0xE1, 0x3B, 0x3B, 0x1D, 0x63,
   0x00, 0xFF, 0x58, 0x04, 0x04, 0x02, 0x18, 0x08, 0x00, 0xFF, 0x58, 0x01, 0x04,
   0x00, 0xFF, 0x59, 0x02, 0xFE, 0x05, 0x00, 0xFF, 0x7E, 0x01, 0xAA,
   0x00, 0xFF, 0x03, 0x03, 0x61, 0xFF, 0x62,
   0x00, 0xF0, 0x02, 0x01, 0xF7, 0x00, 0xF7, 0x01, 0x02,
   0x81, 0x00, 0x9A, 0x3C, 0x40, 0x10, 0x3C, 0x00,
   0x07, 0xFF, 0x2F, 0x00, 0x05, 0xC3, 0x07, 0x00, 0xFF, 0x59, 0x01, 0x00, 0x00, 0xC3, 0x08]

/-- A file with this track and one whose last event is cut short, divided by time code. -/
def roughFile : Bytes :=
  chunkBytes headerTag [0, 1, 0, 9, 0xE7, 0x28] ++ chunkBytes trackTag roughBody ++
    chunkBytes trackTag [0x00, 0xE2, 0x01, 0x02, 0x83]

/-- What is read of the file. -/
def roughSequence : Sequence :=
  ⟨"a\uFFFDb", 0xE728,
    [⟨10, [.ofMeta 0 (.metaEvent (.other 0x00) [0x01, 0x05]),
        .ofMeta 0 (.metaEvent (.other 0x00) []),
        .ofMeta 5 (.metaEvent (.other 0x20) [0x0F]), .ofMeta 5 (.metaEvent (.other 0x21) [0x05]),
        .ofMeta 5 (.metaEvent .tempo [0x07, 0xA1, 0x20]), .ofMeta 5 (.metaEvent .tempo [0x07]),
        .ofMeta 5 (.metaEvent (.other 0x54) [0x61, 0x3B, 0x3B, 0x1D, 0x63]),
        .ofMeta 5 (.metaEvent (.other 0x58) [0x04, 0x02, 0x18, 0x08]),
        .ofMeta 5 (.metaEvent (.other 0x58) [0x04]),
        .ofMeta 5 (.metaEvent (.other 0x59) [0xFE, 0x01]),
        .ofMeta 5 (.metaEvent (.other 0x7E) [0xAA]),
        .ofMeta 5 (.metaEvent .sequenceName [0x61, 0xFF, 0x62]),
        ⟨5, 0, .sysEx 0xF0 [0x01, 0xF7]⟩, ⟨5, 0, .sysEx 0xF7 [0x02]⟩,
        ⟨133, 10, .noteOn 0x3C 0x40⟩, ⟨149, 10, .noteOn 0x3C 0x00⟩,
        ⟨161, 3, .programChange 0x07⟩]⟩,
     ⟨2, [⟨0, 2, .pitchBend 0x01 0x02⟩]⟩]⟩

/-- It is read again from the file that it is written to, which is another one. -/
theorem decode_encode_roughSequence :
    decode roughFile = .ok roughSequence ∧ encode roughSequence ≠ roughFile ∧
      decode (encode roughSequence) = .ok roughSequence := by
  have hlayout : readLayout roughFile = .ok (⟨.parallel, 0xE728⟩,
      [roughBody, [0x00, 0xE2, 0x01, 0x02, 0x83]]) := by
    decide +kernel
  have hdecode : decode roughFile = .ok roughSequence := by
    decide +kernel
  have hgaps : ∀ t ∈ roughSequence.tracks, t.ShortGaps := by
    unfold Track.ShortGaps
    decide +kernel
  have hbodies : ∀ t ∈ roughSequence.tracks, (trackBody t).length < 2 ^ 32 := by
    decide +kernel
  refine ⟨hdecode, ?_, decode_encode_of_decode hlayout rfl hdecode hgaps hbodies⟩
  decide +kernel

end Smf

end DseMidi
