import Mathlib.Tactic.FinCases
import DseMidi.Proofs.Bytes
import DseMidi.Proofs.Smf.Reading

/-!
# DseMidi.Proofs.Smf.RoundTrip

**A written file is read back.** `readLayout_encode` takes a written file apart into its
division and the bodies of its tracks; with the events of each body that is the whole
sequence, as far as a file keeps it.

Lengths are what holds the layers together: a chunk is cut at the length in front of it, so
a body whose length does not fit four bytes would take its neighbours along.
-/

namespace DseMidi.Smf

/-! ### Chunks -/

theorem beBytes_four (n : Nat) :
    beBytes 4 n = [UInt8.ofNat (n / 256 / 256 / 256), UInt8.ofNat (n / 256 / 256),
      UInt8.ofNat (n / 256), UInt8.ofNat n] := rfl

theorem beBytes_two (n : Nat) : beBytes 2 n = [UInt8.ofNat (n / 256), UInt8.ofNat n] := rfl

/-- A written chunk is cut off exactly behind its data. -/
theorem chunks_chunkBytes {tag data : Bytes} (htag : tag.length = 4)
    (hlen : data.length < 2 ^ 32) (rest : Bytes) :
    chunks (chunkBytes tag data ++ rest) =
      if tag = headerTag then
        match FileHeader.ofBytes? data with
        | some contents => .header contents :: chunks rest
        | none => [.unreadable]
      else if tag = trackTag then .track data :: chunks rest
      else chunks rest := by
  have hlength : beNat (beBytes 4 data.length) = data.length := by
    rw [beNat_beBytes]
    exact Nat.mod_eq_of_lt hlen
  obtain ⟨t₃, t₂, t₁, t₀, rfl⟩ : ∃ t₃ t₂ t₁ t₀, tag = [t₃, t₂, t₁, t₀] := by
    match tag, htag with
    | [t₃, t₂, t₁, t₀], _ => exact ⟨t₃, t₂, t₁, t₀, rfl⟩
  rw [beBytes_four] at hlength
  -- The equation is taken as it stands and not by `rw`, whose matches are its own.
  have hread := chunks.eq_2 t₃ t₂ t₁ t₀ (.ofNat (data.length / 256 / 256 / 256))
    (.ofNat (data.length / 256 / 256)) (.ofNat (data.length / 256)) (.ofNat data.length)
    (data ++ rest)
  rw [hlength, List.take_left, List.drop_left] at hread
  rw [chunkBytes, beBytes_four]
  simp only [List.cons_append, List.nil_append]
  exact hread

theorem chunks_track {data : Bytes} (hlen : data.length < 2 ^ 32) (rest : Bytes) :
    chunks (chunkBytes trackTag data ++ rest) = .track data :: chunks rest := by
  rw [chunks_chunkBytes rfl hlen, if_neg (by decide), if_pos rfl]

theorem chunks_header {data : Bytes} {contents : FileHeader} (hlen : data.length < 2 ^ 32)
    (h : FileHeader.ofBytes? data = some contents) (rest : Bytes) :
    chunks (chunkBytes headerTag data ++ rest) = .header contents :: chunks rest := by
  rw [chunks_chunkBytes rfl hlen, if_pos rfl, h]

theorem chunks_tracks {bodies : List Bytes} (h : ∀ body ∈ bodies, body.length < 2 ^ 32) :
    chunks (bodies.flatMap (chunkBytes trackTag)) = bodies.map .track := by
  induction bodies with
  | nil => rw [List.flatMap_nil, chunks, List.map_nil]
  | cons body bodies ih =>
    obtain ⟨hbody, hbodies⟩ := List.forall_mem_cons.mp h
    rw [List.flatMap_cons, chunks_track hbody, ih hbodies, List.map_cons]

/-! ### The header -/

theorem isDivision_high {division : UInt16}
    (h : division.toNat < 0x8000 ∨ division.toNat / 256 ∈ [0xE8, 0xE7, 0xE3, 0xE2]) :
    isDivision (UInt8.ofNat (division.toNat / 256)) = true := by
  have hbyte : (UInt8.ofNat (division.toNat / 256)).toNat = division.toNat / 256 := by
    have := division.toNat_lt
    rw [UInt8.toNat_ofNat']
    omega
  rw [isDivision, hbyte, Bool.or_eq_true, decide_eq_true_iff, decide_eq_true_iff]
  rcases h with h | h
  · left
    rw [UInt8.lt_iff_toNat_lt, hbyte]
    show division.toNat / 256 < 128
    omega
  · right
    have all : ∀ high ∈ [0xE8, 0xE7, 0xE3, 0xE2], 256 - high ∈ frameRates := by decide
    exact all _ h

/-- The contents of a written header are read back. The number of tracks is not looked at. -/
theorem FileHeader.ofBytes?_headerData {image : Image}
    (h : image.timeDivision.toNat < 0x8000 ∨
      image.timeDivision.toNat / 256 ∈ [0xE8, 0xE7, 0xE3, 0xE2]) :
    FileHeader.ofBytes? image.headerData = some ⟨.parallel, image.timeDivision⟩ := by
  have hdivision : UInt16.ofNat (beNat (beBytes 2 image.timeDivision.toNat)) =
      image.timeDivision := by
    have hlt := image.timeDivision.toNat_lt
    rw [beNat_beBytes, Nat.mod_eq_of_lt (by omega), UInt16.ofNat_toNat]
  have hformat : Format.ofNat? (beNat [0, 1]) = some .parallel := by decide
  rw [beBytes_two] at hdivision
  rw [Image.headerData, show beBytes 2 1 = [0, 1] from rfl, beBytes_two, beBytes_two]
  simp only [List.cons_append, List.nil_append, FileHeader.ofBytes?]
  rw [if_pos (isDivision_high h), hdivision, hformat, Option.map_some]

/-! ### Files -/

theorem image_eq (s : Sequence) : image s = ⟨s.timeDivision, s.tracks.map trackBody⟩ := by
  rw [image, Image.foldl_push, Image.empty, List.nil_append]

/-- The division and the bodies of a written file are read back. -/
theorem readLayout_encode {s : Sequence}
    (hdivision : s.timeDivision.toNat < 0x8000 ∨
      s.timeDivision.toNat / 256 ∈ [0xE8, 0xE7, 0xE3, 0xE2])
    (hbodies : ∀ t ∈ s.tracks, (trackBody t).length < 2 ^ 32) :
    readLayout (encode s) = .ok (⟨.parallel, s.timeDivision⟩, s.tracks.map trackBody) := by
  have hheader : FileHeader.ofBytes? (image s).headerData =
      some ⟨.parallel, s.timeDivision⟩ := by
    rw [FileHeader.ofBytes?_headerData (by rw [image_eq]; exact hdivision), image_eq]
  have hlen : (image s).headerData.length < 2 ^ 32 := by
    simp [Image.headerData]
  have hchunks : chunks (encode s) =
      .header ⟨.parallel, s.timeDivision⟩ :: (s.tracks.map trackBody).map .track := by
    rw [encode, Image.bytes, chunks_header hlen hheader, image_eq, chunks_tracks]
    intro body hbody
    obtain ⟨t, ht, rfl⟩ := List.mem_map.mp hbody
    exact hbodies t ht
  have htag : (encode s).take 4 = headerTag := rfl
  have hfile : chunksOfFile (encode s) = .ok (chunks (encode s)) := by
    rw [chunksOfFile, htag, if_neg (by decide), if_pos rfl]
  have hfilter : ((s.tracks.map trackBody).map Chunk.track).filterMap Chunk.trackData? =
      s.tracks.map trackBody := by
    rw [List.filterMap_map]
    exact List.filterMap_some
  rw [readLayout, hfile, hchunks]
  show Except.ok _ = _
  rw [hfilter]

/-- **Reading undoes writing.** A sequence that the reader can take is read back with what a
file keeps of it: the same division, the same tracks in order, in each the same events in
order at the same ticks, channels and data bytes without the bits that are not written.
The number of tracks does not matter, since the count in the header is not looked at. -/
theorem decode_encode_of_portable {s : Sequence} (h : s.Portable) :
    decode (encode s) = .ok s.normalized := by
  have hbodies : ∀ t ∈ s.tracks, (trackBody t).length < 2 ^ 32 := by
    intro t ht
    exact (h.tracks t ht).length_lt
  have hlayout := readLayout_encode h.division hbodies
  have htracks : (s.tracks.map trackBody).map
      (fun d => (⟨firstChannel (trackEvents d), trackEvents d⟩ : Track)) =
        s.tracks.map Track.normalized := by
    rw [List.map_map]
    apply List.map_congr_left
    intro t ht
    simp only [Function.comp_apply, trackEvents_trackBody (h.tracks t ht)]
    rfl
  rw [decode, hlayout]
  show Except.ok _ = _
  rw [htracks]
  rfl

/-- A sequence divided by time code, with a name in an unnamed type, bits that are not
written, times of up to three bytes and all kinds of payloads. -/
def timeCodeSequence : Sequence :=
  ⟨"", 0xE764,
    [⟨7, [.ofMeta 0 (.metaEvent (.other 0x03) [0x68, 0xFF]), ⟨200, 0x25, .noteOn 0xFF 0x64⟩,
      ⟨200, 3, .sysEx 0xF7 [0x01]⟩, ⟨16584, 0, .pitchBend 0x80 0x40⟩]⟩,
     ⟨1, [.ofMeta 5 (.tempo 500000)]⟩]⟩

theorem decode_encode_timeCodeSequence :
    timeCodeSequence.Portable ∧
      decode (encode timeCodeSequence) = .ok
        ⟨"h\uFFFD", 0xE764,
          [⟨5, [.ofMeta 0 (.metaEvent .sequenceName [0x68, 0xFF]),
            ⟨200, 5, .noteOn 0x7F 0x64⟩, ⟨200, 0, .sysEx 0xF7 [0x01]⟩,
            ⟨16584, 0, .pitchBend 0 0x40⟩]⟩,
           ⟨0, [.ofMeta 5 (.tempo 500000)]⟩]⟩ := by
  have htracks : ∀ t ∈ timeCodeSequence.tracks, t.Portable := by
    intro t ht
    fin_cases ht
    · refine ⟨?_, ?_, by decide +kernel⟩
      · unfold Spaced
        decide
      · simp [Message.Portable, MetaType.toByte, reshapedTypes, Event.ofMeta]
    · refine ⟨?_, ?_, by decide +kernel⟩
      · unfold Spaced
        decide
      · simp [Message.Portable, Message.tempo, MetaType.toByte, reshapedTypes, Event.ofMeta]
  have h : timeCodeSequence.Portable := ⟨by decide, htracks⟩
  refine ⟨h, ?_⟩
  rw [decode_encode_of_portable h]
  decide +kernel

end DseMidi.Smf
