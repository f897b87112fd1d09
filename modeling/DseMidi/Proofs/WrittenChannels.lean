import DseMidi.Proofs.Composition
import DseMidi.Proofs.DeltaTimes
import DseMidi.Proofs.Percussion

/-!
# DseMidi.Proofs.WrittenChannels

**Which channels a written file has.** A status byte has room for four bits of a channel. All
channel voice messages in the chunk of a track carry these bits of the channel of the track,
and nothing else of it is written.

Percussion tracks, and no others, are on the percussion channel when they are loaded, and their
messages still are in the file. A file has room for sixteen channels, of which fifteen are
melodic. Where more melodic tracks play notes the channels come round, and the four bits of
the twenty-fifth are those of the percussion channel: there, and at every sixteenth behind it,
a melodic track shares the channel of the percussion tracks (`convert_channels`).
-/

namespace DseMidi

/-- Of the elements in front of one in a list, fewer are counted than the list has. -/
theorem countP_take_lt {α : Type} {xs : List α} {k : Nat} {x : α} (h : xs[k]? = some x)
    (p : α → Bool) : (xs.take k).countP p < xs.length := by
  obtain ⟨hk, -⟩ := List.getElem?_eq_some_iff.mp h
  have hle := List.countP_le_length (p := p) (l := xs.take k)
  rw [List.length_take] at hle
  omega

namespace Smf

/-- The channels of the channel voice messages in a body. -/
def voiceChannels (records : List Record) : List UInt8 :=
  (records.filter fun r => r.event.message.isChannelVoice).map fun r => r.event.channel

theorem isChannelVoice_normalized (m : Message) :
    m.normalized.isChannelVoice = m.isChannelVoice := by
  cases m <;> rfl

/-- What stands in a track for its events has their messages and channels, as far as a file keeps
them. -/
theorem map_content_wireEvents (last : Nat) (events : List Event) :
    (wireEvents last events).map (fun w => (w.channel, w.message)) =
      events.map fun e => (e.normalized.channel, e.normalized.message) := by
  induction events generalizing last with
  | nil => rfl
  | cons e rest ih =>
    rw [wireEvents, List.map_cons, ih]
    rfl

theorem exists_of_mem_wireEvents {last : Nat} {events : List Event} {w : WireEvent}
    (h : w ∈ wireEvents last events) :
    ∃ e ∈ events, w.channel = e.normalized.channel ∧ w.message = e.normalized.message := by
  have hcontent : (w.channel, w.message) ∈
      events.map fun e => (e.normalized.channel, e.normalized.message) := by
    rw [← map_content_wireEvents last]
    exact List.mem_map_of_mem h
  obtain ⟨e, he, hsame⟩ := List.mem_map.mp hcontent
  obtain ⟨hchannel, hmessage⟩ := Prod.mk.inj hsame
  exact ⟨e, he, hchannel.symm, hmessage.symm⟩

/-- If all channel voice messages of a track are on one channel, those of its chunk are on what
a status byte keeps of it. -/
theorem eq_of_mem_voiceChannels {events : List Event} {channel : UInt8}
    (h : ∀ e ∈ events, e.message.isChannelVoice → e.channel = channel)
    {records : List Record}
    (hrecords : records.map Record.event = wireEvents 0 events ++ [endMark]) :
    ∀ c ∈ voiceChannels records, c = channel &&& 0x0F := by
  intro c hc
  obtain ⟨r, hr, rfl⟩ := List.mem_map.mp hc
  obtain ⟨hmem, hvoice⟩ := List.mem_filter.mp hr
  have hevent := List.mem_map_of_mem (f := Record.event) hmem
  rw [hrecords] at hevent
  rcases List.mem_append.mp hevent with hwire | hmark
  · obtain ⟨e, he, hchannel, hmessage⟩ := exists_of_mem_wireEvents hwire
    rw [hmessage, Event.normalized, isChannelVoice_normalized] at hvoice
    rw [hchannel, Event.normalized, if_pos hvoice, h e he hvoice]
  · rw [List.mem_singleton.mp hmark] at hvoice
    cases hvoice

end Smf

/-- The chunk of a loaded track holds its events, on the bits that are kept of its channel. -/
theorem Dse.Chunk.Plays.exists_walk {tables : SideTables} {data : Bytes} {name : String}
    {chunk : Dse.Chunk} {index : Nat} {t : Track} (h : chunk.Plays tables data name index t)
    (hname : name.toList.length ≤ Dse.nameFieldSize) :
    ∃ records, Smf.walk (Smf.trackBody t) = some records ∧
      records.map Smf.Record.event = Smf.wireEvents 0 t.events ++ [Smf.endMark] ∧
      ∀ c ∈ Smf.voiceChannels records, c = t.channel &&& 0x0F := by
  have hframed : ∀ e ∈ t.events, e.message.Framed :=
    fun e he => (h.portable hname e he).framed
  have hevents : ((Smf.wireEvents 0 t.events ++ [Smf.endMark]).map Smf.Record.ofWire).map
      Smf.Record.event = Smf.wireEvents 0 t.events ++ [Smf.endMark] := by
    rw [List.map_map]
    exact List.map_id _
  refine ⟨_, Smf.walk_eventsBytes hframed 0, hevents, ?_⟩
  exact Smf.eq_of_mem_voiceChannels (fun e he => h.channel_of_mem he) hevents

/-! ### Written files -/

/-- A written file is a header and one chunk for each loaded track. -/
theorem convert_inv {tables : SideTables} {data file : Bytes}
    (h : convert tables data = .ok file) :
    ∃ loaded, load tables data = .ok loaded ∧
      file = Smf.chunkBytes Smf.headerTag
          (Smf.Image.headerData ⟨outputDivision, loaded.sequence.tracks.map Smf.trackBody⟩) ++
        (loaded.sequence.tracks.map Smf.trackBody).flatMap (Smf.chunkBytes Smf.trackTag) := by
  cases hload : load tables data with
  | error fault =>
    rw [convert, hload] at h
    cases h
  | ok loaded =>
    obtain rfl := Except.ok.inj ((convert_of_load hload).symm.trans h)
    obtain ⟨header, -, -, hdivision, -⟩ := load_inv hload
    refine ⟨loaded, rfl, ?_⟩
    rw [Smf.encode, Smf.image_eq, hdivision]
    rfl

/-- **Channels of written files.** A written file is a header and one chunk for each loaded
track, in which every channel voice message carries the four low bits of the track's channel.
For a percussion track that is the percussion channel. Any other track is loaded on another
channel; its messages carry the percussion channel exactly if, of the tracks in front of it,
24, 40, 56, and so on in steps of sixteen are melodic and play notes. -/
theorem convert_channels {tables : SideTables} {data file : Bytes}
    (h : convert tables data = .ok file) :
    ∃ loaded bodies, load tables data = .ok loaded ∧
      file = Smf.chunkBytes Smf.headerTag (Smf.Image.headerData ⟨outputDivision, bodies⟩) ++
        bodies.flatMap (Smf.chunkBytes Smf.trackTag) ∧
      List.Forall₂ (fun (p : Track × Nat) body =>
          let melodic := (loaded.sequence.tracks.take p.2).countP Track.keepsChannel
          ∃ records, Smf.walk body = some records ∧
            records.map Smf.Record.event =
              Smf.wireEvents 0 p.1.events ++ [Smf.endMark] ∧
            (∀ c ∈ Smf.voiceChannels records, c = p.1.channel &&& 0x0F) ∧
            (p.1.isPercussion → p.1.channel = percussionChannel ∧
              ∀ c ∈ Smf.voiceChannels records, c = percussionChannel) ∧
            (¬ p.1.isPercussion → p.1.channel ≠ percussionChannel ∧
              ∀ c ∈ Smf.voiceChannels records,
                (c = percussionChannel ↔ 24 ≤ melodic ∧ melodic % 16 = 8)))
        loaded.sequence.tracks.zipIdx bodies := by
  obtain ⟨loaded, hload, hfile⟩ := convert_inv h
  obtain ⟨header, hheader, -, -, htracks⟩ := load_inv hload
  have hname := Dse.Header.length_name_le hheader
  have hcount := Dse.Header.length_tracks_lt hheader
  rw [← List.length_zipIdx, htracks.length_eq] at hcount
  refine ⟨loaded, _, hload, hfile, ?_⟩
  rw [List.forall₂_map_right_iff, ← List.zipIdx_map_fst 0 loaded.sequence.tracks,
    List.forall₂_map_right_iff, List.zipIdx_map_fst, List.forall₂_same]
  intro p hp
  have hk := List.mem_zipIdx_iff_getElem?.mp hp
  have ht := List.mem_of_getElem? hk
  have hchannel := channel_of_getElem?_load hload hk
  have hpercussion := channel_eq_percussionChannel_iff hload ht
  obtain ⟨chunk, -, hplays⟩ := exists_mem_of_forall₂ htracks ht
  obtain ⟨records, hwalk, hevents, hvoices⟩ := hplays.exists_walk hname
  refine ⟨records, hwalk, hevents, hvoices, ?_, ?_⟩
  · intro htrack
    have hon := hpercussion.mpr htrack
    refine ⟨hon, ?_⟩
    intro c hc
    rw [hvoices c hc, hon]
    decide
  · intro htrack
    refine ⟨mt hpercussion.mp htrack, ?_⟩
    intro c hc
    have hmelodic : (loaded.sequence.tracks.take p.2).countP Track.keepsChannel <
        loaded.sequence.tracks.length :=
      countP_take_lt hk Track.keepsChannel
    rw [hvoices c hc, hchannel, Track.channelBehind, if_neg htrack]
    exact melodicChannel_and_eq_percussionChannel_iff (by omega)

/-- What one voice of a choir plays: a note, and a delay that it does not outlast. -/
def choirPart : List Dse.Instruction :=
  [.setOctave 5, .note 100 0x60 [8], .delay8 96]

/-- The data of a voice in a choir. -/
def choirBody : Bytes :=
  List.replicate 4 0 ++ (Dse.streamBytes choirPart ++ [Dse.endOpcode])

/-- A file of as many voices. -/
def choirFile (voices : Nat) (h : voices ≤ 255) : Dse.FileLayout :=
  Dse.filledFile 0 (List.replicate voices (Dse.filledChunk 0 choirBody (by decide)))
    (by simpa using h)

theorem carries_choirFile (voices : Nat) (h : voices ≤ 255) :
    (choirFile voices h).Carries
      (List.replicate voices (choirPart.map Dse.Instruction.bytes)) := by
  have hvoice : Dse.Spells (choirBody.drop Dse.preambleLength)
      (choirPart.map Dse.Instruction.bytes) Dse.endOpcode := by
    have hwell : ∀ i ∈ choirPart, i.WellFormed := by decide
    exact ⟨List.forall_mem_map.mpr fun i hi => (hwell i hi).isWord, [], rfl⟩
  show List.Forall₂ _ (List.replicate voices _) _
  clear h
  induction voices with
  | zero => exact List.Forall₂.nil
  | succ voices ih => exact List.Forall₂.cons hvoice ih

/-- Track number `index` of a choir before it is moved to a channel. -/
def choirTrack (name : String) (index : Nat) : Track :=
  ⟨UInt8.ofNat index, Dse.titleEvents name index ++
    [⟨0, UInt8.ofNat index, .noteOn 60 100⟩, .noteOff 15 (UInt8.ofNat index) 60,
      .ofMeta 192 (.text Dse.endMarker)]⟩

/-- A voice is in order as it is played. -/
theorem toTrack_choirPart (name : String) (index : Nat) :
    (playedWords .default index (choirPart.map Dse.Instruction.bytes)).toTrack name index =
      choirTrack name index := by
  have hinstructions :
      Dse.instructionsOf (choirPart.map Dse.Instruction.bytes) = choirPart := by
    rw [Dse.instructionsOf, Dse.flatten_map_bytes, Dse.Listing.ofBytes_streamBytes (by decide)]
  have hplayed : (playedWords .default index (choirPart.map Dse.Instruction.bytes)).events =
      [⟨0, UInt8.ofNat index, .noteOn 60 100⟩, .noteOff 15 (UInt8.ofNat index) 60,
        .ofMeta 192 (.text Dse.endMarker)] := by
    rw [playedWords, hinstructions]
    rfl
  have hordered : (choirTrack name index).events.Pairwise
      fun a b => decide (a.tick ≤ b.tick) = true := by
    by_cases hindex : index = 0 <;>
      simp [choirTrack, Dse.titleEvents, hindex, Event.noteOff, Event.ofMeta]
  rw [Dse.Decoded.toTrack_eq, hplayed]
  show Track.sort (choirTrack name index) = _
  rw [Track.sort, List.mergeSort_of_pairwise hordered]

theorem playedTracks_choir (name : String) (voices : Nat) :
    playedTracks .default name 0
        (List.replicate voices (choirPart.map Dse.Instruction.bytes)) =
      (List.range voices).map (choirTrack name) := by
  have htrack : ∀ p ∈ (List.replicate voices (choirPart.map Dse.Instruction.bytes)).zipIdx,
      (playedWords .default p.2 p.1).toTrack name p.2 = choirTrack name p.2 := by
    intro p hp
    rw [List.eq_of_mem_replicate (List.fst_mem_of_mem_zipIdx hp), toTrack_choirPart]
  have hindices := List.zipIdx_map_snd 0
    (List.replicate voices (choirPart.map Dse.Instruction.bytes))
  rw [List.length_replicate, ← List.range_eq_range'] at hindices
  rw [playedTracks, List.map_congr_left htrack, ← hindices, List.map_map]
  rfl

/-- Of twenty-four voices, none is written on the percussion channel. -/
theorem convert_channels_choirFile :
    ∃ file bodies, convert .default (choirFile 24 (by decide)).bytes = .ok file ∧
      file = Smf.chunkBytes Smf.headerTag (Smf.Image.headerData ⟨outputDivision, bodies⟩) ++
        bodies.flatMap (Smf.chunkBytes Smf.trackTag) ∧
      bodies.length = 24 ∧
      ∀ body ∈ bodies, ∃ records, Smf.walk body = some records ∧
        percussionChannel ∉ Smf.voiceChannels records := by
  obtain ⟨loaded, hload, hsequence, -⟩ := (carries_choirFile 24 (by decide)).exists_load .default
  have hconvert := convert_of_load hload
  obtain ⟨loaded', bodies, hload', hfile, hbodies⟩ := convert_channels hconvert
  obtain rfl := Except.ok.inj (hload.symm.trans hload')
  have hlength : loaded.sequence.tracks.length = 24 := by
    rw [hsequence]
    simp [allocateChannels, playedTracks]
  have hmelodic : ∀ t ∈ loaded.sequence.tracks, t.isPercussion = false := by
    rw [hsequence, playedTracks_choir]
    decide +kernel
  refine ⟨_, bodies, hconvert, hfile, ?_, ?_⟩
  · rw [← hbodies.length_eq, List.length_zipIdx, hlength]
  · intro body hbody
    obtain ⟨p, hp, records, hwalk, -, -, -, hother⟩ := exists_mem_of_forall₂ hbodies hbody
    have hk := List.mem_zipIdx_iff_getElem?.mp hp
    have hnot : ¬ p.1.isPercussion := by
      rw [hmelodic p.1 (List.mem_of_getElem? hk)]
      decide
    refine ⟨records, hwalk, ?_⟩
    intro hmem
    have hmany := ((hother hnot).2 _ hmem).mp rfl
    have hfew := countP_take_lt hk Track.keepsChannel
    omega

/-- The twenty-fifth of twenty-five voices selects no program, and its note is written on the
percussion channel. -/
theorem convert_choirFile :
    ∃ file loaded bodies t body records,
      convert .default (choirFile 25 (by decide)).bytes = .ok file ∧
      load .default (choirFile 25 (by decide)).bytes = .ok loaded ∧
      file = Smf.chunkBytes Smf.headerTag (Smf.Image.headerData ⟨outputDivision, bodies⟩) ++
        bodies.flatMap (Smf.chunkBytes Smf.trackTag) ∧
      loaded.sequence.tracks[24]? = some t ∧ bodies[24]? = some body ∧
      t.selectsProgram percussionProgram = false ∧ Smf.walk body = some records ∧
      Smf.voiceChannels records = [percussionChannel, percussionChannel] := by
  obtain ⟨loaded, hload, hsequence, -⟩ := (carries_choirFile 25 (by decide)).exists_load .default
  have hconvert := convert_of_load hload
  obtain ⟨loaded', hload', hfile⟩ := convert_inv hconvert
  obtain rfl := Except.ok.inj (hload.symm.trans hload')
  have htrack : loaded.sequence.tracks[24]? = some ((choirTrack "demo" 24).onChannel 25) := by
    rw [hsequence, playedTracks_choir]
    decide +kernel
  have hframed : ∀ e ∈ ((choirTrack "demo" 24).onChannel 25).events, e.message.Framed := by
    simp [choirTrack, Dse.titleEvents, Track.onChannel, Event.noteOff, Event.ofMeta, Message.text,
      Message.Framed]
  refine ⟨_, loaded, _, _, _, _, hconvert, hload, hfile, htrack, ?_, by decide,
    Smf.walk_eventsBytes hframed 0, by decide⟩
  rw [List.getElem?_map, htrack]
  rfl

end DseMidi
