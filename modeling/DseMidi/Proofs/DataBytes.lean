import DseMidi.Proofs.Dump
import DseMidi.Proofs.WrittenChannels

/-!
# DseMidi.Proofs.DataBytes

**Data bytes of loaded tracks.** A data byte of a channel voice message has seven bits in MIDI.
The events of a loaded track hold whole bytes, the writer drops the eighth bit, and a dump shows
it. So a dump shows what a written file holds exactly if the bit is never set.

Almost everything that is played keeps to seven bits: velocities are opcodes below 0x80, keys are
checked against the scale (`Dse.Context.soundingKey?_lt`), bends are cut to fourteen bits. Two
things do not. The setting of a dial is an operand that is passed on as it is, and a program change
holds what the program table says. What they let through is `Dse.Instruction.overflow?`, and the
messages of a track that exceed seven bits are these and no others
(`Dse.Chunk.Plays.wideMessages_perm`).
-/

namespace DseMidi

/-! ### Seven bits -/

namespace Message

/-- The data bytes of a channel voice message. Other messages have none. -/
def dataBytes : Message → Bytes
  | noteOff key velocity => [key, velocity]
  | noteOn key velocity => [key, velocity]
  | noteAftertouch key pressure => [key, pressure]
  | controller number value => [number, value]
  | programChange program => [program]
  | channelAftertouch pressure => [pressure]
  | pitchBend lsb msb => [lsb, msb]
  | metaEvent .. | sysEx .. => []

/-- All data bytes are data bytes of MIDI. -/
def SevenBit (m : Message) : Prop := ∀ b ∈ m.dataBytes, b < 0x80

instance (m : Message) : Decidable m.SevenBit :=
  List.decidableBAll (· < 0x80) m.dataBytes

theorem sevenBit_iff_of_pair {m : Message} {a b : UInt8} (h : m.dataBytes = [a, b]) :
    m.SevenBit ↔ a < 0x80 ∧ b < 0x80 := by
  simp [SevenBit, h]

end Message

/-- The messages of events that exceed seven bits. -/
def wideMessages (events : List Event) : List Message :=
  (events.map Event.message).filter fun m => ¬ m.SevenBit

theorem wideMessages_append (events more : List Event) :
    wideMessages (events ++ more) = wideMessages events ++ wideMessages more := by
  rw [wideMessages, List.map_append, List.filter_append]
  rfl

theorem wideMessages_eq_nil_iff {events : List Event} :
    wideMessages events = [] ↔ ∀ e ∈ events, e.message.SevenBit := by
  simp [wideMessages]

theorem perm_wideMessages {events more : List Event} (h : events.Perm more) :
    (wideMessages events).Perm (wideMessages more) :=
  (h.map Event.message).filter _

theorem wideMessages_map_onChannel (channel : UInt8) (events : List Event) :
    wideMessages (events.map (Event.onChannel channel)) = wideMessages events := by
  have hmessage : Event.message ∘ Event.onChannel channel = Event.message :=
    funext (Event.onChannel_message channel)
  rw [wideMessages, List.map_map, hmessage]
  rfl

/-! ### What a file keeps -/

/-- The seven bits of a byte are all of it exactly if it is a data byte. -/
theorem dataByte_eq_iff {b : UInt8} : b &&& 0x7F = b ↔ b < 0x80 := by
  refine forall_byte ?_ b
  decide +kernel

theorem map_dataByte_eq_iff {data : Bytes} :
    data.map (· &&& 0x7F) = data ↔ ∀ b ∈ data, b < 0x80 := by
  induction data with
  | nil => simp
  | cons b data ih =>
    rw [List.map_cons, List.cons.injEq, dataByte_eq_iff, ih, List.forall_mem_cons]

/-- A file keeps a message as it is, unless it is of a channel and exceeds seven bits. -/
theorem Message.normalized_eq_iff {m : Message}
    (h : m.isChannelVoice = false → m.normalized = m) : m.normalized = m ↔ m.SevenBit := by
  cases m with
  | metaEvent | sysEx => exact iff_of_true (h rfl) (List.forall_mem_nil _)
  | _ => simp [normalized, SevenBit, dataBytes, dataByte_eq_iff]

/-- What a dump shows of a message is what a file keeps of it exactly if these are the same. -/
theorem Message.fields_normalized_iff {m : Message} :
    m.normalized.fields = m.fields ↔ m.normalized = m := by
  constructor
  · intro h
    have halike : List.Forall₂ Json.Alike (m.normalized.fields.2.map Prod.snd)
        (m.fields.2.map Prod.snd) := by
      rw [h, List.forall₂_same]
      exact fun a _ => .refl a
    exact fields_inj (congrArg Prod.fst h) halike
  · intro h
    rw [h]

namespace Smf

theorem eventBytes_of_status {e : Event} {status : UInt8} (h : e.message.status? = some status) :
    eventBytes e = voiceBytes status e.channel e.message.dataBytes := by
  rcases e with ⟨tick, channel, message⟩
  cases message <;> cases h <;> rfl

/-- The writer's masks change nothing in a message exactly if it keeps to seven bits. -/
theorem unmasked_iff {e : Event} :
    (∀ status, e.message.status? = some status →
      eventBytes e = (status ||| (e.channel &&& 0x0F)) :: e.message.dataBytes) ↔
      e.message.SevenBit := by
  rw [Message.SevenBit, ← map_dataByte_eq_iff]
  cases hstatus : e.message.status? with
  | none =>
    have hnone : e.message.dataBytes = [] := by
      rcases e with ⟨tick, channel, message⟩
      cases message <;> first | rfl | cases hstatus
    simp [hnone]
  | some status =>
    rw [eventBytes_of_status hstatus]
    simp [voiceBytes]

theorem map_message_wireEvents (last : Nat) (events : List Event) :
    (wireEvents last events).map WireEvent.message = events.map (·.message.normalized) := by
  have hcontent := congrArg (List.map Prod.snd) (map_content_wireEvents last events)
  rwa [List.map_map, List.map_map] at hcontent

end Smf

namespace Dse

/-! ### One instruction -/

/-- What an instruction lets through: a message with a data byte of eight bits. -/
def Instruction.overflow? (tables : SideTables) : Instruction → Option Message
  | .controller dial value => if value < 0x80 then none else some (.controller dial.controller value)
  | .program number =>
    let mapped := tables.programFor (number &&& 0x7F)
    if mapped < 0x80 then none else some (.programChange mapped)
  | _ => none

theorem Context.soundingKey?_lt {ctx : Context} {s : State} {arg key : UInt8}
    (h : ctx.soundingKey? s arg = some key) : key < 0x80 := by
  obtain ⟨b, -, hkey⟩ := Option.bind_eq_some_iff.mp h
  exact UInt8.lt_of_le_of_lt (SideTables.keyFor_le hkey) (by decide)

theorem bendHalves_lt (raw : UInt16) : (bendHalves raw).1 < 0x80 ∧ (bendHalves raw).2 < 0x80 := by
  -- The high half is not cut to seven bits. It has no more, since the sum wraps at 16.
  have hhigh : (raw + 0x8000).toNat / 512 % 128 = (raw + 0x8000).toNat / 512 := by
    have hword := (raw + 0x8000).toNat_lt
    omega
  constructor
  · exact Quantity.closed_group_lt _
  · rw [bendHalves, ← hhigh]
    exact Quantity.closed_group_lt _

theorem Context.sevenBit_bendRangeEvents (ctx : Context) :
    ∀ e ∈ ctx.bendRangeEvents, e.message.SevenBit := by
  simp only [bendRangeEvents, List.forall_mem_cons]
  exact ⟨by decide, by decide, by decide, by decide, List.forall_mem_nil _⟩

/-- An instruction that lets nothing through keeps to seven bits. -/
theorem Context.sevenBit_of_mem_events {ctx : Context} {s : State} {i : Instruction} {e : Event}
    (hi : i.WellFormed) (hnone : i.overflow? ctx.tables = none) (h : e ∈ ctx.events s i) :
    e.message.SevenBit := by
  cases i with
  | note velocity arg lengthBytes =>
    obtain ⟨key, hkey, rfl | rfl⟩ := events_note_inv h
    · exact (Message.sevenBit_iff_of_pair rfl).mpr ⟨soundingKey?_lt hkey, hi.1⟩
    · exact (Message.sevenBit_iff_of_pair rfl).mpr ⟨soundingKey?_lt hkey, by decide⟩
  | tempo bpm =>
    obtain ⟨micros, -, rfl⟩ := events_tempo_inv h
    exact List.forall_mem_nil _
  | pitchBend high low =>
    obtain ⟨hlow, hhigh⟩ := bendHalves_lt (UInt16.ofNat (beNat [high, low]))
    rcases List.mem_append.mp h with hrange | hbend
    · split at hrange
      · cases hrange
      · exact ctx.sevenBit_bendRangeEvents e hrange
    · obtain rfl := List.mem_singleton.mp hbend
      exact (Message.sevenBit_iff_of_pair rfl).mpr ⟨hlow, hhigh⟩
  | controller dial value =>
    obtain rfl := List.mem_singleton.mp h
    have hvalue : value < 0x80 := by simpa [Instruction.overflow?] using hnone
    have hdial : dial.controller < 0x80 := by cases dial <;> decide
    exact (Message.sevenBit_iff_of_pair rfl).mpr ⟨hdial, hvalue⟩
  | program number =>
    obtain rfl := List.mem_singleton.mp h
    have hmapped : ctx.tables.programFor (number &&& 0x7F) < 0x80 := by
      simpa [Instruction.overflow?] using hnone
    exact List.forall_mem_singleton.mpr hmapped
  | loopStart | verbatim _ _ =>
    obtain rfl := List.mem_singleton.mp h
    exact List.forall_mem_nil _
  | fixedDelay _ | repeatDelay | addDelay _ | delay8 _ | delay16 _ _ | setOctave _ => cases h

/-- What an instruction lets through is all that it gives. -/
theorem Context.events_of_overflow? {ctx : Context} {s : State} {i : Instruction} {m : Message}
    (h : i.overflow? ctx.tables = some m) :
    (ctx.events s i).map Event.message = [m] ∧ ¬ m.SevenBit := by
  cases i with
  | controller dial value =>
    obtain ⟨hvalue, hm⟩ := Option.ite_none_left_eq_some.mp h
    cases hm
    exact ⟨rfl, fun hseven => hvalue ((Message.sevenBit_iff_of_pair rfl).mp hseven).2⟩
  | program number =>
    obtain ⟨hmapped, hm⟩ := Option.ite_none_left_eq_some.mp h
    cases hm
    exact ⟨rfl, fun hseven => hmapped (hseven _ List.mem_cons_self)⟩
  | _ => cases h

/-- **One step.** The messages of an instruction that exceed seven bits are what it lets
through. -/
theorem Context.wideMessages_events (ctx : Context) (s : State) {i : Instruction}
    (hi : i.WellFormed) : wideMessages (ctx.events s i) = (i.overflow? ctx.tables).toList := by
  cases hover : i.overflow? ctx.tables with
  | none => exact wideMessages_eq_nil_iff.mpr fun e he => sevenBit_of_mem_events hi hover he
  | some m =>
    obtain ⟨hevents, hm⟩ := ctx.events_of_overflow? (s := s) hover
    rw [wideMessages, hevents]
    simp [hm]

/-! ### Whole runs -/

/-- **A whole run** lets through what its instructions do. -/
theorem Context.wideMessages_play (ctx : Context) (offset : Nat) (s : State)
    {is : List Instruction} (h : ∀ i ∈ is, i.WellFormed) :
    wideMessages (ctx.play offset s is).events = is.filterMap (·.overflow? ctx.tables) := by
  induction is generalizing offset s with
  | nil => rfl
  | cons i is ih =>
    obtain ⟨hi, his⟩ := List.forall_mem_cons.mp h
    rw [play_cons, wideMessages_append, ctx.wideMessages_events s hi, ih _ _ his,
      List.filterMap_cons]
    cases i.overflow? ctx.tables <;> rfl

/-- Nothing is lost of meta events, since their types are named ones. -/
theorem Context.normalized_of_mem_events {ctx : Context} {s : State} {i : Instruction} {e : Event}
    (h : e ∈ ctx.events s i) (hmeta : e.message.isChannelVoice = false) :
    e.message.normalized = e.message := by
  cases i with
  | note velocity arg lengthBytes =>
    obtain ⟨key, -, rfl | rfl⟩ := events_note_inv h
    · cases hmeta
    · cases hmeta
  | tempo bpm =>
    obtain ⟨micros, -, rfl⟩ := events_tempo_inv h
    rfl
  | pitchBend high low =>
    rcases events_pitchBend_inv h with ⟨-, hrange⟩ | ⟨lsb, msb, rfl⟩
    · obtain ⟨-, number, -, value, hmessage⟩ := bendRangeEvents_inv hrange
      rw [hmessage] at hmeta
      cases hmeta
    · cases hmeta
  | controller _ _ | program _ =>
    obtain rfl := List.mem_singleton.mp h
    cases hmeta
  | loopStart | verbatim _ _ =>
    obtain rfl := List.mem_singleton.mp h
    rfl
  | fixedDelay _ | repeatDelay | addDelay _ | delay8 _ | delay16 _ _ | setOctave _ => cases h

/-! ### Loaded tracks -/

/-- A stream keeps to seven bits if it sets dials to nothing more and selects programs for which
the table has nothing more. -/
structure KeepsSevenBits (tables : SideTables) (is : List Instruction) : Prop where
  dials : ∀ dial value, .controller dial value ∈ is → value < 0x80
  programs : ∀ number, .program number ∈ is → tables.programFor (number &&& 0x7F) < 0x80

theorem filterMap_overflow?_eq_nil_iff {tables : SideTables} {is : List Instruction} :
    is.filterMap (·.overflow? tables) = [] ↔ KeepsSevenBits tables is := by
  rw [List.filterMap_eq_nil_iff]
  constructor
  · intro h
    constructor
    · intro dial value hmem
      simpa [Instruction.overflow?] using h _ hmem
    · intro number hmem
      simpa [Instruction.overflow?] using h _ hmem
  · intro h i hi
    cases i with
    | controller dial value => exact if_pos (h.dials dial value hi)
    | program number => exact if_pos (h.programs number hi)
    | _ => rfl

section Plays

variable {tables : SideTables} {data : Bytes} {name : String} {chunk : Chunk} {index : Nat}
  {t : Track}

/-- The messages of a loaded track that exceed seven bits are those that its stream lets
through. -/
theorem Chunk.Plays.wideMessages_perm (h : chunk.Plays tables data name index t) :
    ∃ is rest, Listing.ofBytes (data.drop chunk.streamStart) = ⟨is, .complete rest⟩ ∧
      (wideMessages t.events).Perm (is.filterMap (·.overflow? tables)) := by
  obtain ⟨is, rest, channel, hlist, rfl⟩ := h
  have hplay := Context.wideMessages_play ⟨tables, index⟩ chunk.streamStart .initial
    (Listing.wellFormed_of_eq hlist)
  have htitle : wideMessages (titleEvents name index) = [] := by
    refine wideMessages_eq_nil_iff.mpr fun e he => ?_
    rw [eq_of_mem_titleEvents he]
    exact List.forall_mem_nil _
  have hall : wideMessages (titleEvents name index ++
      (Context.decoded ⟨tables, index⟩ chunk.streamStart .initial is).events) =
        is.filterMap (·.overflow? tables) := by
    rw [wideMessages_append, htitle, Context.decoded, wideMessages_append, hplay]
    exact List.append_nil _
  refine ⟨is, rest, hlist, ?_⟩
  rw [← hall, Decoded.toTrack_eq, Track.sort_onChannel_events, wideMessages_map_onChannel]
  exact perm_wideMessages (Track.sort_events_perm _)

/-- Nothing is lost of the meta events of a loaded track. -/
theorem Chunk.Plays.normalized_of_mem (h : chunk.Plays tables data name index t) {e : Event}
    (he : e ∈ t.events) (hmeta : e.message.isChannelVoice = false) :
    e.message.normalized = e.message := by
  obtain ⟨is, rest, -, hmem⟩ := h.mem_events_iff
  obtain ⟨emitted, rfl, hemitted⟩ := (hmem e).mp he
  rw [Event.onChannel_message] at hmeta ⊢
  rcases hemitted with htitle | hplay | rfl
  · rw [eq_of_mem_titleEvents htitle]
    rfl
  · obtain ⟨i, -, s, hevent⟩ := Context.exists_of_mem_play hplay
    exact Context.normalized_of_mem_events hevent hmeta
  · rfl

/-- A dump shows of a loaded track what its chunk holds exactly if it keeps to seven bits. -/
theorem Chunk.Plays.walk_fields_iff (h : chunk.Plays tables data name index t)
    (hname : name.toList.length ≤ nameFieldSize) :
    ∃ records, Smf.walk (Smf.trackBody t) = some records ∧
      records.map (·.event.message) =
        t.events.map (·.message.normalized) ++ [Smf.endMark.message] ∧
      (records.map (·.event.message.fields) =
          t.events.map (·.message.fields) ++ [Smf.endMark.message.fields] ↔
        ∀ e ∈ t.events, e.message.SevenBit) := by
  obtain ⟨records, hwalk, hrecords, -⟩ := h.exists_walk hname
  have hmessages : records.map (·.event.message) =
      t.events.map (·.message.normalized) ++ [Smf.endMark.message] := by
    have hheld := congrArg (List.map Smf.WireEvent.message) hrecords
    rwa [List.map_map, List.map_append, Smf.map_message_wireEvents] at hheld
  have hfields : records.map (·.event.message.fields) =
      t.events.map (·.message.normalized.fields) ++ [Smf.endMark.message.fields] := by
    have hheld := congrArg (List.map Message.fields) hmessages
    rwa [List.map_map, List.map_append, List.map_map] at hheld
  refine ⟨records, hwalk, hmessages, ?_⟩
  rw [hfields, List.append_cancel_right_eq, List.map_inj_left]
  refine forall₂_congr fun e he => ?_
  rw [Message.fields_normalized_iff, Message.normalized_eq_iff (h.normalized_of_mem he)]

end Plays

end Dse

/-! ### Written files -/

/-- **Data bytes of loaded tracks.** Track by track, a message with a data byte of more than seven
bits is the setting of a dial to more than that, or a change to a program that the table gives so,
and there is one for each such instruction of the stream. The chunk of the track in the written
file holds the low seven bits. That the data bytes of the track are seven-bit, that the writer's
masks change nothing in it, and that a dump shows what its chunk holds are all one: the stream has
no such instruction. -/
theorem load_dataBytes {tables : SideTables} {data : Bytes} {loaded : Loaded}
    (h : load tables data = .ok loaded) :
    ∃ header, Dse.Header.read data = .ok header ∧
      convert tables data = .ok (Smf.chunkBytes Smf.headerTag
          (Smf.Image.headerData ⟨outputDivision, loaded.sequence.tracks.map Smf.trackBody⟩) ++
        (loaded.sequence.tracks.map Smf.trackBody).flatMap (Smf.chunkBytes Smf.trackTag)) ∧
      List.Forall₂ (fun chunk t => ∃ is rest records,
          Dse.Listing.ofBytes (data.drop chunk.streamStart) = ⟨is, .complete rest⟩ ∧
          Smf.walk (Smf.trackBody t) = some records ∧
          records.map (·.event.message) =
            t.events.map (·.message.normalized) ++ [Smf.endMark.message] ∧
          (wideMessages t.events).Perm (is.filterMap (·.overflow? tables)) ∧
          ((∀ e ∈ t.events, e.message.SevenBit) ↔ Dse.KeepsSevenBits tables is) ∧
          ((∀ e ∈ t.events, ∀ status, e.message.status? = some status →
              Smf.eventBytes e = (status ||| (e.channel &&& 0x0F)) :: e.message.dataBytes) ↔
            Dse.KeepsSevenBits tables is) ∧
          (records.map (·.event.message.fields) =
              t.events.map (·.message.fields) ++ [Smf.endMark.message.fields] ↔
            Dse.KeepsSevenBits tables is))
        header.tracks loaded.sequence.tracks := by
  obtain ⟨header, hheader, -, -, htracks⟩ := load_inv h
  have hname := Dse.Header.length_name_le hheader
  have hconvert := convert_of_load h
  obtain ⟨loaded', hloaded', hfile⟩ := convert_inv hconvert
  obtain rfl := Except.ok.inj (h.symm.trans hloaded')
  rw [hfile] at hconvert
  refine ⟨header, hheader, hconvert, forall₂_of_zipIdx (htracks.imp ?_)⟩
  intro p t hplays
  obtain ⟨is, rest, hlist, hperm⟩ := hplays.wideMessages_perm
  obtain ⟨records, hwalk, hmessages, hfields⟩ := hplays.walk_fields_iff hname
  have hkeeps : (∀ e ∈ t.events, e.message.SevenBit) ↔ Dse.KeepsSevenBits tables is := by
    rw [← wideMessages_eq_nil_iff, ← Dse.filterMap_overflow?_eq_nil_iff,
      ← List.length_eq_zero_iff, hperm.length_eq, List.length_eq_zero_iff]
  refine ⟨is, rest, records, hlist, hwalk, hmessages, hperm, hkeeps, ?_, hfields.trans hkeeps⟩
  rw [← hkeeps]
  exact forall₂_congr fun e _ => Smf.unmasked_iff

/-- Tables that give a program that MIDI does not have. -/
def wideTables : SideTables :=
  { SideTables.default with
    programs := Vector.ofFn fun i => if i.val = 3 then 0xC8 else UInt8.ofNat i.val }

/-- A volume of 128, and the selection of a program that the tables give as 200. -/
def wideInstructions : List Dse.Instruction := [.controller .volume 0x80, .program 0x83]

/-- The dump shows 128 and 200 where the chunk holds 0 and 72. -/
theorem load_dataBytes_wideInstructions :
    ∃ loaded t records, load wideTables
        (singleTrackFile (Dse.streamBytes wideInstructions ++ [Dse.endOpcode])) = .ok loaded ∧
      loaded.sequence.tracks = [t] ∧ Smf.walk (Smf.trackBody t) = some records ∧
      (wideMessages t.events).Perm [.controller 7 128, .programChange 200] ∧
      .controller 7 0 ∈ records.map (·.event.message) ∧
      .programChange 72 ∈ records.map (·.event.message) ∧
      ¬ (∀ e ∈ t.events, e.message.SevenBit) ∧
      records.map (·.event.message.fields) ≠
        t.events.map (·.message.fields) ++ [Smf.endMark.message.fields] := by
  have hwell : ∀ i ∈ wideInstructions, i.WellFormed := by decide
  have hstream : Dse.Listing.ofBytes (Dse.streamBytes wideInstructions ++ [Dse.endOpcode]) =
      ⟨wideInstructions, .complete []⟩ :=
    Dse.Listing.ofBytes_streamBytes hwell []
  have hload := load_singleTrackFile wideTables hstream
  obtain ⟨header, hheader, -, htracks⟩ := load_dataBytes hload
  rw [read_singleTrackFile] at hheader
  cases hheader
  obtain ⟨t, tracks, ⟨is, rest, records, hlist, hwalk, hmessages, hwide, hseven, -, hfields⟩,
    hnil, htrack⟩ := List.forall₂_cons_left_iff.mp htracks
  obtain rfl := List.forall₂_nil_left_iff.mp hnil
  rw [← drop_singleTrackFile (Dse.streamBytes wideInstructions ++ [Dse.endOpcode])] at hstream
  cases hstream.symm.trans hlist
  have hloud : ¬ Dse.KeepsSevenBits wideTables wideInstructions := by
    intro h
    exact absurd (h.dials .volume 0x80 List.mem_cons_self) (by decide)
  have hheld : ∀ m ∈ wideMessages t.events,
      m.normalized ∈ records.map (·.event.message) := by
    intro m hm
    obtain ⟨e, he, rfl⟩ := List.mem_map.mp (List.mem_of_mem_filter hm)
    rw [hmessages]
    exact List.mem_append_left _ (List.mem_map.mpr ⟨e, he, rfl⟩)
  refine ⟨_, t, records, hload, htrack, hwalk, hwide, ?_, ?_, mt hseven.mp hloud,
    mt hfields.mp hloud⟩
  · exact hheld (.controller 7 128) (hwide.mem_iff.mpr List.mem_cons_self)
  · exact hheld (.programChange 200) (hwide.mem_iff.mpr (List.mem_cons_of_mem _ List.mem_cons_self))

end DseMidi
