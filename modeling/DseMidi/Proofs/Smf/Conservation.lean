import Mathlib.Data.List.Forall2
import DseMidi.Proofs.Smf.Placement
import DseMidi.Proofs.Smf.Stability

/-!
# DseMidi.Proofs.Smf.Conservation

**Reading loses no event and makes none up.** The events of a track of a file are the messages
that stand in it, each at the sum of all times up to its own; only the marks of the end go, and
their times stay (`keptEvents`). The two layouts hand the same events on in different ways.

* Parallel tracks stay as they are, one for each track of the file (`KeptTrack`).
* The events of a file with one track for all channels are dealt out to sixteen tracks, each to
  exactly one of them, and in each track they keep their order (`DealtOut`). For this the channel
  of an event that was read has to be one of sixteen, which is a part of being settled.
-/

namespace DseMidi.Smf

/-- The events that are kept of a track of a file. -/
def keptEvents (ws : List WireEvent) : List Event :=
  (placed ws).filter fun e => !e.message.isEndOfTrack

/-- The track holds the events of a track of a file. Its channel is that of the first channel
voice event, or zero if there is none. -/
structure KeptTrack (ws : List WireEvent) (t : Track) : Prop where
  events_eq : t.events = keptEvents ws
  channel_eq : t.channel =
    ((t.events.filter fun e => e.message.isChannelVoice).head?.map Event.channel).getD 0

/-- The events are dealt out to the tracks of sixteen channels: channel voice events to that of
their channel, and all others to the first. -/
structure DealtOut (events : List Event) (tracks : List Track) : Prop where
  length_eq : tracks.length = 16
  channel_eq : ∀ (i : Nat) t, tracks[i]? = some t → t.channel = UInt8.ofNat i
  events_eq : ∀ (i : Nat) t, tracks[i]? = some t → t.events = events.filter fun e =>
    if e.message.isChannelVoice then e.channel = UInt8.ofNat i else i = 0
  /-- No event is lost, none is there twice, and none is new. -/
  perm : (tracks.flatMap Track.events).Perm events
  existsUnique : ∀ e ∈ events, ∃! i : Nat, ∃ t, tracks[i]? = some t ∧ e ∈ t.events

/-! ### Events of a track -/

theorem trackEvents_eq (data : Bytes) : trackEvents data = keptEvents (readEvents data) := by
  rw [trackEvents, absoluteFrom_eq, Event.later_zero, List.map_id]
  rfl

theorem keptTrack_parallelTrack (data : Bytes) :
    KeptTrack (readEvents data) (parallelTrack data) where
  events_eq := trackEvents_eq data
  channel_eq := by
    rw [List.head?_filter]
    rfl

/-! ### Sixteen channels -/

/-- Putting the items of each key together only reorders the items that have one of the keys. -/
theorem flatMap_filter_perm {α κ : Type} [DecidableEq κ] (key : α → κ) (items : List α)
    {keys : List κ} (h : keys.Nodup) :
    (keys.flatMap fun k => items.filter fun x => key x = k).Perm
      (items.filter fun x => key x ∈ keys) := by
  induction keys with
  | nil => simp
  | cons k rest ih =>
    obtain ⟨hk, hrest⟩ := List.nodup_cons.mp h
    have hthis : ((items.filter fun x => key x ∈ k :: rest).filter fun x => key x = k) =
        items.filter fun x => key x = k := by
      rw [List.filter_filter]
      refine List.filter_congr ?_
      intro x _
      by_cases hx : key x = k
      · simp [hx]
      · simp [hx]
    have hothers : ((items.filter fun x => key x ∈ k :: rest).filter fun x => !key x = k) =
        items.filter fun x => key x ∈ rest := by
      rw [List.filter_filter]
      refine List.filter_congr ?_
      intro x _
      by_cases hx : key x = k
      · simp [hx, hk]
      · simp [hx]
    have hsplit := List.filter_append_perm (fun x => decide (key x = k))
      (items.filter fun x => key x ∈ k :: rest)
    rw [hthis, hothers] at hsplit
    rw [List.flatMap_cons]
    exact ((ih hrest).append_left _).trans hsplit

/-- The channel of a settled event needs no cutting. -/
theorem homeTrack_eq {e : Event} (h : e.Settled) :
    homeTrack e = if e.message.isChannelVoice then e.channel else 0 := by
  have hchannel := congrArg Event.channel h.normalized_eq
  rw [Event.normalized] at hchannel
  rw [homeTrack]
  split
  · next hvoice => rwa [if_pos hvoice] at hchannel
  · rfl

theorem homeTrack_lt (e : Event) : (homeTrack e).toNat < 16 := by
  rw [homeTrack]
  split
  · refine forall_byte ?_ e.channel
    decide +kernel
  · decide

theorem getElem?_splitByChannel_eq_some_iff {events : List Event} {i : Nat} {t : Track} :
    (splitByChannel events)[i]? = some t ↔
      i < 16 ∧ t = ⟨UInt8.ofNat i, events.filter fun e => homeTrack e = UInt8.ofNat i⟩ := by
  rw [splitByChannel, List.getElem?_map, Option.map_eq_some_iff]
  constructor
  · rintro ⟨channel, hchannel, rfl⟩
    obtain ⟨hlt, rfl⟩ := List.getElem?_eq_some_iff.mp hchannel
    rw [List.length_range] at hlt
    rw [List.getElem_range]
    exact ⟨hlt, rfl⟩
  · rintro ⟨hlt, rfl⟩
    exact ⟨i, List.getElem?_range hlt, rfl⟩

theorem mem_splitByChannel_iff {events : List Event} {e : Event} (he : e ∈ events) {i : Nat} :
    (∃ t, (splitByChannel events)[i]? = some t ∧ e ∈ t.events) ↔ i = (homeTrack e).toNat := by
  constructor
  · rintro ⟨t, ht, hmem⟩
    obtain ⟨hlt, rfl⟩ := getElem?_splitByChannel_eq_some_iff.mp ht
    have hhome : homeTrack e = UInt8.ofNat i := by simpa [he] using hmem
    rw [hhome, UInt8.toNat_ofNat']
    omega
  · rintro rfl
    refine ⟨_, getElem?_splitByChannel_eq_some_iff.mpr ⟨homeTrack_lt e, rfl⟩, ?_⟩
    simp [he]

theorem splitByChannel_perm (events : List Event) :
    ((splitByChannel events).flatMap Track.events).Perm events := by
  have hkeys : ∀ e ∈ events, homeTrack e ∈ (List.range 16).map UInt8.ofNat := by
    intro e _
    exact List.mem_map.mpr ⟨(homeTrack e).toNat, List.mem_range.mpr (homeTrack_lt e), by simp⟩
  have hperm := flatMap_filter_perm homeTrack events
    (show ((List.range 16).map UInt8.ofNat).Nodup by decide)
  rw [List.filter_eq_self.mpr (by simpa using hkeys), List.flatMap_map] at hperm
  rw [splitByChannel, List.flatMap_map]
  exact hperm

theorem dealtOut_splitByChannel {events : List Event} (h : ∀ e ∈ events, e.Settled) :
    DealtOut events (splitByChannel events) where
  length_eq := by simp [splitByChannel]
  channel_eq := by
    intro i t ht
    obtain ⟨-, rfl⟩ := getElem?_splitByChannel_eq_some_iff.mp ht
    rfl
  events_eq := by
    intro i t ht
    obtain ⟨hlt, rfl⟩ := getElem?_splitByChannel_eq_some_iff.mp ht
    refine List.filter_congr ?_
    intro e he
    have hzero : (0 : UInt8) = UInt8.ofNat i ↔ i = 0 := by
      rw [← UInt8.toNat_inj, UInt8.toNat_ofNat', UInt8.toNat_zero]
      omega
    rw [homeTrack_eq (h e he)]
    split
    · rfl
    · exact decide_eq_decide.mpr hzero
  perm := splitByChannel_perm events
  existsUnique := by
    intro e he
    exact ⟨_, (mem_splitByChannel_iff he).mpr rfl, fun i hi => (mem_splitByChannel_iff he).mp hi⟩

/-! ### Files -/

/-- A file that can be read has a layout with parallel tracks or one for all channels. -/
theorem decode_inv {data : Bytes} {s : Sequence} (h : decode data = .ok s) :
    ∃ header trackData, readLayout data = .ok (header, trackData) ∧
      (header.format = .parallel ∧ s.tracks = trackData.map parallelTrack ∨
        header.format = .single ∧ s.tracks = splitByChannel (trackData.flatMap trackEvents)) := by
  cases hlayout : readLayout data with
  | error fault =>
    rw [decode, hlayout] at h
    cases h
  | ok layout =>
    obtain ⟨⟨format, division⟩, trackData⟩ := layout
    refine ⟨⟨format, division⟩, trackData, rfl, ?_⟩
    rw [decode, hlayout] at h
    cases format with
    | parallel =>
      cases h
      exact .inl ⟨rfl, rfl⟩
    | single =>
      cases h
      exact .inr ⟨rfl, rfl⟩
    | sequential => cases h

/-- **Reading loses no event and makes none up.** A file with parallel tracks is read with one
track for each of its tracks, in their order; of one with a track for all channels, the events
of all its tracks one after the other are dealt out to sixteen. -/
theorem decode_conserves {data : Bytes} {s : Sequence} (h : decode data = .ok s) :
    ∃ header trackData, readLayout data = .ok (header, trackData) ∧
      (header.format = .parallel ∧
          List.Forall₂ KeptTrack (trackData.map readEvents) s.tracks ∨
        header.format = .single ∧
          DealtOut ((trackData.map readEvents).flatMap keptEvents) s.tracks) := by
  obtain ⟨header, trackData, hlayout, hparallel | hsingle⟩ := decode_inv h
  · obtain ⟨hformat, htracks⟩ := hparallel
    refine ⟨header, trackData, hlayout, .inl ⟨hformat, ?_⟩⟩
    rw [htracks, List.forall₂_map_left_iff, List.forall₂_map_right_iff, List.forall₂_same]
    intro d _
    exact keptTrack_parallelTrack d
  · obtain ⟨hformat, htracks⟩ := hsingle
    refine ⟨header, trackData, hlayout, .inr ⟨hformat, ?_⟩⟩
    have hevents : (trackData.map readEvents).flatMap keptEvents =
        trackData.flatMap trackEvents := by
      rw [List.flatMap_map]
      exact List.flatMap_congr fun d _ => (trackEvents_eq d).symm
    rw [htracks, hevents]
    refine dealtOut_splitByChannel ?_
    intro e he
    obtain ⟨d, -, he⟩ := List.mem_flatMap.mp he
    exact settled_of_mem_trackEvents he

/-- Two tracks for all channels. In the first a mark of the end comes early, with an exclusive
message behind it; the second starts at zero again. -/
def layeredBodies : List Bytes :=
  [[0x0A, 0x93, 0x3C, 0x40, 0x06, 0xFF, 0x2F, 0x00, 0x04, 0xF0, 0x01, 0xF7],
   [0x00, 0xFF, 0x01, 0x01, 0x78, 0x05, 0x93, 0x3C, 0x00, 0x00, 0xFF, 0x2F, 0x00]]

/-- A file with these tracks. -/
def layeredFile : Bytes :=
  chunkBytes headerTag [0, 0, 0, 2, 0, 0x60] ++ layeredBodies.flatMap (chunkBytes trackTag)

/-- What is read of the file. -/
def layeredSequence : Sequence :=
  ⟨"", 0x60,
    (List.range 16).map fun channel =>
      ⟨UInt8.ofNat channel,
        if channel = 0 then [⟨20, 0, .sysEx 0xF0 [0xF7]⟩, ⟨0, 0, .text [0x78]⟩]
        else if channel = 3 then [⟨10, 3, .noteOn 0x3C 0x40⟩, ⟨5, 3, .noteOn 0x3C 0x00⟩]
        else []⟩⟩

theorem readLayout_layeredFile :
    readLayout layeredFile = .ok (⟨.single, 0x60⟩, layeredBodies) := by
  decide +kernel

theorem decode_layeredFile : decode layeredFile = .ok layeredSequence := by
  decide +kernel

/-- The exclusive message is at the tick that the early mark leads to, and the events of both
tracks are there. -/
theorem decode_conserves_layeredFile :
    decode layeredFile = .ok layeredSequence ∧
      DealtOut [⟨10, 3, .noteOn 0x3C 0x40⟩, ⟨20, 0, .sysEx 0xF0 [0xF7]⟩, ⟨0, 0, .text [0x78]⟩,
        ⟨5, 3, .noteOn 0x3C 0x00⟩] layeredSequence.tracks := by
  obtain ⟨header, trackData, hlayout, hevents⟩ := decode_conserves decode_layeredFile
  obtain ⟨rfl, rfl⟩ : header = _ ∧ trackData = _ := by
    simpa using hlayout.symm.trans readLayout_layeredFile
  obtain ⟨hformat, -⟩ | ⟨-, hdealt⟩ := hevents
  · cases hformat
  · have hkept : (layeredBodies.map readEvents).flatMap keptEvents =
        [⟨10, 3, .noteOn 0x3C 0x40⟩, ⟨20, 0, .sysEx 0xF0 [0xF7]⟩, ⟨0, 0, .text [0x78]⟩,
          ⟨5, 3, .noteOn 0x3C 0x00⟩] := by
      decide +kernel
    rw [hkept] at hdealt
    exact ⟨decode_layeredFile, hdealt⟩

end DseMidi.Smf
