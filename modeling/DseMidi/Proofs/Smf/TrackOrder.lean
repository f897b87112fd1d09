import DseMidi.Proofs.Smf.Conservation

/-!
# DseMidi.Proofs.Smf.TrackOrder

**When tracks that are read are in order.** The ticks of one track of a file never decrease, since
they are sums of times. So parallel tracks are always in order. A file with one track for all
channels can still hold several; their events are put one behind the other as they are, though
each of these tracks starts at tick zero, and nothing sorts them. A channel is then in order
exactly if none of its events is later than one from a track further back in the file.
-/

namespace DseMidi.Smf

/-- The events of a channel in one track of a file. -/
def channelRun (channel : UInt8) (data : Bytes) : List Event :=
  (trackEvents data).filter fun e => homeTrack e = channel

theorem ordered_trackEvents (data : Bytes) : Ordered (trackEvents data) :=
  (ordered_absoluteFrom 0 _).1

theorem ordered_channelRun (channel : UInt8) (data : Bytes) :
    Ordered (channelRun channel data) :=
  (ordered_trackEvents data).filter _

theorem events_of_mem_splitByChannel {trackData : List Bytes} {t : Track}
    (h : t ∈ splitByChannel (trackData.flatMap trackEvents)) :
    t.events = trackData.flatMap (channelRun t.channel) := by
  obtain ⟨channel, -, rfl⟩ := List.mem_map.mp h
  exact List.filter_flatMap

/-- Runs that are in order make up a track in order exactly if no event is later than one of a
later run. -/
theorem ordered_flatMap_channelRun_iff (channel : UInt8) (trackData : List Bytes) :
    Ordered (trackData.flatMap (channelRun channel)) ↔
      trackData.Pairwise fun a b =>
        ∀ x ∈ channelRun channel a, ∀ y ∈ channelRun channel b, x.tick ≤ y.tick := by
  have hruns : ∀ d ∈ trackData, Ordered (channelRun channel d) :=
    fun d _ => ordered_channelRun channel d
  rw [Ordered, List.pairwise_flatMap]
  exact and_iff_right hruns

/-- **When tracks that are read are in order.** Parallel tracks always are. In a file for all
channels, the track of a channel is made up of one run in order for each track of the file, and it
is in order exactly if the runs follow each other in time; so it is if the file has one track. -/
theorem decode_ordered_iff {data : Bytes} {s : Sequence} (h : decode data = .ok s) :
    ∃ header trackData, readLayout data = .ok (header, trackData) ∧
      (header.format = .parallel ∧ (∀ t ∈ s.tracks, Ordered t.events) ∨
        header.format = .single ∧ ∀ t ∈ s.tracks,
          t.events = trackData.flatMap (channelRun t.channel) ∧
          (∀ d ∈ trackData, Ordered (channelRun t.channel d)) ∧
          (Ordered t.events ↔ trackData.Pairwise fun a b =>
            ∀ x ∈ channelRun t.channel a, ∀ y ∈ channelRun t.channel b, x.tick ≤ y.tick) ∧
          (trackData.length ≤ 1 → Ordered t.events)) := by
  obtain ⟨header, trackData, hlayout, hparallel | hsingle⟩ := decode_inv h
  · obtain ⟨hformat, htracks⟩ := hparallel
    refine ⟨header, trackData, hlayout, .inl ⟨hformat, ?_⟩⟩
    intro t ht
    rw [htracks] at ht
    obtain ⟨d, -, rfl⟩ := List.mem_map.mp ht
    exact ordered_trackEvents d
  · obtain ⟨hformat, htracks⟩ := hsingle
    refine ⟨header, trackData, hlayout, .inr ⟨hformat, ?_⟩⟩
    intro t ht
    rw [htracks] at ht
    have hevents := events_of_mem_splitByChannel ht
    have hiff := ordered_flatMap_channelRun_iff t.channel trackData
    rw [← hevents] at hiff
    refine ⟨hevents, fun d _ => ordered_channelRun t.channel d, hiff, ?_⟩
    intro hlength
    refine hiff.mpr ?_
    match trackData, hlength with
    | [], _ => exact List.Pairwise.nil
    | [d], _ => exact List.pairwise_singleton _ d

/-- In the file with two layers the fourth channel has a note that ends, in the second layer,
before it starts in the first. -/
theorem decode_ordered_iff_layeredFile :
    decode layeredFile = .ok layeredSequence ∧
      ∃ t ∈ layeredSequence.tracks, t.channel = 3 ∧ t.events.map Event.tick = [10, 5] ∧
        ¬ Ordered t.events := by
  obtain ⟨header, trackData, hlayout, hordered⟩ := decode_ordered_iff decode_layeredFile
  obtain ⟨rfl, rfl⟩ : header = _ ∧ trackData = _ := by
    simpa using hlayout.symm.trans readLayout_layeredFile
  obtain ⟨hformat, -⟩ | ⟨-, htracks⟩ := hordered
  · cases hformat
  · have hmem : (⟨3, [⟨10, 3, .noteOn 0x3C 0x40⟩, ⟨5, 3, .noteOn 0x3C 0x00⟩]⟩ : Track) ∈
        layeredSequence.tracks := by
      decide +kernel
    obtain ⟨-, -, hiff, -⟩ := htracks _ hmem
    refine ⟨decode_layeredFile, _, hmem, rfl, rfl, ?_⟩
    intro h
    have hle := List.rel_of_pairwise_cons (hiff.mp h) List.mem_cons_self
      ⟨10, 3, .noteOn 0x3C 0x40⟩ (by decide +kernel) ⟨5, 3, .noteOn 0x3C 0x00⟩ (by decide +kernel)
    exact absurd hle (by decide)

end DseMidi.Smf
