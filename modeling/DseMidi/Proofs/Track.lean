import Mathlib.Data.List.Basic
import DseMidi.Track

/-!
# DseMidi.Proofs.Track

**What ordering a track by tick keeps.** Sorting is stable, so a selection of events whose
ticks do not decrease comes out as it went in, wherever the other events go
(`Track.filter_sort`). That is how a fact about the order in which events are emitted
becomes one about the ordered track.
-/

namespace DseMidi

/-- The ticks of the events do not decrease. -/
def Ordered (events : List Event) : Prop :=
  events.Pairwise fun a b => a.tick ≤ b.tick

theorem Ordered.append {events more : List Event} (h : Ordered events) (hmore : Ordered more)
    (hle : ∀ a ∈ events, ∀ b ∈ more, a.tick ≤ b.tick) : Ordered (events ++ more) :=
  List.pairwise_append.mpr ⟨h, hmore, hle⟩

theorem Ordered.of_forall_tick {events : List Event} {tick : Nat}
    (h : ∀ e ∈ events, e.tick = tick) : Ordered events := by
  apply List.pairwise_of_forall_mem_list
  intro a ha b hb
  exact Nat.le_of_eq ((h a ha).trans (h b hb).symm)

/-- What is at tick zero comes first. -/
theorem Ordered.filter_zero_append {events : List Event} (h : Ordered events) :
    (events.filter fun e => e.tick = 0) ++ (events.filter fun e => e.tick ≠ 0) = events := by
  induction events with
  | nil => rfl
  | cons e events ih =>
    obtain ⟨hle, hordered⟩ := List.pairwise_cons.mp h
    by_cases hzero : e.tick = 0
    · rw [List.filter_cons_of_pos (by simpa using hzero),
        List.filter_cons_of_neg (by simpa using hzero), List.cons_append, ih hordered]
    · have hlater : ∀ b ∈ e :: events, b.tick ≠ 0 := by
        refine List.forall_mem_cons.mpr ⟨hzero, ?_⟩
        intro b hb
        have hb := hle b hb
        omega
      rw [List.filter_eq_nil_iff.mpr (by simpa using hlater),
        List.filter_eq_self.mpr (by simpa using hlater), List.nil_append]

theorem Ordered.zero_cons_ticks {events : List Event} (h : Ordered events) :
    (0 :: events.map Event.tick).Pairwise (· ≤ ·) := by
  refine List.pairwise_cons.mpr ⟨?_, List.pairwise_map.mpr h⟩
  intro tick _
  exact Nat.zero_le tick

namespace Track

theorem tickLe_trans (a b c : Event) (hab : decide (a.tick ≤ b.tick) = true)
    (hbc : decide (b.tick ≤ c.tick) = true) : decide (a.tick ≤ c.tick) = true := by
  rw [decide_eq_true_iff] at hab hbc ⊢
  exact Nat.le_trans hab hbc

theorem tickLe_total (a b : Event) :
    (decide (a.tick ≤ b.tick) || decide (b.tick ≤ a.tick)) = true := by
  rw [Bool.or_eq_true, decide_eq_true_iff, decide_eq_true_iff]
  exact Nat.le_total _ _

/-- A sorted track is in order. -/
theorem ordered_sort (t : Track) : Ordered t.sort.events := by
  have hpairwise := List.pairwise_mergeSort tickLe_trans tickLe_total t.events
  exact hpairwise.imp fun hab => of_decide_eq_true hab

/-- Events that are in order among themselves are not moved against each other. -/
theorem filter_sort {t : Track} {p : Event → Bool} (h : Ordered (t.events.filter p)) :
    t.sort.events.filter p = t.events.filter p := by
  have hdecide : (t.events.filter p).Pairwise fun a b => decide (a.tick ≤ b.tick) = true :=
    h.imp decide_eq_true
  have hsublist : (t.events.filter p).Sublist t.sort.events :=
    List.sublist_mergeSort tickLe_trans tickLe_total hdecide List.filter_sublist
  have hfiltered := hsublist.filter p
  rw [List.filter_filter, List.filter_congr fun e _ => Bool.and_self (p e)] at hfiltered
  exact (hfiltered.eq_of_length ((t.sort_events_perm.filter p).length_eq).symm).symm

/-- Events of one tick keep their order. -/
theorem filter_tick_sort (t : Track) (tick : Nat) :
    (t.sort.events.filter fun e => e.tick = tick) = t.events.filter fun e => e.tick = tick := by
  have hall : ∀ e ∈ t.events.filter fun e => e.tick = tick, e.tick = tick := by
    intro e he
    simpa using (List.mem_filter.mp he).2
  exact filter_sort (Ordered.of_forall_tick hall)

/-- Sorting a further event in front of a track inserts it before the first event that is
not earlier. -/
theorem exists_sort_cons (channel : UInt8) (e : Event) (events : List Event) :
    ∃ before after, (sort ⟨channel, e :: events⟩).events = before ++ e :: after ∧
      (sort ⟨channel, events⟩).events = before ++ after ∧ ∀ b ∈ before, b.tick < e.tick := by
  obtain ⟨before, after, hcons, hrest, hbefore⟩ :=
    List.mergeSort_cons tickLe_trans tickLe_total e events
  refine ⟨before, after, hcons, hrest, ?_⟩
  intro b hb
  simpa using hbefore b hb

/-- What is read off events that are in order among themselves is read off in order. -/
theorem filterMap_sort {α : Type} {t : Track} {f : Event → Option α}
    (h : Ordered (t.events.filter fun e => (f e).isSome)) :
    t.sort.events.filterMap f = t.events.filterMap f := by
  have hselect : ∀ events : List Event,
      (events.filter fun e => (f e).isSome).filterMap f = events.filterMap f := by
    intro events
    rw [List.filterMap_filter]
    apply List.filterMap_congr
    intro e _
    cases f e <;> rfl
  rw [← hselect, filter_sort h, hselect]

/-- Sorting and moving to a channel can change places. -/
theorem onChannel_sort (t : Track) (channel : UInt8) :
    t.sort.onChannel channel = (t.onChannel channel).sort := by
  rw [sort, sort, onChannel, onChannel]
  congr 1
  refine List.map_mergeSort ?_
  intro a _ b _
  rw [Event.onChannel_tick, Event.onChannel_tick]

/-- Moving a track to a channel moves its events. -/
theorem sort_onChannel_events (t : Track) (channel : UInt8) :
    (t.sort.onChannel channel).events = t.sort.events.map (Event.onChannel channel) := rfl

end Track

end DseMidi
