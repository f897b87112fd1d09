import Mathlib.Data.List.Perm.Basic
import Mathlib.Data.Prod.Lex
import DseMidi.Proofs.Dump
import DseMidi.Proofs.Loading

/-!
# DseMidi.Proofs.Summary

**What the summary in a dump is, and what it does not depend on.** The tempo of a sequence is that
of its first tempo setting, where settings are compared by tick, then by track, then by their place
in the track (`Sequence.openingTempo?_eq_some_iff`). A track is summed up by the number of its notes
and its largest tick.

All of this can be told from the messages of each track at each tick (`Track.SameAtTicks`). So
nothing of it changes when tracks are sorted or get their channels: neither takes a message to
another tick, or past another message of the same tick.
-/

namespace DseMidi

/-! ### The earliest entry -/

/-- The entry has the least tick, and it is the first with this tick. -/
structure IsEarliest (entries : List (Nat × Nat)) (x : Nat × Nat) : Prop where
  head_eq : (entries.filter fun y => y.1 = x.1).head? = some x
  le : ∀ y ∈ entries, x.1 ≤ y.1

section Earliest

variable {entries entries' : List (Nat × Nat)} {x y : Nat × Nat}

theorem IsEarliest.mem (h : IsEarliest entries x) : x ∈ entries :=
  (List.mem_filter.mp (List.mem_of_head? h.head_eq)).1

theorem IsEarliest.unique (h : IsEarliest entries x) (h' : IsEarliest entries y) : x = y := by
  have htick : x.1 = y.1 := Nat.le_antisymm (h.le y h'.mem) (h'.le x h.mem)
  have hhead := h.head_eq
  rw [htick, h'.head_eq] at hhead
  exact (Option.some.inj hhead).symm

theorem earliest?_eq_none_iff : earliest? entries = none ↔ entries = [] := by
  cases entries with
  | nil => simp [earliest?]
  | cons entry rest =>
    rw [earliest?]
    split
    · simp
    · split <;> simp

theorem isEarliest_of_earliest? (h : earliest? entries = some x) : IsEarliest entries x := by
  induction entries generalizing x with
  | nil => cases h
  | cons entry rest ih =>
    rw [earliest?] at h
    cases hrest : earliest? rest with
    | none =>
      rw [hrest] at h
      obtain rfl := Option.some.inj h
      obtain rfl := earliest?_eq_none_iff.mp hrest
      exact ⟨by simp, by simp⟩
    | some later =>
      obtain ⟨hhead, hle⟩ := ih hrest
      rw [hrest] at h
      dsimp only at h
      by_cases hlt : later.1 < entry.1
      · rw [if_pos hlt] at h
        obtain rfl := Option.some.inj h
        have hne : entry.1 ≠ later.1 := Nat.ne_of_gt hlt
        refine ⟨?_, List.forall_mem_cons.mpr ⟨Nat.le_of_lt hlt, hle⟩⟩
        rwa [List.filter_cons_of_neg (by simpa using hne)]
      · rw [if_neg hlt] at h
        obtain rfl := Option.some.inj h
        refine ⟨?_, List.forall_mem_cons.mpr ⟨Nat.le_refl _, fun y hy => ?_⟩⟩
        · rw [List.filter_cons_of_pos (by simp)]
          rfl
        · exact Nat.le_trans (Nat.le_of_not_lt hlt) (hle y hy)

theorem earliest?_eq_some_iff : earliest? entries = some x ↔ IsEarliest entries x := by
  refine ⟨isEarliest_of_earliest?, fun h => ?_⟩
  cases hentries : earliest? entries with
  | none =>
    obtain rfl := earliest?_eq_none_iff.mp hentries
    cases h.mem
  | some y => rw [(isEarliest_of_earliest? hentries).unique h]

/-- Of two entries with the least tick, the first. -/
example : earliest? [(48, 500000), (0, 600000), (0, 400000)] = some (0, 600000) := rfl

theorem IsEarliest.congr
    (hticks : ∀ tick, entries.filter (fun y => y.1 = tick) = entries'.filter fun y => y.1 = tick)
    (h : IsEarliest entries x) : IsEarliest entries' x := by
  refine ⟨(hticks x.1).symm ▸ h.head_eq, fun y hy => h.le y ?_⟩
  have hmem : y ∈ entries'.filter fun z => z.1 = y.1 := List.mem_filter.mpr ⟨hy, by simp⟩
  rw [← hticks] at hmem
  exact (List.mem_filter.mp hmem).1

/-- Only the order of entries of one tick matters. -/
theorem earliest?_congr
    (hticks : ∀ tick, entries.filter (fun y => y.1 = tick) = entries'.filter fun y => y.1 = tick) :
    earliest? entries = earliest? entries' := by
  refine Option.ext fun x => ?_
  rw [earliest?_eq_some_iff, earliest?_eq_some_iff]
  exact ⟨.congr hticks, .congr fun tick => (hticks tick).symm⟩

end Earliest

/-! ### Tempo settings and their places -/

/-- A tempo in a sequence: its tick, the number of its track, its place in the track, and its
payload. -/
structure TempoMark where
  tick : Nat
  track : Nat
  place : Nat
  payload : Bytes

/-- What tempos are compared by: first the tick, then the track, then the place. -/
def TempoMark.position (m : TempoMark) : Nat ×ₗ Nat ×ₗ Nat :=
  toLex (m.tick, toLex (m.track, m.place))

namespace Sequence

/-- An event of the sequence is a tempo of three bytes, as the mark says. -/
structure SetsTempo (s : Sequence) (m : TempoMark) : Prop where
  event : ∃ t e, s.tracks[m.track]? = some t ∧ t.events[m.place]? = some e ∧
    e.tick = m.tick ∧ e.message = .metaEvent .tempo m.payload
  length_payload : m.payload.length = 3

/-- The mark is the first of the tempos of the sequence. -/
def OpensWith (s : Sequence) (m : TempoMark) : Prop :=
  s.SetsTempo m ∧ ∀ n, s.SetsTempo n → m.position ≤ n.position

end Sequence

/-- The payload of a tempo event, if it has three bytes. -/
def Message.tempoPayload? : Message → Option Bytes
  | metaEvent .tempo payload => if payload.length = 3 then some payload else none
  | _ => none

theorem Message.tempoPayload?_eq_some_iff {m : Message} {payload : Bytes} :
    m.tempoPayload? = some payload ↔ m = .metaEvent .tempo payload ∧ payload.length = 3 := by
  constructor
  · intro h
    unfold tempoPayload? at h
    split at h
    · split at h
      · next hlength =>
        obtain rfl := Option.some.inj h
        exact ⟨rfl, hlength⟩
      · cases h
    · cases h
  · rintro ⟨rfl, hlength⟩
    exact if_pos hlength

theorem Message.quarterMicros?_eq (m : Message) :
    m.quarterMicros? = m.tempoPayload?.map beNat := by
  cases m with
  | metaEvent type data =>
    cases type with
    | tempo =>
      rcases data with _ | ⟨high, _ | ⟨mid, _ | ⟨low, _ | ⟨more, data⟩⟩⟩⟩ <;>
        simp [quarterMicros?, tempoPayload?]
    | _ => rfl
  | _ => rfl

/-! ### All tempos -/

theorem pairwise_zipIdx {α : Type} (l : List α) : l.zipIdx.Pairwise fun a b => a.2 < b.2 := by
  have hnumbers : (l.zipIdx.map Prod.snd).Pairwise (· < ·) := by
    rw [List.zipIdx_map_snd]
    exact List.pairwise_lt_range' 1
  exact List.pairwise_map.mp hnumbers

/-- The tempos of track `number`. -/
def Track.marks (t : Track) (number : Nat) : List TempoMark :=
  t.events.zipIdx.filterMap fun p =>
    p.1.message.tempoPayload?.map fun payload => ⟨p.1.tick, number, p.2, payload⟩

theorem Track.mem_marks_iff {t : Track} {number : Nat} {m : TempoMark} :
    m ∈ t.marks number ↔ m.track = number ∧ m.payload.length = 3 ∧
      ∃ e, t.events[m.place]? = some e ∧ e.tick = m.tick ∧
        e.message = .metaEvent .tempo m.payload := by
  simp only [marks, List.mem_filterMap, Prod.exists, List.mk_mem_zipIdx_iff_getElem?,
    Option.map_eq_some_iff, Message.tempoPayload?_eq_some_iff]
  constructor
  · rintro ⟨e, place, he, payload, ⟨hmessage, hlength⟩, rfl⟩
    exact ⟨rfl, hlength, e, he, rfl, hmessage⟩
  · rintro ⟨rfl, hlength, e, he, htick, hmessage⟩
    exact ⟨e, m.place, he, m.payload, ⟨hmessage, hlength⟩, by rw [htick]⟩

theorem Track.pairwise_marks (t : Track) (number : Nat) :
    (t.marks number).Pairwise fun m n => m.place < n.place := by
  refine List.pairwise_filterMap.mpr ((pairwise_zipIdx _).imp ?_)
  intro a b hlt m hm n hn
  obtain ⟨payload, -, rfl⟩ := Option.map_eq_some_iff.mp hm
  obtain ⟨payload', -, rfl⟩ := Option.map_eq_some_iff.mp hn
  exact hlt

theorem Track.map_marks (t : Track) (number : Nat) :
    (t.marks number).map (fun m => (m.tick, beNat m.payload)) =
      t.events.filterMap fun e => e.message.quarterMicros?.map fun micros => (e.tick, micros) := by
  conv_rhs => rw [← List.zipIdx_map_fst 0 t.events, List.filterMap_map]
  rw [marks, List.map_filterMap]
  refine List.filterMap_congr fun p _ => ?_
  rw [Function.comp_apply, Message.quarterMicros?_eq, Option.map_map, Option.map_map]
  rfl

namespace Sequence

/-- The tempos of the sequence, track by track. -/
def marks (s : Sequence) : List TempoMark :=
  s.tracks.zipIdx.flatMap fun p => p.1.marks p.2

theorem mem_marks_iff {s : Sequence} {m : TempoMark} : m ∈ s.marks ↔ s.SetsTempo m := by
  simp only [marks, List.mem_flatMap, Prod.exists, List.mk_mem_zipIdx_iff_getElem?,
    Track.mem_marks_iff]
  constructor
  · rintro ⟨t, _, ht, rfl, hlength, e, he⟩
    exact ⟨⟨t, e, ht, he⟩, hlength⟩
  · rintro ⟨⟨t, e, ht, he⟩, hlength⟩
    exact ⟨t, m.track, ht, rfl, hlength, e, he⟩

/-- The tempos are listed in the order of their places. -/
theorem pairwise_marks (s : Sequence) :
    s.marks.Pairwise fun m n => toLex (m.track, m.place) < toLex (n.track, n.place) := by
  refine List.pairwise_flatMap.mpr ⟨?_, (pairwise_zipIdx _).imp ?_⟩
  · rintro ⟨t, number⟩ -
    refine List.Pairwise.imp_of_mem ?_ (t.pairwise_marks number)
    intro m n hm hn hlt
    have htrack := (Track.mem_marks_iff.mp hm).1.trans (Track.mem_marks_iff.mp hn).1.symm
    exact Prod.Lex.toLex_lt_toLex.mpr (.inr ⟨htrack, hlt⟩)
  · intro a b hlt m hm n hn
    have hm := (Track.mem_marks_iff.mp hm).1
    have hn := (Track.mem_marks_iff.mp hn).1
    rw [← hm, ← hn] at hlt
    exact Prod.Lex.toLex_lt_toLex.mpr (.inl hlt)

theorem map_marks (s : Sequence) :
    s.marks.map (fun m => (m.tick, beNat m.payload)) = s.tempos := by
  rw [marks, List.map_flatMap, tempos]
  conv_rhs => rw [← List.zipIdx_map_fst 0 s.tracks, List.flatMap_map]
  refine List.flatMap_congr fun p _ => ?_
  exact p.1.map_marks p.2

/-- A tempo is the first of all if none has a smaller tick, and if it stands in front of all others
with its tick. -/
theorem opensWith_of_filter {s : Sequence} {m : TempoMark} {others : List TempoMark}
    (hle : ∀ n ∈ s.marks, m.tick ≤ n.tick)
    (hsame : (s.marks.filter fun n => n.tick = m.tick) = m :: others) : s.OpensWith m := by
  have hpairwise := s.pairwise_marks.filter fun n => n.tick = m.tick
  rw [hsame] at hpairwise
  have hmem : ∀ n, n ∈ m :: others ↔ n ∈ s.marks ∧ n.tick = m.tick := by
    intro n
    rw [← hsame, List.mem_filter, decide_eq_true_iff]
  refine ⟨mem_marks_iff.mp ((hmem m).mp List.mem_cons_self).1, ?_⟩
  intro n hn
  have hn := mem_marks_iff.mpr hn
  refine Prod.Lex.toLex_le_toLex.mpr ?_
  rcases Nat.lt_or_eq_of_le (hle n hn) with hlt | heq
  · exact .inl hlt
  · refine .inr ⟨heq, ?_⟩
    rcases List.mem_cons.mp ((hmem n).mpr ⟨hn, heq.symm⟩) with rfl | hother
    · exact le_refl _
    · exact le_of_lt ((List.pairwise_cons.mp hpairwise).1 n hother)

/-- Whatever tempo is taken is the first by tick, track and place. -/
theorem exists_opensWith {s : Sequence} {micros : Nat} (h : s.openingTempo? = some micros) :
    ∃ m, s.OpensWith m ∧ beNat m.payload = micros := by
  obtain ⟨⟨tick, _⟩, hearliest, rfl⟩ := Option.map_eq_some_iff.mp h
  obtain ⟨hhead, hle⟩ := earliest?_eq_some_iff.mp hearliest
  rw [← map_marks] at hhead hle
  rw [List.filter_map, List.head?_map] at hhead
  obtain ⟨m, hm, heq⟩ := Option.map_eq_some_iff.mp hhead
  obtain ⟨rfl, rfl⟩ := Prod.mk.inj heq
  obtain ⟨others, hothers⟩ := List.head?_eq_some_iff.mp hm
  exact ⟨m, opensWith_of_filter (fun n hn => hle _ (List.mem_map_of_mem hn)) hothers, rfl⟩

theorem openingTempo?_eq_none_iff {s : Sequence} :
    s.openingTempo? = none ↔ ∀ m, ¬ s.SetsTempo m := by
  rw [openingTempo?, Option.map_eq_none_iff, earliest?_eq_none_iff, ← map_marks,
    List.map_eq_nil_iff, List.eq_nil_iff_forall_not_mem]
  exact forall_congr' fun m => not_congr mem_marks_iff

/-- The event in the place of a tempo is that tempo. -/
theorem SetsTempo.message_eq {s : Sequence} {m : TempoMark} {t : Track} {e : Event}
    (h : s.SetsTempo m) (ht : s.tracks[m.track]? = some t) (he : t.events[m.place]? = some e) :
    e.message = .metaEvent .tempo m.payload := by
  obtain ⟨t', e', ht', he', -, hmessage⟩ := h.event
  rw [ht] at ht'
  obtain rfl := Option.some.inj ht'
  rw [he] at he'
  obtain rfl := Option.some.inj he'
  exact hmessage

/-- No two tempos have the same place. -/
theorem SetsTempo.payload_unique {s : Sequence} {m n : TempoMark} (hm : s.SetsTempo m)
    (hn : s.SetsTempo n) (h : m.position = n.position) : m.payload = n.payload := by
  obtain ⟨-, hplaces⟩ := Prod.mk.inj (toLex_inj.mp h)
  obtain ⟨htrack, hplace⟩ := Prod.mk.inj (toLex_inj.mp hplaces)
  obtain ⟨t, e, ht, he, -, hmessage⟩ := hn.event
  rw [← htrack] at ht
  rw [← hplace] at he
  have hsame := (hm.message_eq ht he).symm.trans hmessage
  exact (Message.metaEvent.inj hsame).2

/-- **The opening tempo** is the first by tick, track and place. -/
theorem openingTempo?_eq_some_iff {s : Sequence} {micros : Nat} :
    s.openingTempo? = some micros ↔ ∃ m, s.OpensWith m ∧ beNat m.payload = micros := by
  refine ⟨exists_opensWith, ?_⟩
  rintro ⟨m, ⟨hsets, hfirst⟩, rfl⟩
  cases hopening : s.openingTempo? with
  | none => exact absurd hsets (openingTempo?_eq_none_iff.mp hopening m)
  | some micros =>
    obtain ⟨n, ⟨hsets', hfirst'⟩, rfl⟩ := exists_opensWith hopening
    have hposition := le_antisymm (hfirst n hsets') (hfirst' m hsets)
    rw [hsets.payload_unique hsets' hposition]

end Sequence

/-! ### Tracks by tick -/

namespace Track

/-- What the events say, with their ticks. -/
def timed (t : Track) : List (Nat × Message) :=
  t.events.map fun e => (e.tick, e.message)

/-- At each tick, the tracks have the same messages in the same order. -/
def SameAtTicks (t u : Track) : Prop :=
  ∀ tick, (t.timed.filter fun p => p.1 = tick) = u.timed.filter fun p => p.1 = tick

theorem sameAtTicks_sort (t : Track) : t.SameAtTicks t.sort := by
  intro tick
  have hsort := t.filter_tick_sort tick
  rw [timed, timed, List.filter_map, List.filter_map]
  exact congrArg (List.map _) hsort.symm

theorem timed_onChannel (t : Track) (channel : UInt8) : (t.onChannel channel).timed = t.timed := by
  rw [timed, timed, onChannel, List.map_map]
  refine List.map_congr_left fun e _ => ?_
  rw [Function.comp_apply, Event.onChannel_tick, Event.onChannel_message]

theorem sameAtTicks_onChannel (t : Track) (channel : UInt8) :
    t.SameAtTicks (t.onChannel channel) := by
  intro tick
  rw [timed_onChannel]

/-! ### Notes and length -/

theorem noteCount_eq_countP (t : Track) : t.noteCount = t.timed.countP fun p => p.2.isNoteOn := by
  rw [noteCount, timed, List.countP_map]
  rfl

theorem duration_le_iff {t : Track} {n : Nat} : t.duration ≤ n ↔ ∀ e ∈ t.events, e.tick ≤ n := by
  have hfold : ∀ (events : List Event) (last : Nat),
      events.foldl (fun last e => max last e.tick) last ≤ n ↔
        last ≤ n ∧ ∀ e ∈ events, e.tick ≤ n := by
    intro events
    induction events with
    | nil => simp
    | cons e events ih =>
      intro last
      rw [List.foldl_cons, ih, List.forall_mem_cons, Nat.max_le, and_assoc]
  rw [duration, hfold]
  simp

theorem tick_le_duration {t : Track} {e : Event} (h : e ∈ t.events) : e.tick ≤ t.duration :=
  duration_le_iff.mp (Nat.le_refl _) e h

/-- The length of a track is the tick of one of its events, if it has any. -/
theorem exists_tick_eq_duration {t : Track} (h : t.events ≠ []) :
    ∃ e ∈ t.events, e.tick = t.duration := by
  by_contra hnone
  have hlt : ∀ e ∈ t.events, e.tick < t.duration := by
    intro e he
    exact Nat.lt_of_le_of_ne (tick_le_duration he) fun heq => hnone ⟨e, he, heq⟩
  have hpred : t.duration ≤ t.duration - 1 :=
    duration_le_iff.mpr fun e he => Nat.le_sub_one_of_lt (hlt e he)
  obtain ⟨e, he⟩ := List.exists_mem_of_ne_nil _ h
  have hpos := hlt e he
  omega

theorem duration_eq_foldl (t : Track) : t.duration = (t.timed.map Prod.fst).foldl max 0 := by
  rw [duration, timed, List.map_map, List.foldl_map]
  rfl

section Same

variable {t u : Track}

/-- Such tracks have the same messages at the same ticks, in another order perhaps. -/
theorem SameAtTicks.perm (h : t.SameAtTicks u) : t.timed.Perm u.timed := by
  refine List.perm_iff_count.mpr fun p => ?_
  have hcount : ∀ l : List (Nat × Message), (l.filter fun q => q.1 = p.1).count p = l.count p :=
    fun l => List.count_filter (decide_eq_true rfl)
  rw [← hcount t.timed, h p.1, hcount]

theorem SameAtTicks.noteCount_eq (h : t.SameAtTicks u) : t.noteCount = u.noteCount := by
  rw [noteCount_eq_countP, noteCount_eq_countP, h.perm.countP_eq]

theorem SameAtTicks.duration_eq (h : t.SameAtTicks u) : t.duration = u.duration := by
  rw [duration_eq_foldl, duration_eq_foldl]
  exact (h.perm.map Prod.fst).foldl_op_eq

end Same

end Track

/-! ### Sequences by tick -/

/-- The tempo settings of a track with their ticks. -/
def Track.tempos (t : Track) : List (Nat × Nat) :=
  t.timed.filterMap fun p => p.2.quarterMicros?.map fun micros => (p.1, micros)

theorem Track.filter_tempos (t : Track) (tick : Nat) :
    (t.tempos.filter fun p => p.1 = tick) =
      (t.timed.filter fun p => p.1 = tick).filterMap fun p =>
        p.2.quarterMicros?.map fun micros => (p.1, micros) := by
  rw [tempos, List.filter_filterMap, List.filterMap_filter]
  refine List.filterMap_congr fun p _ => ?_
  cases p.2.quarterMicros? <;> by_cases h : p.1 = tick <;> simp [h]

namespace Sequence

theorem tempos_eq_flatMap (s : Sequence) : s.tempos = s.tracks.flatMap Track.tempos := by
  refine List.flatMap_congr fun t _ => ?_
  rw [Track.tempos, Track.timed, List.filterMap_map]
  rfl

theorem filter_flatMap_tempos {tracks tracks' : List Track}
    (h : List.Forall₂ Track.SameAtTicks tracks tracks') (tick : Nat) :
    ((tracks.flatMap Track.tempos).filter fun p => p.1 = tick) =
      (tracks'.flatMap Track.tempos).filter fun p => p.1 = tick := by
  induction h with
  | nil => rfl
  | cons hsame _ ih =>
    rw [List.flatMap_cons, List.flatMap_cons, List.filter_append, List.filter_append, ih,
      Track.filter_tempos, Track.filter_tempos, hsame tick]

/-- Sequences whose tracks have the same messages at each tick start with the same tempo. -/
theorem openingTempo?_congr {s s' : Sequence}
    (h : List.Forall₂ Track.SameAtTicks s.tracks s'.tracks) :
    s.openingTempo? = s'.openingTempo? := by
  rw [openingTempo?, openingTempo?, tempos_eq_flatMap, tempos_eq_flatMap,
    earliest?_congr (filter_flatMap_tempos h)]

/-- The sequence with sorted tracks. -/
def sortTracks (s : Sequence) : Sequence :=
  { s with tracks := s.tracks.map Track.sort }

/-- The sequence with a channel for each track. -/
def assignChannels (s : Sequence) : Sequence :=
  { s with tracks := allocateChannels s.tracks }

theorem sameAtTicks_sortTracks (s : Sequence) :
    List.Forall₂ Track.SameAtTicks s.tracks s.sortTracks.tracks :=
  List.forall₂_map_right_iff.mpr (List.forall₂_same.mpr fun t _ => t.sameAtTicks_sort)

theorem sameAtTicks_assignChannels (s : Sequence) :
    List.Forall₂ Track.SameAtTicks s.tracks s.assignChannels.tracks := by
  have hsame : List.Forall₂ Eq s.tracks s.tracks := List.forall₂_refl _
  refine (forall₂_allocateChannelsFrom hsame 0).imp ?_
  rintro t _ ⟨_, channel, rfl, rfl⟩
  exact t.sameAtTicks_onChannel channel

end Sequence

/-! ### Summaries -/

namespace Json

/-- What stands under a key of an object. -/
def entry? (key : String) : Json → Option Json
  | object members => members.lookup key
  | _ => none

/-- The items of an array. -/
def items : Json → List Json
  | array items => items
  | _ => []

/-- The summary in the dump of a sequence: its tempo, and the number of notes and the length of each
track. -/
def summary (dump : Json) : Option Json × List (Option Json × Option Json) :=
  (dump.entry? "bpm",
    ((dump.entry? "tracks").elim [] items).map fun t => (t.entry? "notes", t.entry? "length"))

end Json

/-- The summary in the dump of a track. -/
def Track.summary (t : Track) : Option Json × Option Json :=
  (some (.nat t.noteCount), some (.nat t.duration))

theorem Track.entry?_dump (t : Track) :
    (t.dump.entry? "notes", t.dump.entry? "length") = t.summary := by
  simp [dump, Json.entry?, List.lookup_cons, summary]

theorem Track.SameAtTicks.summary_eq {t u : Track} (h : t.SameAtTicks u) :
    t.summary = u.summary := by
  rw [summary, summary, h.noteCount_eq, h.duration_eq]

namespace Sequence

theorem entry?_bpm_dump (s : Sequence) :
    s.dump.entry? "bpm" =
      s.openingTempo?.map fun micros => .decimal (beatsPerMinute micros) := by
  rw [dump, Json.entry?]
  cases s.openingTempo? with
  | none => split <;> simp [List.lookup_cons]
  | some micros => split <;> simp [List.lookup_cons]

theorem entry?_tracks_dump (s : Sequence) :
    s.dump.entry? "tracks" = some (.array (s.tracks.map Track.dump)) := by
  obtain ⟨members, hdump, -, -, htracks⟩ := s.exists_dump_eq
  rw [hdump]
  exact htracks

theorem summary_dump (s : Sequence) :
    s.dump.summary = (s.openingTempo?.map fun micros => .decimal (beatsPerMinute micros),
      s.tracks.map Track.summary) := by
  rw [Json.summary, entry?_bpm_dump, entry?_tracks_dump, Option.elim_some, Json.items,
    List.map_map]
  exact congrArg _ (List.map_congr_left fun t _ => t.entry?_dump)

/-- Sequences whose tracks have the same messages at each tick have the same summary. -/
theorem summary_dump_congr {s s' : Sequence}
    (h : List.Forall₂ Track.SameAtTicks s.tracks s'.tracks) : s.dump.summary = s'.dump.summary := by
  have htracks : List.Forall₂ (fun t u => t.summary = u.summary) s.tracks s'.tracks :=
    h.imp fun t u hsame => hsame.summary_eq
  rw [← List.forall₂_map_right_iff, ← List.forall₂_map_left_iff, List.forall₂_eq_eq_eq] at htracks
  rw [summary_dump, summary_dump, openingTempo?_congr h, htracks]

/-- **Summaries.** A dump gives the beats per minute of the tempo of three bytes that is first by
tick, track and place, and none if and only if the sequence has no such tempo; an event of any other
type is none, whatever its type byte. For each track it gives the number of its notes and its
largest tick, which is zero in a track without events.

None of this changes when the tracks are sorted or when channels are assigned. -/
theorem dump_summary (s : Sequence) :
    (∀ micros, s.openingTempo? = some micros ↔
      ∃ m, s.OpensWith m ∧ beNat m.payload = micros) ∧
    s.dump.entry? "bpm" = s.openingTempo?.map (fun micros => .decimal (beatsPerMinute micros)) ∧
    (s.dump.entry? "bpm" = none ↔ ∀ m, ¬ s.SetsTempo m) ∧
    (∀ t e m, s.tracks[m.track]? = some t → t.events[m.place]? = some e →
      (∃ byte data, e.message = .metaEvent (.other byte) data) → ¬ s.SetsTempo m) ∧
    s.dump.entry? "tracks" = some (.array (s.tracks.map Track.dump)) ∧
    (∀ t ∈ s.tracks,
      t.dump.entry? "notes" = some (.nat (t.events.filter fun e => e.message.isNoteOn).length) ∧
      ∃ length, t.dump.entry? "length" = some (.nat length) ∧
        (∀ e ∈ t.events, e.tick ≤ length) ∧ (t.events ≠ [] → ∃ e ∈ t.events, e.tick = length) ∧
        (t.events = [] → length = 0)) ∧
    s.sortTracks.dump.summary = s.dump.summary ∧
    s.assignChannels.dump.summary = s.dump.summary := by
  refine ⟨fun _ => openingTempo?_eq_some_iff, s.entry?_bpm_dump, ?_, ?_, s.entry?_tracks_dump, ?_,
    (summary_dump_congr s.sameAtTicks_sortTracks).symm,
    (summary_dump_congr s.sameAtTicks_assignChannels).symm⟩
  · rw [entry?_bpm_dump, Option.map_eq_none_iff, openingTempo?_eq_none_iff]
  · rintro t e m ht he ⟨byte, data, hmessage⟩ hsets
    rw [hsets.message_eq ht he] at hmessage
    cases hmessage
  · intro t _
    obtain ⟨hnotes, hlength⟩ := Prod.mk.inj t.entry?_dump
    refine ⟨?_, t.duration, hlength, fun e he => Track.tick_le_duration he, ?_, ?_⟩
    · rw [hnotes, Track.noteCount, List.countP_eq_length_filter]
    · exact Track.exists_tick_eq_duration
    · intro hempty
      rw [Track.duration, hempty, List.foldl_nil]

end Sequence

end DseMidi
