import DseMidi.Proofs.Dse.Grammar
import DseMidi.Proofs.Track

/-!
# DseMidi.Proofs.Dse.Timeline

**When a track's events are.** Playing moves a cursor that never goes back. An event is
*at the cursor* unless it is the end of a note, which may lie ahead, or one of the
controllers that set the bend range, which stand at tick zero.

What one instruction does is said once (`Context.events_inv`); from it, by induction on the
instructions, the events at the cursor lie between the first and the last position
(`Context.between_of_mem_play`) and do not go back in time (`Context.ordered_play`). So
ordering a decoded track leaves them as they were emitted.
-/

namespace DseMidi

/-- The controllers that set the range of pitch bends. -/
def rangeControllers : List UInt8 :=
  [Controller.parameterMsb, Controller.parameterLsb, Controller.dataEntryMsb,
    Controller.dataEntryLsb]

/-- Whether the event is of a kind that is emitted at the position of its instruction. -/
def Event.atCursor (e : Event) : Bool :=
  match e.message with
  | .noteOff .. => false
  | .controller number _ => number ∉ rangeControllers
  | _ => true

namespace Dse

/-! ### One instruction -/

/-- No dial is one of the controllers that set the bend range. -/
theorem Dial.controller_not_mem (dial : Dial) : dial.controller ∉ rangeControllers := by
  cases dial <;> decide

namespace Context

variable {ctx : Context} {s : State} {e : Event}

theorem events_note_inv {velocity arg : UInt8} {lengthBytes : Bytes}
    (h : e ∈ ctx.events s (.note velocity arg lengthBytes)) :
    ∃ key, ctx.soundingKey? (s.afterNote arg lengthBytes) arg = some key ∧
      (e = ⟨s.tick, ctx.channel, .noteOn key velocity⟩ ∨
        e = .noteOff (releaseTick s.tick (s.afterNote arg lengthBytes).defaultLength) ctx.channel
          key) := by
  simp only [events] at h
  split at h
  · next key hkey =>
    simp only [noteEvents, List.mem_cons, List.not_mem_nil, or_false] at h
    exact ⟨key, hkey, h⟩
  · cases h

theorem events_tempo_inv {bpm : UInt8} (h : e ∈ ctx.events s (.tempo bpm)) :
    ∃ micros, quarterMicros? bpm = some micros ∧ e = .ofMeta s.tick (.tempo micros) := by
  simp only [events] at h
  split at h
  · next micros hmicros => exact ⟨micros, hmicros, List.mem_singleton.mp h⟩
  · cases h

theorem events_pitchBend_inv {high low : UInt8} (h : e ∈ ctx.events s (.pitchBend high low)) :
    (s.bendReady = false ∧ e ∈ ctx.bendRangeEvents) ∨
      ∃ lsb msb, e = ⟨s.tick, ctx.channel, .pitchBend lsb msb⟩ := by
  simp only [events, List.mem_append, List.mem_singleton] at h
  rcases h with h | h
  · split at h
    · cases h
    · next hready => exact Or.inl ⟨by simpa using hready, h⟩
  · exact Or.inr ⟨_, _, h⟩

theorem bendRangeEvents_inv (h : e ∈ ctx.bendRangeEvents) :
    e.tick = 0 ∧ ∃ number ∈ rangeControllers, ∃ value,
      e.message = .controller number value := by
  simp only [bendRangeEvents, List.mem_cons, List.not_mem_nil, or_false] at h
  rcases h with rfl | rfl | rfl | rfl
  · exact ⟨rfl, _, by decide, _, rfl⟩
  · exact ⟨rfl, _, by decide, _, rfl⟩
  · exact ⟨rfl, _, by decide, _, rfl⟩
  · exact ⟨rfl, _, by decide, _, rfl⟩

/-- **When an event is.** An event of an instruction is at the cursor, or the end of its note,
or sets the bend range. -/
theorem events_inv {i : Instruction} (h : e ∈ ctx.events s i) :
    (e.atCursor ∧ e.tick = s.tick) ∨
    (∃ key, e = .noteOff (releaseTick s.tick (s.after i).defaultLength) ctx.channel key) ∨
    e ∈ ctx.bendRangeEvents := by
  cases i with
  | note velocity arg lengthBytes =>
    obtain ⟨key, -, rfl | rfl⟩ := events_note_inv h
    · exact Or.inl ⟨rfl, rfl⟩
    · exact Or.inr (Or.inl ⟨key, rfl⟩)
  | tempo bpm =>
    obtain ⟨micros, -, rfl⟩ := events_tempo_inv h
    exact Or.inl ⟨rfl, rfl⟩
  | pitchBend high low =>
    rcases events_pitchBend_inv h with ⟨-, h⟩ | ⟨lsb, msb, rfl⟩
    · exact Or.inr (Or.inr h)
    · exact Or.inl ⟨rfl, rfl⟩
  | controller dial value =>
    obtain rfl := List.mem_singleton.mp h
    exact Or.inl ⟨decide_eq_true dial.controller_not_mem, rfl⟩
  | loopStart | program _ | verbatim _ _ =>
    obtain rfl := List.mem_singleton.mp h
    exact Or.inl ⟨rfl, rfl⟩
  | fixedDelay _ | repeatDelay | addDelay _ | delay8 _ | delay16 _ _ | setOctave _ => cases h

theorem not_atCursor_of_mem_bendRangeEvents (h : e ∈ ctx.bendRangeEvents) :
    e.atCursor = false := by
  obtain ⟨-, number, hnumber, value, hmessage⟩ := bendRangeEvents_inv h
  rw [Event.atCursor, hmessage]
  simpa using hnumber

/-- Events at the cursor are at the position of their instruction. -/
theorem tick_of_mem_events {i : Instruction} (h : e ∈ ctx.events s i)
    (hcursor : e.atCursor) : e.tick = s.tick := by
  rcases events_inv h with ⟨-, htick⟩ | ⟨key, rfl⟩ | hrange
  · exact htick
  · cases hcursor
  · rw [not_atCursor_of_mem_bendRangeEvents hrange] at hcursor
    cases hcursor

end Context

/-! ### Whole runs -/

theorem Context.play_cons (ctx : Context) (offset : Nat) (s : State) (i : Instruction)
    (is : List Instruction) :
    ctx.play offset s (i :: is) =
      ⟨ctx.events s i ++ (ctx.play (offset + i.size) (s.after i) is).events,
        (ctx.play (offset + i.size) (s.after i) is).state,
        ctx.warnings offset s i ++ (ctx.play (offset + i.size) (s.after i) is).warnings⟩ := rfl

/-- Repeating a delay adds it once more each time, and nothing sounds. -/
theorem Context.play_replicate_repeatDelay (ctx : Context) (offset : Nat) (s : State)
    (n : Nat) :
    ctx.play offset s (List.replicate n .repeatDelay) =
      ⟨[], { s with tick := s.tick + n * (2 * s.priorDelay.toNat) }, []⟩ := by
  induction n generalizing offset s with
  | zero =>
    rw [Nat.zero_mul]
    rfl
  | succ n ih =>
    have htick : s.tick + 2 * s.priorDelay.toNat + n * (2 * s.priorDelay.toNat) =
        s.tick + (n + 1) * (2 * s.priorDelay.toNat) := by
      rw [Nat.add_mul n 1, Nat.one_mul]
      omega
    rw [List.replicate_succ, play_cons, ih, ← htick]
    rfl

variable {ctx : Context} {offset : Nat} {s : State} {is : List Instruction}

/-- An event of a run is one of an instruction of it. -/
theorem Context.exists_of_mem_play {e : Event} (h : e ∈ (ctx.play offset s is).events) :
    ∃ i ∈ is, ∃ s', e ∈ ctx.events s' i := by
  induction is generalizing offset s with
  | nil => cases h
  | cons i is ih =>
    rw [play_cons] at h
    rcases List.mem_append.mp h with h | h
    · exact ⟨i, List.mem_cons_self, s, h⟩
    · obtain ⟨j, hj, s', h⟩ := ih h
      exact ⟨j, List.mem_cons_of_mem _ hj, s', h⟩

/-- The cursor of a run never goes back. -/
theorem Context.tick_le_state_play : s.tick ≤ (ctx.play offset s is).state.tick := by
  induction is generalizing offset s with
  | nil => exact Nat.le_refl _
  | cons i is ih => exact Nat.le_trans (s.tick_le_after i) ih

/-- Events at the cursor lie between the first and the last position of a run. -/
theorem Context.between_of_mem_play {e : Event} (h : e ∈ (ctx.play offset s is).events)
    (hcursor : e.atCursor) :
    s.tick ≤ e.tick ∧ e.tick ≤ (ctx.play offset s is).state.tick := by
  induction is generalizing offset s with
  | nil => cases h
  | cons i is ih =>
    have hstep := s.tick_le_after i
    rw [play_cons] at h ⊢
    rcases List.mem_append.mp h with h | h
    · rw [tick_of_mem_events h hcursor]
      exact ⟨Nat.le_refl _, Nat.le_trans hstep tick_le_state_play⟩
    · obtain ⟨hlow, hhigh⟩ := ih h
      exact ⟨Nat.le_trans hstep hlow, hhigh⟩

/-- Events at the cursor are emitted in the order of their ticks. -/
theorem Context.ordered_play : Ordered ((ctx.play offset s is).events.filter Event.atCursor) := by
  induction is generalizing offset s with
  | nil => exact List.Pairwise.nil
  | cons i is ih =>
    have hhere : ∀ e ∈ (ctx.events s i).filter Event.atCursor, e.tick = s.tick := by
      intro e he
      obtain ⟨hmem, hcursor⟩ := List.mem_filter.mp he
      exact tick_of_mem_events hmem hcursor
    rw [play_cons, List.filter_append]
    apply (Ordered.of_forall_tick hhere).append ih
    intro a ha b hb
    obtain ⟨hmem, hcursor⟩ := List.mem_filter.mp hb
    rw [hhere a ha]
    exact Nat.le_trans (s.tick_le_after i) (between_of_mem_play hmem hcursor).1

/-- So are those of a track with the mark at its end, which is behind all of them. -/
theorem Context.ordered_decoded (ctx : Context) (offset : Nat) (s : State)
    (is : List Instruction) :
    Ordered ((ctx.decoded offset s is).events.filter Event.atCursor) := by
  rw [decoded, List.filter_append]
  apply ordered_play.append (List.pairwise_singleton _ _)
  intro a ha b hb
  obtain ⟨hmem, hcursor⟩ := List.mem_filter.mp ha
  obtain rfl := List.mem_singleton.mp hb
  exact (between_of_mem_play hmem hcursor).2

/-- The title in front of a track is at the cursor as well: it is at tick zero. -/
theorem Decoded.ordered_title_append {d : Decoded} (h : Ordered (d.events.filter Event.atCursor))
    {title : List Event} (htitle : ∀ e ∈ title, e.tick = 0) :
    Ordered ((title ++ d.events).filter Event.atCursor) := by
  have hzero : ∀ e ∈ title.filter Event.atCursor, e.tick = 0 := by
    intro e he
    exact htitle e (List.mem_of_mem_filter he)
  rw [List.filter_append]
  apply (Ordered.of_forall_tick hzero).append h
  intro a ha b _
  rw [hzero a ha]
  exact Nat.zero_le _

end Dse

end DseMidi
