import DseMidi.Proofs.Bytes
import DseMidi.Proofs.Dse.Timeline

/-!
# DseMidi.Proofs.Dse.Duration

**How far a track can get.** A delay has at most sixteen bits when it is given in full, and
each signed change of it costs two bytes; so the bytes played so far bound the delay, and by
it the way that one more instruction can go (`State.Bounded`). Over a whole run that bounds
the position of the cursor by the square of the number of bytes (`Context.tick_play_le`).

Notes end less than `2 ^ 25` ticks behind the position of their instruction, since a length
has three bytes.
-/

namespace DseMidi.Dse

/-- What `played` bytes of instructions can have made of a state. -/
structure State.Bounded (s : State) (played : Nat) : Prop where
  delay : 2 * s.priorDelay ≤ 131070 + 127 * played
  length : s.defaultLength < 2 ^ 24

theorem State.bounded_initial : State.initial.Bounded 0 := by
  constructor <;> decide

/-! ### One instruction -/

namespace State.Bounded

variable {s : State} {played : Nat}

/-- A delay moves the cursor by twice its length and is remembered. -/
theorem delay_of_le (h : s.Bounded played) {ticks : Int} {more : Nat}
    (hticks : 2 * ticks ≤ 131070 + 127 * (played + more)) :
    (s.delay ticks).Bounded (played + more) ∧
      (s.delay ticks).tick ≤ s.tick + (131070 + 127 * (played + more)) := by
  refine ⟨⟨?_, h.length⟩, ?_⟩
  · push_cast
    exact hticks
  · show s.tick + 2 * ticks.toNat ≤ _
    omega

/-- An instruction that does not change the delay keeps to its bound. -/
theorem of_priorDelay_eq (h : s.Bounded played) {s' : State} (more : Nat)
    (hdelay : s'.priorDelay = s.priorDelay) (hlength : s'.defaultLength < 2 ^ 24)
    (htick : s'.tick = s.tick) :
    s'.Bounded (played + more) ∧ s'.tick ≤ s.tick + (131070 + 127 * (played + more)) := by
  have hprior := h.delay
  refine ⟨⟨?_, hlength⟩, ?_⟩
  · rw [hdelay]
    omega
  · omega

/-- **One step.** The bytes of an instruction pay for what it does to the delay, and the
cursor goes on by at most the new bound. -/
theorem step (h : s.Bounded played) {i : Instruction} (hi : i.WellFormed) :
    (s.after i).Bounded (played + i.size) ∧
      (s.after i).tick ≤ s.tick + (131070 + 127 * (played + i.size)) := by
  have hprior := h.delay
  cases i with
  | note velocity arg lengthBytes =>
    have hcount : arg.toNat / 64 ≤ 3 := by
      have := arg.toNat_lt
      omega
    have hlength : (s.afterNote arg lengthBytes).defaultLength < 2 ^ 24 := by
      rw [afterNote]
      dsimp only
      split
      · exact h.length
      · have hbytes : lengthBytes.length ≤ 3 := by
          rw [hi.2]
          exact hcount
        exact beNat_lt_of_length_le hbytes
    exact h.of_priorDelay_eq _ rfl hlength rfl
  | fixedDelay index =>
    have all : ∀ index : Fin 16, fixedDelays.get index ≤ 96 := by decide
    have hindex := all index
    refine h.delay_of_le ?_
    omega
  | repeatDelay =>
    refine h.delay_of_le ?_
    omega
  | addDelay delta =>
    have hdelta : delta.toInt8.toInt ≤ 127 := delta.toInt8.toInt_le
    have hsize : (Instruction.addDelay delta).size = 2 := rfl
    refine h.delay_of_le ?_
    omega
  | delay8 ticks =>
    have hticks := ticks.toNat_lt
    refine h.delay_of_le ?_
    omega
  | delay16 low high =>
    have hticks : leNat [low, high] < 256 ^ 2 := by
      exact beNat_lt_of_length_le (Nat.le_refl 2)
    refine h.delay_of_le ?_
    omega
  | setOctave _ | program _ | pitchBend _ _ | loopStart | tempo _
  | controller _ _ | verbatim _ _ =>
    exact h.of_priorDelay_eq _ rfl h.length rfl

end State.Bounded

/-- No event of an instruction is further ahead than a note can be long. -/
theorem Context.tick_le_of_mem_events {ctx : Context} {s : State} {i : Instruction} {e : Event}
    {played : Nat} (hs : s.Bounded played) (hi : i.WellFormed) (h : e ∈ ctx.events s i) :
    e.tick ≤ s.tick + 2 ^ 25 := by
  rcases events_inv h with ⟨-, htick⟩ | ⟨key, rfl⟩ | hrange
  · rw [htick]
    exact Nat.le_add_right _ _
  · have hlength := (hs.step hi).1.length
    show releaseTick s.tick (s.after i).defaultLength ≤ _
    rw [releaseTick]
    omega
  · rw [(bendRangeEvents_inv hrange).1]
    exact Nat.zero_le _

/-! ### Whole runs -/

variable {ctx : Context} {offset : Nat} {s : State} {is : List Instruction} {played : Nat}

theorem length_le_streamSize (is : List Instruction) : is.length ≤ streamSize is := by
  induction is with
  | nil => exact Nat.le_refl _
  | cons i is ih =>
    have hpos := i.size_pos
    rw [List.length_cons, streamSize_cons]
    omega

/-- **A whole run.** Each instruction moves the cursor by no more than the bound on the delay
at the end. -/
theorem Context.tick_play_le (hs : s.Bounded played) (his : ∀ i ∈ is, i.WellFormed) :
    (ctx.play offset s is).state.tick ≤
      s.tick + is.length * (131070 + 127 * (played + streamSize is)) := by
  induction is generalizing offset s played with
  | nil => exact Nat.le_add_right _ _
  | cons i is ih =>
    obtain ⟨hi, his⟩ := List.forall_mem_cons.mp his
    obtain ⟨hafter, htick⟩ := hs.step hi
    have hrest : (ctx.play (offset + i.size) (s.after i) is).state.tick ≤ _ := ih hafter his
    rw [Nat.add_assoc played] at hrest
    rw [play_cons, streamSize_cons, List.length_cons, Nat.succ_mul]
    dsimp only
    omega

/-- No event of a run is further behind its end than a note can be long. -/
theorem Context.tick_le_of_mem_play {e : Event} (hs : s.Bounded played)
    (his : ∀ i ∈ is, i.WellFormed) (h : e ∈ (ctx.play offset s is).events) :
    e.tick ≤ (ctx.play offset s is).state.tick + 2 ^ 25 := by
  induction is generalizing offset s played with
  | nil => cases h
  | cons i is ih =>
    obtain ⟨hi, his⟩ := List.forall_mem_cons.mp his
    rw [play_cons] at h ⊢
    rcases List.mem_append.mp h with h | h
    · have hevent := tick_le_of_mem_events hs hi h
      have hstep := s.tick_le_after i
      have hend : (s.after i).tick ≤ (ctx.play (offset + i.size) (s.after i) is).state.tick :=
        tick_le_state_play
      dsimp only
      omega
    · exact ih (hs.step hi).1 his h

end DseMidi.Dse
