import DseMidi.Proofs.Smf.Reading
import DseMidi.Proofs.Track

/-!
# DseMidi.Proofs.Gaps

**The gaps between the events of a track.** They are the times that stand in a written track,
and the reader takes four groups of each. Where ticks do not decrease, short gaps
(`Track.ShortGaps`) are all that it needs to find the ticks again (`Track.shortGaps_iff`).
-/

namespace DseMidi

/-- The differences of neighbouring ticks, the first of them to `last`. -/
def gaps (last : Nat) : List Nat → List Nat
  | [] => []
  | tick :: ticks => (tick - last) :: gaps tick ticks

/-- No gap between neighbouring events takes more than four groups. -/
def Track.ShortGaps (t : Track) : Prop :=
  ∀ gap ∈ gaps 0 (t.events.map Event.tick), gap ≤ 0x0FFFFFFF

theorem map_delta_wireEvents (last : Nat) (events : List Event) :
    (Smf.wireEvents last events).map Smf.WireEvent.delta =
      gaps last (events.map Event.tick) := by
  induction events generalizing last with
  | nil => rfl
  | cons e rest ih =>
    rw [Smf.wireEvents, List.map_cons, ih]
    rfl

/-- Where ticks do not decrease, short gaps are all that the reader needs. -/
theorem spaced_iff {last : Nat} {ticks : List Nat} (h : (last :: ticks).Pairwise (· ≤ ·)) :
    Spaced last ticks ↔ ∀ gap ∈ gaps last ticks, gap ≤ 0x0FFFFFFF := by
  induction ticks generalizing last with
  | nil => simp [Spaced, gaps]
  | cons tick ticks ih =>
    have hle : last ≤ tick := List.rel_of_pairwise_cons h List.mem_cons_self
    have hrest := ih h.of_cons
    rw [gaps, List.forall_mem_cons, ← hrest]
    unfold Spaced
    rw [List.isChain_cons_cons]
    constructor
    · intro ⟨⟨_, hlt⟩, hchain⟩
      exact ⟨by omega, hchain⟩
    · intro ⟨hgap, hchain⟩
      exact ⟨⟨hle, by omega⟩, hchain⟩

theorem Track.shortGaps_iff {t : Track} (h : Ordered t.events) :
    t.ShortGaps ↔ Spaced 0 (t.events.map Event.tick) :=
  (spaced_iff h.zero_cons_ticks).symm

/-! ### How long a gap can be -/

theorem gaps_le_of_le {first last bound : Nat} {ticks : List Nat} (hfirst : first ≤ last)
    (hordered : (last :: ticks).Pairwise (· ≤ ·)) (h : ∀ tick ∈ ticks, tick ≤ first + bound) :
    ∀ gap ∈ gaps last ticks, gap ≤ bound := by
  induction ticks generalizing last with
  | nil =>
    intro gap hgap
    cases hgap
  | cons tick ticks ih =>
    have hle : last ≤ tick := List.rel_of_pairwise_cons hordered List.mem_cons_self
    obtain ⟨htick, hlater⟩ := List.forall_mem_cons.mp h
    rw [gaps, List.forall_mem_cons]
    exact ⟨by omega, ih (Nat.le_trans hfirst hle) hordered.of_cons hlater⟩

/-- If nothing is further than `bound` behind `tick`, no gap is longer than one of the two. -/
theorem gaps_le {last tick bound : Nat} {ticks : List Nat} (hmem : tick ∈ ticks)
    (hordered : (last :: ticks).Pairwise (· ≤ ·)) (h : ∀ later ∈ ticks, later ≤ tick + bound) :
    ∀ gap ∈ gaps last ticks, gap ≤ max tick bound := by
  induction ticks generalizing last with
  | nil => cases hmem
  | cons first ticks ih =>
    obtain ⟨-, hrest⟩ := List.forall_mem_cons.mp h
    rw [gaps, List.forall_mem_cons]
    rcases List.mem_cons.mp hmem with rfl | hmem
    · refine ⟨by omega, ?_⟩
      intro gap hgap
      have hgap := gaps_le_of_le (Nat.le_refl _) hordered.of_cons hrest gap hgap
      exact Nat.le_trans hgap (Nat.le_max_right _ _)
    · have hle : first ≤ tick := List.rel_of_pairwise_cons hordered.of_cons hmem
      exact ⟨by omega, ih hmem hordered.of_cons hrest⟩

end DseMidi
