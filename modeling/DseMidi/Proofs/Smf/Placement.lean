import Mathlib.Algebra.GroupWithZero.Nat
import DseMidi.Proofs.Smf.Reading
import DseMidi.Proofs.Track

/-!
# DseMidi.Proofs.Smf.Placement

**Times add up to ticks.** An event of a track stands at the sum of all times up to and
including its own; `placed` says so for each event by itself, without running through the
track. What the reader makes of a track is `placed` without the marks of its end
(`absoluteFrom_eq`), so that these marks keep their time although they go. For what the writer
makes of events in order, `placed` is the way back (`placed_wireEvents`).
-/

namespace DseMidi

/-- Whether the message marks the end of a track. -/
def Message.isEndOfTrack : Message → Bool
  | .metaEvent .endOfTrack _ => true
  | _ => false

/-- The event a number of ticks later. -/
def Event.later (ticks : Nat) (e : Event) : Event :=
  { e with tick := ticks + e.tick }

theorem Event.later_zero : Event.later 0 = id := by
  funext e
  rw [later, Nat.zero_add]
  rfl

theorem Event.later_comp (ticks more : Nat) :
    Event.later ticks ∘ Event.later more = Event.later (ticks + more) := by
  funext e
  simp only [later, Function.comp_apply, Nat.add_assoc]

namespace Smf

/-- The tick of the event with a number: all times up to and including its own. -/
def tickAt (ws : List WireEvent) (index : Nat) : Nat :=
  ((ws.take (index + 1)).map WireEvent.delta).sum

/-- The events of a track at their ticks. -/
def placed (ws : List WireEvent) : List Event :=
  ws.zipIdx.map fun p => ⟨tickAt ws p.2, p.1.channel, p.1.message⟩

@[simp] theorem placed_nil : placed [] = [] := rfl

theorem placed_cons (w : WireEvent) (rest : List WireEvent) :
    placed (w :: rest) =
      ⟨w.delta, w.channel, w.message⟩ :: (placed rest).map (Event.later w.delta) := by
  simp [placed, tickAt, Event.later, List.zipIdx_succ]

theorem WireEvent.isEndOfTrack_eq (w : WireEvent) : w.isEndOfTrack = w.message.isEndOfTrack := by
  rcases w with ⟨delta, channel, message⟩
  cases message with
  | metaEvent type data => cases type <;> rfl
  | _ => rfl

/-- The reader leaves out the marks of the end, and nothing of the times. -/
theorem absoluteFrom_eq (start : Nat) (ws : List WireEvent) :
    absoluteFrom start ws =
      ((placed ws).filter fun e => !e.message.isEndOfTrack).map (Event.later start) := by
  induction ws generalizing start with
  | nil => rfl
  | cons w rest ih =>
    have hrest : ((placed rest).map (Event.later w.delta)).filter
        (fun e => !e.message.isEndOfTrack) =
          ((placed rest).filter fun e => !e.message.isEndOfTrack).map (Event.later w.delta) := by
      rw [List.filter_map]
      rfl
    rw [absoluteFrom, placed_cons, List.filter_cons, hrest, ih, WireEvent.isEndOfTrack_eq]
    cases w.message.isEndOfTrack with
    | true => simp [Event.later_comp]
    | false => simp [Event.later_comp, Event.later]

/-- Events that are in order behind `last` are at their own ticks again. -/
theorem map_later_placed_wireEvents {last : Nat} {events : List Event}
    (h : (last :: events.map Event.tick).Pairwise (· ≤ ·)) :
    (placed (wireEvents last events)).map (Event.later last) = events.map Event.normalized := by
  induction events generalizing last with
  | nil => rfl
  | cons e rest ih =>
    have hle : last ≤ e.tick := List.rel_of_pairwise_cons h List.mem_cons_self
    have htick : last + (e.tick - last) = e.tick := Nat.add_sub_of_le hle
    rw [wireEvents, placed_cons, List.map_cons, List.map_map, Event.later_comp, List.map_cons,
      htick, ih h.of_cons, Event.later, htick]
    rfl

theorem placed_wireEvents {events : List Event} (h : Ordered events) :
    placed (wireEvents 0 events) = events.map Event.normalized := by
  have hplaced := map_later_placed_wireEvents h.zero_cons_ticks
  rw [Event.later_zero, List.map_id] at hplaced
  exact hplaced

end Smf

end DseMidi
