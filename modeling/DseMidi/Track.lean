import DseMidi.Event

/-!
# DseMidi.Track

**Tracks and sequences**: events in order, grouped by output channel, under one
name and one time division.
-/

namespace DseMidi

/-- The channel that MIDI reserves for percussion. -/
def percussionChannel : UInt8 := 9

/-- The program that marks a percussion track. -/
def percussionProgram : UInt8 := 127

/-- Events in order, and the channel that they play on. -/
structure Track where
  channel : UInt8
  events : List Event
  deriving DecidableEq

/-- Several tracks that play together. -/
structure Sequence where
  name : String
  /-- Ticks in a quarter note, or the division of a time-code file as it is written. -/
  timeDivision : UInt16
  tracks : List Track
  deriving DecidableEq

namespace Track

/-- A track without events. -/
def empty (channel : UInt8) : Track := ⟨channel, []⟩

/-- The track with a further event at its end. -/
def push (t : Track) (e : Event) : Track :=
  { t with events := t.events ++ [e] }

/-- Orders the events by tick; events of one tick keep their order. -/
def sort (t : Track) : Track :=
  { t with events := t.events.mergeSort fun a b => decide (a.tick ≤ b.tick) }

/-- Moves the track and its channel voice events to `channel`. -/
def onChannel (t : Track) (channel : UInt8) : Track :=
  ⟨channel, t.events.map (Event.onChannel channel)⟩

/-- Whether some event selects `program`. -/
def selectsProgram (t : Track) (program : UInt8) : Bool :=
  t.events.any fun e => e.message = .programChange program

/-- Whether the track is a percussion track. -/
def isPercussion (t : Track) : Bool :=
  t.selectsProgram percussionProgram

/-- Whether the track starts any note. -/
def hasNotes (t : Track) : Bool :=
  t.events.any fun e => e.message.isNoteOn

/-- The number of notes that the track starts. -/
def noteCount (t : Track) : Nat :=
  t.events.countP fun e => e.message.isNoteOn

/-- The largest tick, or zero in a track without events. -/
def duration (t : Track) : Nat :=
  t.events.foldl (fun last e => max last e.tick) 0

/-! ### What moving and sorting keep -/

@[simp] theorem onChannel_channel (t : Track) (c : UInt8) : (t.onChannel c).channel = c := rfl

@[simp] theorem onChannel_onChannel (t : Track) (c d : UInt8) :
    (t.onChannel c).onChannel d = t.onChannel d := by
  simp [onChannel, Function.comp_def]

@[simp] theorem onChannel_selectsProgram (t : Track) (c program : UInt8) :
    (t.onChannel c).selectsProgram program = t.selectsProgram program := by
  simp [onChannel, selectsProgram, Function.comp_def]

@[simp] theorem onChannel_hasNotes (t : Track) (c : UInt8) :
    (t.onChannel c).hasNotes = t.hasNotes := by
  simp [onChannel, hasNotes, Function.comp_def]

@[simp] theorem sort_channel (t : Track) : t.sort.channel = t.channel := rfl

/-- Sorting only reorders. -/
theorem sort_events_perm (t : Track) : t.sort.events.Perm t.events :=
  List.mergeSort_perm _ _

end Track

end DseMidi
