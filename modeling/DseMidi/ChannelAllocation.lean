import DseMidi.Track

/-!
# DseMidi.ChannelAllocation

**Output channels for the tracks of a sequence.**

Percussion tracks share the percussion channel. Every other track takes the next
melodic channel; the counter moves on behind tracks that play notes and skips the
percussion channel. It counts in a byte and goes on past the sixteen channels that
MIDI has, so that the low half of it repeats when there are many tracks.
-/

namespace DseMidi

/-- The melodic channel to use behind a track that took `next`. -/
def nextChannel (next : UInt8) (t : Track) : UInt8 :=
  -- A channel that nothing sounds on can be taken again.
  let next := if t.hasNotes then next + 1 else next
  if next = percussionChannel then next + 1 else next

/-- Gives each track its channel; `next` is the channel of the next melodic one. -/
def allocateChannelsFrom (next : UInt8) : List Track → List Track
  | [] => []
  | t :: rest =>
    if t.isPercussion then
      t.onChannel percussionChannel :: allocateChannelsFrom next rest
    else
      t.onChannel next :: allocateChannelsFrom (nextChannel next t) rest

/-- Gives each track its channel. -/
def allocateChannels (tracks : List Track) : List Track :=
  allocateChannelsFrom 0 tracks

@[simp] theorem length_allocateChannelsFrom (next : UInt8) (tracks : List Track) :
    (allocateChannelsFrom next tracks).length = tracks.length := by
  induction tracks generalizing next with
  | nil => rfl
  | cons t rest ih =>
    unfold allocateChannelsFrom
    split <;> simp [ih]

end DseMidi
