import DseMidi.Bytes

/-!
# DseMidi.Smf.TimeCode

**Time code in MIDI files.** Time code counts frames at one of four rates. A file can
divide its time by it instead of by quarter notes, and a track can say at which time
code it starts.
-/

namespace DseMidi.Smf

/-- The frame rates of time code, in the order of their numbers. -/
def frameRates : List Nat := [24, 25, 29, 30]

/-- Whether a division with this high byte can be used: any number of ticks in a quarter
note below `0x8000`, else a known frame rate, which stands negated in the high byte. -/
def isDivision (high : UInt8) : Bool :=
  high < 0x80 || (256 - high.toNat) ∈ frameRates

/-- The data of a SMPTE offset: hours with the number of the frame rate above them,
minutes, seconds, frames and hundredths. The top bit of the first byte is dropped; values
out of range make the offset unusable. -/
def smpteOffset? (hours minutes seconds frames hundredths : UInt8) : Option Bytes :=
  let rate := hours.toNat / 32 % 4
  -- A rate number has two bits, so that it always stands for a rate.
  if hours.toNat % 32 < 24 ∧ minutes < 60 ∧ seconds < 60 ∧
      frames.toNat < frameRates.getD rate 0 ∧ hundredths < 100 then
    some [hours &&& 0x7F, minutes, seconds, frames, hundredths]
  else none

end DseMidi.Smf
