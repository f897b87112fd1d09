import DseMidi.Fault

/-!
# DseMidi.Cursor

**Reading at positions.** `peek` looks at a stretch of a file and `Cursor` is a file
with a current position that reads move forward.

A stretch that does not lie inside the file is a `truncated` fault whose offset is
the first missing byte, or the start of the stretch if that is already past the
end. A stretch that would end beyond the 64-bit range is reported at its start.
-/

namespace DseMidi

/-! ### Looking -/

/-- The `len` bytes at `offset`. -/
def peek (data : Bytes) (offset len : Nat) : Except Fault Bytes :=
  if Nat.pow 2 64 ≤ offset + len then .error (.truncated offset data.length)
  else if offset + len ≤ data.length then .ok ((data.drop offset).take len)
  else .error (.truncated (max offset data.length) data.length)

/-- The number in the `width` bytes at `offset`, most significant byte first. -/
def peekNat (data : Bytes) (offset width : Nat) : Except Fault Nat :=
  (peek data offset width).map beNat

/-- What `peek` returns has the length that was asked for. -/
theorem length_of_peek {data bytes : Bytes} {offset len : Nat}
    (h : peek data offset len = .ok bytes) : bytes.length = len := by
  unfold peek at h
  split at h
  · cases h
  split at h
  · next inside =>
    obtain rfl := Except.ok.inj h
    rw [List.length_take, List.length_drop]
    omega
  · cases h

/-! ### Reading -/

/-- A file and the position of the next read. The position may be anywhere, also
past the end; reads there fail. -/
structure Cursor where
  data : Bytes
  position : Nat

namespace Cursor

/-- The cursor at the start of a file. -/
def start (data : Bytes) : Cursor := ⟨data, 0⟩

/-- The cursor at another position. -/
def seek (c : Cursor) (position : Nat) : Cursor := { c with position }

/-- The next `len` bytes, and the cursor behind them. -/
def read (c : Cursor) (len : Nat) : Except Fault (Bytes × Cursor) :=
  (peek c.data c.position len).map fun bytes => (bytes, c.seek (c.position + len))

/-- The next byte. -/
def readByte (c : Cursor) : Except Fault (UInt8 × Cursor) :=
  (c.read 1).map fun (bytes, c) => (UInt8.ofNat (beNat bytes), c)

/-- The next byte, as a signed number. -/
def readInt8 (c : Cursor) : Except Fault (Int8 × Cursor) :=
  c.readByte.map fun (b, c) => (b.toInt8, c)

/-- The next two bytes, least significant first. -/
def readWordLE (c : Cursor) : Except Fault (UInt16 × Cursor) :=
  (c.read 2).map fun (bytes, c) => (UInt16.ofNat (leNat bytes), c)

/-- The next two bytes, most significant first. -/
def readWordBE (c : Cursor) : Except Fault (UInt16 × Cursor) :=
  (c.read 2).map fun (bytes, c) => (UInt16.ofNat (beNat bytes), c)

end Cursor

end DseMidi
