import DseMidi.Fault

/-!
# DseMidi.Quantity

**Variable-length quantities**: numbers as groups of seven bits, most significant
group first, with bit 7 set on every byte but the last.

`encode` gives the fewest groups, and `write` puts them behind what is in a buffer
already. `decode` reads one quantity out of a longer byte string and keeps the low
64 bits of what it reads; it accepts any number of leading zero groups, so it reads
more than `encode` gives.
-/

namespace DseMidi.Quantity

/-- One past the largest value of a 64-bit quantity. -/
def modulus : Nat := Nat.pow 2 64

/-! ### Writing -/

/-- The groups in front of the last one, all marked as continued. -/
def leadingGroups (n : Nat) : Bytes :=
  if n = 0 then [] else leadingGroups (n / 128) ++ [UInt8.ofNat (n % 128 + 128)]
termination_by n
decreasing_by omega

/-- The shortest variable-length form of `n`. -/
def encode (n : Nat) : Bytes :=
  leadingGroups (n / 128) ++ [UInt8.ofNat (n % 128)]

@[simp] theorem leadingGroups_zero : leadingGroups 0 = [] := by
  simp [leadingGroups]

/-- Splitting off the last continued group. -/
theorem leadingGroups_of_pos {n : Nat} (h : 0 < n) :
    leadingGroups n = leadingGroups (n / 128) ++ [UInt8.ofNat (n % 128 + 128)] := by
  rw [leadingGroups, if_neg (by omega)]

theorem encode_ne_nil (n : Nat) : encode n ≠ [] := by
  simp [encode]

/-- The groups of `n`, least significant group first. There is at least one. -/
def collectGroups (n : Nat) : Bytes :=
  UInt8.ofNat (n % 128) :: if n / 128 = 0 then [] else collectGroups (n / 128)
termination_by n
decreasing_by omega

/-- Appends `n` to a buffer. The groups are collected first, and put out from the last
one back, all marked as continued but the one that was collected first. -/
def write (buffer : Bytes) (n : Nat) : Bytes :=
  (collectGroups n).zipIdx.foldr
    (fun (group, i) buffer => buffer ++ [group ||| if i = 0 then 0 else 0x80]) buffer

/-! ### Reading -/

/-- Reads groups after those that gave `value`: the completed value and the
number of bytes read, unless the bytes end before a group that closes it. -/
def readGroups (value : Nat) : Bytes → Option (Nat × Nat)
  | [] => none
  | b :: rest =>
    let value := (value * 128 + b.toNat % 128) % modulus
    if b < 0x80 then some (value, 1)
    else (readGroups value rest).map fun (result, count) => (result, count + 1)

/-- The quantity that starts at `offset` and the number of bytes it takes up. -/
def decode (bytes : Bytes) (offset : Nat) : Except Fault (Nat × Nat) :=
  match readGroups 0 (bytes.drop offset) with
  | some result => .ok result
  | none => .error (.unterminatedQuantity offset)

end DseMidi.Quantity
