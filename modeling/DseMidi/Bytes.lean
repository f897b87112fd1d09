/-!
# DseMidi.Bytes

**Byte strings and the numbers they spell.**

Both file formats of this library are sequences of bytes in which numbers stand
most significant byte first; a few operands stand the other way round. A byte
string is a plain `List UInt8`, so that "the bytes from here on" is a tail of the
list and a reader needs no position of its own. Numbers read from bytes are
natural numbers: nothing wraps before a format says that it does.

* `beNat` and `beBytes` are the two directions of the big-endian form; `beBytes` keeps
  a number up to its width.
* `splitExact` takes a fixed number of bytes or nothing at all;
  `splitExact_eq_some_iff` is its exact meaning.
* `hexByte` and `hexDigits` are the upper-case hexadecimal forms used by
  diagnostics and by the text of verbatim instructions.
-/

namespace DseMidi

/-- A byte string. -/
abbrev Bytes := List UInt8

/-- What holds of every byte can be found out by going through them. -/
@[elab_as_elim]
theorem forall_byte {motive : UInt8 → Prop} (h : ∀ n : Fin 256, motive (.ofFin n)) (b : UInt8) :
    motive b :=
  h b.toFin

/-! ### Numbers -/

/-- The number that `bytes` spell, most significant byte first. -/
def beNat (bytes : Bytes) : Nat :=
  bytes.foldl (fun n b => n * 256 + b.toNat) 0

/-- The number that `bytes` spell, least significant byte first. -/
def leNat (bytes : Bytes) : Nat :=
  beNat bytes.reverse

/-- The low `width` bytes of `n`, most significant byte first. -/
def beBytes : Nat → Nat → Bytes
  | 0, _ => []
  | width + 1, n => beBytes width (n / 256) ++ [UInt8.ofNat n]

@[simp] theorem beNat_nil : beNat [] = 0 := rfl

/-- A further byte at the end scales what stands before it by 256. -/
theorem beNat_concat (bytes : Bytes) (b : UInt8) :
    beNat (bytes ++ [b]) = beNat bytes * 256 + b.toNat := by
  simp [beNat]

@[simp] theorem length_beBytes (width n : Nat) : (beBytes width n).length = width := by
  induction width generalizing n with
  | zero => rfl
  | succ width ih => simp [beBytes, ih]

/-! ### Fixed-size pieces -/

/-- The first `n` bytes and the rest, if there are that many. -/
def splitExact : Nat → Bytes → Option (Bytes × Bytes)
  | 0, bytes => some ([], bytes)
  | _ + 1, [] => none
  | n + 1, b :: bytes => (splitExact n bytes).map fun (taken, rest) => (b :: taken, rest)

/-- Taking `n` bytes cuts the input in two and loses nothing. -/
theorem splitExact_eq_some_iff {n : Nat} {bytes taken rest : Bytes} :
    splitExact n bytes = some (taken, rest) ↔ bytes = taken ++ rest ∧ taken.length = n := by
  induction n generalizing bytes taken with
  | zero =>
    cases taken <;> simp [splitExact, eq_comm]
  | succ n ih =>
    cases bytes with
    | nil => cases taken <;> simp [splitExact]
    | cons b bytes =>
      cases taken with
      | nil => simp [splitExact]
      | cons t taken =>
        simp only [splitExact, Option.map_eq_some_iff, Prod.mk.injEq, List.cons.injEq,
          List.cons_append, List.length_cons, Nat.add_right_cancel_iff, Prod.exists]
        constructor
        · rintro ⟨a, r, h, ⟨rfl, rfl⟩, rfl⟩
          obtain ⟨rfl, rfl⟩ := ih.1 h
          simp
        · rintro ⟨⟨rfl, rfl⟩, rfl⟩
          exact ⟨taken, rest, ih.2 ⟨rfl, rfl⟩, by simp⟩

/-! ### Hexadecimal text -/

/-- The upper-case hexadecimal digits of `n`, without leading zeros. -/
def hexDigits (n : Nat) : List Char :=
  (Nat.toDigits 16 n).map Char.toUpper

/-- The two upper-case hexadecimal digits of a byte. -/
def hexByte (b : UInt8) : List Char :=
  [(Nat.digitChar (b.toNat / 16)).toUpper, (Nat.digitChar (b.toNat % 16)).toUpper]

/-! ### Text as bytes -/

/-- The bytes of ASCII text, one for each character. -/
def asciiBytes (text : List Char) : Bytes :=
  text.map Char.toUInt8

/-- The UTF-8 bytes of a text. -/
def utf8Bytes (text : String) : Bytes :=
  text.toList.flatMap String.utf8EncodeChar

end DseMidi
