import DseMidi.Bytes

/-!
# DseMidi.Text.Utf8

**Reading text that may not be valid UTF-8.**

`decodeLossy` never fails: each longest piece that starts a character but cannot be
completed, and each byte that cannot start one, becomes one replacement character. It
goes through the bytes one by one with the character in the making as its only
memory; that a second byte may be restricted further than the others is what keeps
overlong forms, surrogates and numbers past the last code point out.
-/

namespace DseMidi.Utf8

/-- What stands for a piece that is not UTF-8. -/
def replacement : Char := '\uFFFD'

/-- A character in the making. -/
structure Pending where
  /-- The bits so far. -/
  code : Nat
  /-- The number of bytes that are still owed. -/
  owed : Nat
  /-- The least byte that can come next. -/
  least : UInt8
  /-- The greatest byte that can come next. -/
  greatest : UInt8

/-- What a byte at the start of a character gives: the characters that are complete
with it, and the character that it starts. -/
def begin (b : UInt8) : List Char × Option Pending :=
  let n := b.toNat
  if n < 0x80 then ([Char.ofNat n], none)
  else if n < 0xC2 then ([replacement], none)
  else if n < 0xE0 then ([], some ⟨n - 0xC0, 1, 0x80, 0xBF⟩)
  else if n = 0xE0 then ([], some ⟨0x0, 2, 0xA0, 0xBF⟩)
  else if n = 0xED then ([], some ⟨0xD, 2, 0x80, 0x9F⟩)
  else if n < 0xF0 then ([], some ⟨n - 0xE0, 2, 0x80, 0xBF⟩)
  else if n = 0xF0 then ([], some ⟨0x0, 3, 0x90, 0xBF⟩)
  else if n < 0xF4 then ([], some ⟨n - 0xF0, 3, 0x80, 0xBF⟩)
  else if n = 0xF4 then ([], some ⟨0x4, 3, 0x80, 0x8F⟩)
  else ([replacement], none)

/-- What a byte gives behind an unfinished character, if there is one. A byte that
does not continue it gives it up and is taken as a start. -/
def step : Option Pending → UInt8 → List Char × Option Pending
  | none, b => begin b
  | some p, b =>
    if p.least ≤ b && b ≤ p.greatest then
      let code := p.code * 64 + b.toNat % 64
      if p.owed = 1 then ([Char.ofNat code], none)
      else ([], some ⟨code, p.owed - 1, 0x80, 0xBF⟩)
    else
      let (chars, pending) := begin b
      (replacement :: chars, pending)

/-- The characters of bytes behind an unfinished character, if there is one. -/
def decodeFrom : Option Pending → Bytes → List Char
  | none, [] => []
  | some _, [] => [replacement]
  | pending, b :: rest => (step pending b).1 ++ decodeFrom (step pending b).2 rest

/-- The text of any bytes. -/
def decodeLossy (bytes : Bytes) : String :=
  String.ofList (decodeFrom none bytes)

end DseMidi.Utf8
