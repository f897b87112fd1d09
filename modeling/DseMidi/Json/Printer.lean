import DseMidi.Json.Value

/-!
# DseMidi.Json.Printer

**The text of a JSON value.**

The two layouts differ only in what stands in front of an item and behind the colon
of a member, so one printer serves both. Text is escaped as little as the format
allows: quotes, backslashes and control characters; all else stands as it is.
-/

namespace DseMidi.Json

/-! ### Strings -/

/-- A character inside a quoted string. -/
def escape (c : Char) : List Char :=
  if c = '"' then ['\\', '"']
  else if c = '\\' then ['\\', '\\']
  else if c = '\x08' then ['\\', 'b']
  else if c = '\x0c' then ['\\', 'f']
  else if c = '\n' then ['\\', 'n']
  else if c = '\r' then ['\\', 'r']
  else if c = '\t' then ['\\', 't']
  else if c.toNat < 0x20 then
    ['\\', 'u', '0', '0', Nat.digitChar (c.toNat / 16), Nat.digitChar (c.toNat % 16)]
  else [c]

/-- A text in quotes. -/
def quoted (text : String) : List Char :=
  '"' :: (text.toList.flatMap escape ++ ['"'])

/-! ### Layouts -/

/-- How the parts of a value are set apart. -/
structure Layout where
  /-- What stands in front of an item or a closing bracket at a depth. -/
  lineBreak : Nat → List Char
  /-- What stands between a key and its value. -/
  colon : List Char

/-- No space anywhere. -/
def Layout.compact : Layout := ⟨fun _ => [], [':']⟩

/-- One item a line, indented by two spaces for each level. -/
def Layout.pretty : Layout := ⟨fun depth => '\n' :: List.replicate (2 * depth) ' ', [':', ' ']⟩

/-! ### Values

Every function puts text in front of a `tail` that is already there. This is what a
reader of the text undoes step by step: it takes a value off the front and leaves the
tail. -/

mutual

/-- The text of a value at a depth, in front of a tail. Empty arrays and objects have no
line breaks. -/
def print (l : Layout) (depth : Nat) : Json → List Char → List Char
  | .nat value, tail => Nat.toDigits 10 value ++ tail
  | .decimal value, tail => value.text ++ tail
  | .string text, tail => quoted text ++ tail
  | .array [], tail => '[' :: ']' :: tail
  | .array (item :: rest), tail =>
    '[' :: (l.lineBreak (depth + 1) ++ print l (depth + 1) item (printItems l depth rest tail))
  | .object [], tail => '\x7b' :: '\x7d' :: tail
  | .object ((key, value) :: rest), tail =>
    '\x7b' :: (l.lineBreak (depth + 1) ++ (quoted key ++ (l.colon ++
      print l (depth + 1) value (printMembers l depth rest tail))))

/-- The items behind the first one of an array, and its end. -/
def printItems (l : Layout) (depth : Nat) : List Json → List Char → List Char
  | [], tail => l.lineBreak depth ++ ']' :: tail
  | item :: rest, tail =>
    ',' :: (l.lineBreak (depth + 1) ++ print l (depth + 1) item (printItems l depth rest tail))

/-- The members behind the first one of an object, and its end. -/
def printMembers (l : Layout) (depth : Nat) : List (String × Json) → List Char → List Char
  | [], tail => l.lineBreak depth ++ '\x7d' :: tail
  | (key, value) :: rest, tail =>
    ',' :: (l.lineBreak (depth + 1) ++ (quoted key ++ (l.colon ++
      print l (depth + 1) value (printMembers l depth rest tail))))

end

/-- The text of a whole value in a layout. -/
def text (l : Layout) (j : Json) : String :=
  String.ofList (print l 0 j [])

end DseMidi.Json
