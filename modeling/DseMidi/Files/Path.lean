/-!
# DseMidi.Files.Path

**Paths as they are written.** A path is names separated by slashes; repeated slashes
count once. What the names mean is the file system's business; here a path is only
taken apart, and the extension of its file name exchanged.
-/

namespace DseMidi

/-- A path taken apart. -/
structure Path where
  /-- Whether the path starts at the root and not at the working directory. -/
  absolute : Bool
  /-- The non-empty names, `.` and `..` included. -/
  names : List (List Char)
  /-- Whether a slash stands at the end, so that only a directory can be meant. -/
  trailingSlash : Bool

namespace Path

/-- Text cut at every slash, empty pieces included. -/
def splitSlashes (text : List Char) : List (List Char) :=
  text.foldr
    (fun c pieces =>
      if c = '/' then [] :: pieces
      else match pieces with
        | [] => [[c]]
        | piece :: rest => (c :: piece) :: rest)
    [[]]

/-- Takes a path apart. -/
def ofString (text : String) : Path :=
  let chars := text.toList
  { absolute := chars.head? = some '/'
    names := (splitSlashes chars).filter (!·.isEmpty)
    trailingSlash := chars.getLast? = some '/' }

/-! ### Extensions -/

/-- A reversed path without the slashes at its end, and without names `.` there. -/
def dropTrailing : List Char → List Char
  | '/' :: rest => dropTrailing rest
  | '.' :: '/' :: rest => dropTrailing rest
  | chars => chars

/-- A reversed file name without its extension. A dot at the start of a name starts no
extension. -/
def dropExtension (name : List Char) : List Char :=
  match name.dropWhile (· ≠ '.') with
  | '.' :: stem => if stem.isEmpty then name else stem
  | _ => name

/-- The path with `extension` in place of its file name's extension, or behind it if
there is none. A path that ends in no file name stays as it is. The old extension goes
first and its dot after it; if two dots are all that is left in between, the path has
come to name a directory and gets no extension any more. -/
def withExtension (path extension : String) : String :=
  let chars := dropTrailing path.toList.reverse
  let name := chars.takeWhile (· ≠ '/')
  if name = [] ∨ name = ['.'] ∨ name = ['.', '.'] then path
  else
    let directory := (chars.dropWhile (· ≠ '/')).reverse
    match dropExtension name with
    | ['.'] => String.ofList (directory ++ ['.', '.'])
    | stem => String.ofList (directory ++ stem.reverse) ++ "." ++ extension

end Path

end DseMidi
