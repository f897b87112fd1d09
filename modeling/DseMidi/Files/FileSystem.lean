import DseMidi.Files.Access
import DseMidi.Files.Path

/-!
# DseMidi.Files.FileSystem

**A file system as a value**: a map from locations to files and directories, with a
working directory.

A location is the list of names that leads from the root to a place; `lookup` is the
view in which everything is stated. A path is followed name by name: every name but the
last must lead to a directory, `.` stays and `..` goes up. Reading and writing then look
at the place that the last name leads to. Names and paths have a greatest length, which
is only noticed where they are looked up.
-/

namespace DseMidi

/-- The names from the root to a place. -/
abbrev Location := List (List Char)

/-- What is at a place. -/
inductive Node
  | file (data : Bytes)
  | directory
  deriving DecidableEq

/-- Files and directories at their locations. -/
structure FileSystem where
  entries : List (Location × Node)
  workingDirectory : Location

namespace FileSystem

/-! ### The map -/

/-- What is at a location. The root is always a directory. -/
def lookup (fs : FileSystem) (location : Location) : Option Node :=
  if location = [] then some .directory else fs.entries.lookup location

/-- The file system with `node` at a location, whatever was there. -/
def put (fs : FileSystem) (location : Location) (node : Node) : FileSystem :=
  { fs with entries := (location, node) :: fs.entries.filter (·.1 ≠ location) }

/-- What was put at a location is there. -/
theorem lookup_put_self (fs : FileSystem) {location : Location} (node : Node)
    (h : location ≠ []) : (fs.put location node).lookup location = some node := by
  simp [lookup, put, h]

/-- Nothing changes at other locations. -/
theorem lookup_put_of_ne (fs : FileSystem) {location other : Location} (node : Node)
    (h : other ≠ location) : (fs.put location node).lookup other = fs.lookup other := by
  unfold lookup put
  split
  · rfl
  · -- Leaving out the entries of one location hides none of another.
    have kept : ∀ entries : List (Location × Node),
        (entries.filter (·.1 ≠ location)).lookup other = entries.lookup other := by
      intro entries
      induction entries with
      | nil => rfl
      | cons entry entries ih =>
        by_cases same : entry.1 = location
        · rw [List.filter_cons_of_neg (by simpa using same), ih, List.lookup_cons]
          have : (other == entry.1) = false := by simpa [same] using h
          simp [this]
        · rw [List.filter_cons_of_pos (by simpa using same), List.lookup_cons,
            List.lookup_cons, ih]
    rw [List.lookup_cons, kept]
    have : (other == location) = false := by simpa using h
    simp [this]

/-! ### Following paths -/

/-- The most bytes in a name. -/
def nameLimit : Nat := 255

/-- The most bytes in a path. -/
def pathLimit : Nat := 4095

/-- Looks for what is at a location, which fails if its name cannot be a name. -/
def find (fs : FileSystem) (location : Location) : Except FileFault (Option Node) :=
  if nameLimit < (String.ofList (location.getLast?.getD [])).utf8ByteSize then
    .error .nameTooLong
  else .ok (fs.lookup location)

/-- Goes from one directory to another by names, each of which must lead to a
directory. -/
def walk (fs : FileSystem) (location : Location) : List (List Char) → Except FileFault Location
  | [] => .ok location
  | name :: rest =>
    if name = ['.'] then fs.walk location rest
    else if name = ['.', '.'] then fs.walk location.dropLast rest
    else
      match fs.find (location ++ [name]) with
      | .error fault => .error fault
      | .ok none => .error .notFound
      -- Only the last name of a path may be a file, and that one is not walked.
      | .ok (some (.file _)) => .error .notDirectory
      | .ok (some .directory) => fs.walk (location ++ [name]) rest

/-- The location that a path leads to. All of the way to it exists; the place itself
need not, unless the path can only mean a directory: that is then a fault of its own. -/
def resolve (fs : FileSystem) (path : Path) : Except FileFault Location :=
  match path.names.reverse with
  | [] => if path.absolute then .error .isDirectory else .error .notFound
  | last :: way =>
    (fs.walk (if path.absolute then [] else fs.workingDirectory) way.reverse).bind
      fun directory =>
        if last = ['.'] ∨ last = ['.', '.'] then .error .isDirectory
        else .ok (directory ++ [last])

/-- The location that a path leads to as it is written. -/
def locate (fs : FileSystem) (path : String) : Except FileFault Location :=
  if '\x00' ∈ path.toList then .error .zeroInPath
  else if pathLimit < path.utf8ByteSize then .error .nameTooLong
  else fs.resolve (Path.ofString path)

/-! ### Reading and writing -/

/-- The contents of the file at a path. -/
def read (fs : FileSystem) (path : String) : Except FileFault Bytes :=
  (fs.locate path).bind fun location =>
    (fs.find location).bind fun
      | some (.file data) =>
        if (Path.ofString path).trailingSlash then .error .notDirectory else .ok data
      | some .directory => .error .isDirectory
      | none => .error .notFound

/-- The file system with a file at a path. Only the file itself is created, none of the
directories on the way. -/
def write (fs : FileSystem) (path : String) (data : Bytes) : Except FileFault FileSystem :=
  (fs.locate path).bind fun location =>
    if (Path.ofString path).trailingSlash then .error .isDirectory
    else (fs.find location).bind fun
      | some .directory => .error .isDirectory
      | _ => .ok (fs.put location (.file data))

/-- Programs can run on a file system that they carry along. A failed write leaves it
as it was. -/
instance : FileAccess (StateM FileSystem) where
  readFile path := do
    let fs ← get
    return fs.read path
  writeFile path data := do
    let fs ← get
    match fs.write path data with
    | .ok fs =>
      set fs
      return .ok ()
    | .error fault => return .error fault

/-! ### Setting up and comparing -/

/-- The file system with a directory at a location and all those above it. -/
def makeDirectories (fs : FileSystem) (location : Location) : FileSystem :=
  (List.range location.length).foldl
    (fun fs depth => fs.put (location.take (depth + 1)) .directory) fs

/-- The file system whose working directory holds the given files and empty
directories, and the directories that they need. -/
def ofFiles (workingDirectory : Location) (files : List (String × Option Bytes)) : FileSystem :=
  files.foldl
    (fun fs (path, contents) =>
      let location := workingDirectory ++ (Path.ofString path).names
      match contents with
      | some data => (fs.makeDirectories location.dropLast).put location (.file data)
      | none => fs.makeDirectories location)
    (makeDirectories ⟨[], workingDirectory⟩ workingDirectory)

/-- A place below the working directory as a path from there. -/
def relativePath? (fs : FileSystem) (location : Location) : Option String :=
  if fs.workingDirectory.isPrefixOf location then
    some ("/".intercalate ((location.drop fs.workingDirectory.length).map String.ofList))
  else none

/-- The files below the working directory that are new or changed since `before`. -/
def changedFiles (fs before : FileSystem) : List (String × Bytes) :=
  fs.entries.filterMap fun (location, node) =>
    match node with
    | .file data =>
      if before.lookup location = some node then none
      else (fs.relativePath? location).map fun path => (path, data)
    | .directory => none

end FileSystem

end DseMidi
