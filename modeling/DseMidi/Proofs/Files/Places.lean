import DseMidi.Files.FileSystem

/-!
# DseMidi.Proofs.Files.Places

**What following a path looks at.** Where a path leads to is decided by its names and the working
directory alone: `place` is that location and `footprint` are all locations on the way to it, both
ends included. What is at these locations decides everything else, so that file systems that
agree there answer alike (`read_congr`, `target_congr`).

Writing changes one location, the place of the path, and what was written is read there
(`written_put`). A path does not notice what is written to another if the place of that one is not
in its footprint; paths that are written and never noticed in this way are keys of a map
(`IsMapFor`). Names of files in the working directory are (`isMapFor_of_isFileName`).
-/

namespace DseMidi.FileSystem

/-! ### Places -/

/-- The location that a name leads to, whatever is there. -/
def enter (location : Location) (name : List Char) : Location :=
  if name = ['.'] then location
  else if name = ['.', '.'] then location.dropLast
  else location ++ [name]

/-- A location and those that names lead to from there, one after the other. -/
def trail (location : Location) : List (List Char) → List Location
  | [] => [location]
  | name :: rest => location :: trail (enter location name) rest

/-- Where following a path starts. -/
def start (fs : FileSystem) (path : Path) : Location :=
  if path.absolute then [] else fs.workingDirectory

/-- The location that a path leads to, whatever is there. -/
def place (fs : FileSystem) (path : String) : Location :=
  (Path.ofString path).names.foldl enter (fs.start (Path.ofString path))

/-- The locations that lie on a path, from where it starts to where it leads. -/
def footprint (fs : FileSystem) (path : String) : List Location :=
  trail (fs.start (Path.ofString path)) (Path.ofString path).names

/-- Seen from these paths the file system is a map: a path that is written is a key of its own,
and following another path does not lead by it. -/
def IsMapFor (fs : FileSystem) (written paths : List String) : Prop :=
  ∀ p ∈ written, ∀ q ∈ paths, p ≠ q → fs.place p ∉ fs.footprint q

theorem trail_concat (location : Location) (way : List (List Char)) (last : List Char) :
    trail location (way ++ [last]) =
      trail location way ++ [enter (way.foldl enter location) last] := by
  induction way generalizing location with
  | nil => rfl
  | cons name rest ih => rw [List.cons_append, trail, ih, trail, List.cons_append, List.foldl_cons]

theorem mem_trail_self (location : Location) (names : List (List Char)) :
    location ∈ trail location names := by
  cases names <;> exact List.mem_cons_self

theorem foldl_enter_mem_trail (location : Location) (names : List (List Char)) :
    names.foldl enter location ∈ trail location names := by
  induction names generalizing location with
  | nil => exact List.mem_cons_self
  | cons name rest ih => exact List.mem_cons_of_mem _ (ih _)

theorem place_mem_footprint (fs : FileSystem) (path : String) :
    fs.place path ∈ fs.footprint path :=
  foldl_enter_mem_trail _ _

theorem enter_of_ne {name : List Char} (h : ¬ (name = ['.'] ∨ name = ['.', '.']))
    (location : Location) : enter location name = location ++ [name] := by
  obtain ⟨hdot, hdots⟩ := not_or.mp h
  rw [enter, if_neg hdot, if_neg hdots]

@[simp] theorem workingDirectory_put (fs : FileSystem) (location : Location) (node : Node) :
    (fs.put location node).workingDirectory = fs.workingDirectory := rfl

theorem lookup_put_congr (fs fs' : FileSystem) (location : Location) (node : Node) :
    (fs.put location node).lookup location = (fs'.put location node).lookup location := by
  by_cases h : location = []
  · rw [lookup, lookup, if_pos h, if_pos h]
  · rw [fs.lookup_put_self node h, fs'.lookup_put_self node h]

theorem start_congr {fs fs' : FileSystem} (h : fs'.workingDirectory = fs.workingDirectory)
    (path : Path) : fs'.start path = fs.start path := by
  rw [start, start, h]

theorem place_congr {fs fs' : FileSystem} (h : fs'.workingDirectory = fs.workingDirectory)
    (path : String) : fs'.place path = fs.place path := by
  rw [place, place, start_congr h]

/-! ### Following paths -/

theorem find_congr {fs fs' : FileSystem} {location : Location}
    (h : fs'.lookup location = fs.lookup location) : fs'.find location = fs.find location := by
  rw [find, find, h]

/-- Only the length of its name decides whether a location can be looked at. -/
theorem find_of_find {fs : FileSystem} {location : Location} {node : Option Node}
    (h : fs.find location = .ok node) (fs' : FileSystem) :
    fs'.find location = .ok (fs'.lookup location) := by
  rw [find] at h ⊢
  split at h
  · cases h
  · next hlimit => rw [if_neg hlimit]

theorem lookup_of_find {fs : FileSystem} {location : Location} {node : Option Node}
    (h : fs.find location = .ok node) : fs.lookup location = node :=
  Except.ok.inj ((find_of_find h fs).symm.trans h)

/-- One step of a way leads where its name says, and looks there unless it stays or goes up. -/
theorem walk_cons (fs : FileSystem) (location : Location) (name : List Char)
    (rest : List (List Char)) :
    fs.walk location (name :: rest) =
      if name = ['.'] ∨ name = ['.', '.'] then fs.walk (enter location name) rest
      else
        match fs.find (enter location name) with
        | .error fault => .error fault
        | .ok none => .error .notFound
        | .ok (some (.file _)) => .error .notDirectory
        | .ok (some .directory) => fs.walk (enter location name) rest := by
  rw [walk]
  by_cases hdots : name = ['.'] ∨ name = ['.', '.']
  · rw [if_pos hdots]
    rcases hdots with rfl | rfl
    · rfl
    · rfl
  · rw [if_neg hdots, enter_of_ne hdots]
    exact (if_neg (not_or.mp hdots).1).trans (if_neg (not_or.mp hdots).2)

theorem walk_cons_eq_ok_iff {fs : FileSystem} {location directory : Location} {name : List Char}
    {rest : List (List Char)} :
    fs.walk location (name :: rest) = .ok directory ↔
      ((name = ['.'] ∨ name = ['.', '.']) ∨
          fs.find (enter location name) = .ok (some .directory)) ∧
        fs.walk (enter location name) rest = .ok directory := by
  rw [walk_cons]
  by_cases hdots : name = ['.'] ∨ name = ['.', '.']
  · rw [if_pos hdots]
    exact (and_iff_right (.inl hdots)).symm
  · rw [if_neg hdots, or_iff_right hdots]
    split
    · next hfind => simp [hfind]
    · next hfind => simp [hfind]
    · next hfind => simp [hfind]
    · next hfind => exact (and_iff_right hfind).symm

/-- The way to a directory leads where its names say. -/
theorem walk_inv {fs : FileSystem} {names : List (List Char)} {location directory : Location}
    (h : fs.walk location names = .ok directory) : directory = names.foldl enter location := by
  induction names generalizing location with
  | nil => exact (Except.ok.inj h).symm
  | cons name rest ih => exact ih (walk_cons_eq_ok_iff.mp h).2

theorem walk_congr {fs fs' : FileSystem} {names : List (List Char)} {location : Location}
    (h : ∀ l ∈ trail location names, fs'.lookup l = fs.lookup l) :
    fs'.walk location names = fs.walk location names := by
  induction names generalizing location with
  | nil => rfl
  | cons name rest ih =>
    obtain ⟨-, hrest⟩ := List.forall_mem_cons.mp h
    have hhere := hrest _ (mem_trail_self _ rest)
    rw [walk_cons, walk_cons, find_congr hhere, ih hrest]

/-- A file that is put where no directory was blocks no way. -/
theorem walk_put {fs : FileSystem} {names : List (List Char)} {location directory file : Location}
    (h : fs.walk location names = .ok directory) (hfile : fs.lookup file ≠ some .directory)
    (node : Node) : (fs.put file node).walk location names = .ok directory := by
  induction names generalizing location with
  | nil => exact h
  | cons name rest ih =>
    obtain ⟨hstep, hrest⟩ := walk_cons_eq_ok_iff.mp h
    refine walk_cons_eq_ok_iff.mpr ⟨hstep.imp_right ?_, ih hrest⟩
    intro hfind
    have hne : enter location name ≠ file := by
      rintro rfl
      exact hfile (lookup_of_find hfind)
    rw [find_congr (fs.lookup_put_of_ne node hne), hfind]

/-! ### Whole paths -/

theorem resolve_of_names_eq_nil {path : Path} (h : path.names = []) (fs : FileSystem) :
    fs.resolve path = if path.absolute then .error .isDirectory else .error .notFound := by
  rw [resolve, h]
  rfl

theorem resolve_of_names_eq_concat {path : Path} {way : List (List Char)} {last : List Char}
    (h : path.names = way ++ [last]) (fs : FileSystem) :
    fs.resolve path = (fs.walk (fs.start path) way).bind fun directory =>
      if last = ['.'] ∨ last = ['.', '.'] then .error .isDirectory
      else .ok (directory ++ [last]) := by
  rw [resolve, h, List.reverse_concat]
  dsimp only
  rw [List.reverse_reverse]
  rfl

theorem resolve_congr {fs fs' : FileSystem} {path : Path}
    (hdirectory : fs'.workingDirectory = fs.workingDirectory)
    (h : ∀ l ∈ trail (fs.start path) path.names, fs'.lookup l = fs.lookup l) :
    fs'.resolve path = fs.resolve path := by
  rcases List.eq_nil_or_concat path.names with hnames | ⟨way, last, hnames⟩
  · rw [resolve_of_names_eq_nil hnames, resolve_of_names_eq_nil hnames]
  · rw [List.concat_eq_append] at hnames
    rw [hnames, trail_concat] at h
    have hway : fs'.walk (fs.start path) way = fs.walk (fs.start path) way :=
      walk_congr fun l hl => h l (List.mem_append_left _ hl)
    rw [resolve_of_names_eq_concat hnames, resolve_of_names_eq_concat hnames,
      start_congr hdirectory, hway]

theorem locate_congr {fs fs' : FileSystem} {path : String}
    (hdirectory : fs'.workingDirectory = fs.workingDirectory)
    (h : ∀ l ∈ fs.footprint path, fs'.lookup l = fs.lookup l) :
    fs'.locate path = fs.locate path := by
  rw [locate, locate, resolve_congr hdirectory h]

/-- What is wrong with a path as it is written does not depend on the file system. -/
theorem locate_of_locate {fs : FileSystem} {path : String} {location : Location}
    (h : fs.locate path = .ok location) (fs' : FileSystem) :
    fs'.locate path = fs'.resolve (Path.ofString path) := by
  rw [locate] at h ⊢
  split at h
  · cases h
  split at h
  · cases h
  · next hzero hlimit => rw [if_neg hzero, if_neg hlimit]

/-- A path that can be followed consists of a way of directories and of a name behind it. -/
theorem locate_inv {fs : FileSystem} {path : String} {location : Location}
    (h : fs.locate path = .ok location) :
    ∃ way last, (Path.ofString path).names = way ++ [last] ∧
      fs.walk (fs.start (Path.ofString path)) way = .ok location.dropLast ∧
      location = location.dropLast ++ [last] ∧ ¬ (last = ['.'] ∨ last = ['.', '.']) := by
  rw [locate_of_locate h fs] at h
  rcases List.eq_nil_or_concat (Path.ofString path).names with hnames | ⟨way, last, hnames⟩
  · rw [resolve_of_names_eq_nil hnames] at h
    split at h
    · cases h
    · cases h
  · rw [List.concat_eq_append] at hnames
    rw [resolve_of_names_eq_concat hnames] at h
    cases hwalk : fs.walk (fs.start (Path.ofString path)) way with
    | error fault =>
      rw [hwalk] at h
      cases h
    | ok directory =>
      rw [hwalk, Except.bind] at h
      split at h
      · cases h
      · next hname =>
        cases h
        refine ⟨way, last, hnames, ?_, ?_, hname⟩
        · rw [List.dropLast_concat]
          exact hwalk
        · rw [List.dropLast_concat]

theorem place_of_locate {fs : FileSystem} {path : String} {location : Location}
    (h : fs.locate path = .ok location) : location = fs.place path := by
  obtain ⟨way, last, hnames, hwalk, hlocation, hname⟩ := locate_inv h
  rw [place, hnames, List.foldl_append, List.foldl_cons, List.foldl_nil, enter_of_ne hname,
    ← walk_inv hwalk]
  exact hlocation

theorem mem_footprint_of_locate {fs : FileSystem} {path : String} {location : Location}
    (h : fs.locate path = .ok location) : location ∈ fs.footprint path := by
  rw [place_of_locate h]
  exact fs.place_mem_footprint path

/-! ### Reading and writing -/

/-- The location that a file is written to, if it can be. -/
def target (fs : FileSystem) (path : String) : Except FileFault Location :=
  (fs.locate path).bind fun location =>
    if (Path.ofString path).trailingSlash then .error .isDirectory
    else (fs.find location).bind fun
      | some .directory => .error .isDirectory
      | _ => .ok location

theorem write_eq (fs : FileSystem) (path : String) (data : Bytes) :
    fs.write path data = (fs.target path).map fun location => fs.put location (.file data) := by
  rw [write, target]
  cases fs.locate path with
  | error fault => rfl
  | ok location =>
    simp only [Except.bind]
    split
    · rfl
    · cases fs.find location with
      | error fault => rfl
      | ok node =>
        cases node with
        | none => rfl
        | some node => cases node <;> rfl

theorem locate_bind_congr {α : Type} {fs fs' : FileSystem} {path : String}
    {next next' : Location → Except FileFault α}
    (hdirectory : fs'.workingDirectory = fs.workingDirectory)
    (h : ∀ l ∈ fs.footprint path, fs'.lookup l = fs.lookup l)
    (hnext : ∀ l ∈ fs.footprint path, next' l = next l) :
    (fs'.locate path).bind next' = (fs.locate path).bind next := by
  rw [locate_congr hdirectory h]
  cases hlocate : fs.locate path with
  | error fault => rfl
  | ok location => exact hnext location (mem_footprint_of_locate hlocate)

theorem read_congr {fs fs' : FileSystem} {path : String}
    (hdirectory : fs'.workingDirectory = fs.workingDirectory)
    (h : ∀ l ∈ fs.footprint path, fs'.lookup l = fs.lookup l) : fs'.read path = fs.read path := by
  refine locate_bind_congr hdirectory h ?_
  intro location hlocation
  rw [find_congr (h location hlocation)]

theorem target_congr {fs fs' : FileSystem} {path : String}
    (hdirectory : fs'.workingDirectory = fs.workingDirectory)
    (h : ∀ l ∈ fs.footprint path, fs'.lookup l = fs.lookup l) :
    fs'.target path = fs.target path := by
  refine locate_bind_congr hdirectory h ?_
  intro location hlocation
  rw [find_congr (h location hlocation)]

/-- A file is written to the place of its path, where no directory may be. -/
theorem target_inv {fs : FileSystem} {path : String} {location : Location}
    (h : fs.target path = .ok location) :
    fs.locate path = .ok location ∧ (Path.ofString path).trailingSlash = false ∧
      fs.find location = .ok (fs.lookup location) ∧ fs.lookup location ≠ some .directory := by
  rw [target] at h
  cases hlocate : fs.locate path with
  | error fault =>
    rw [hlocate] at h
    cases h
  | ok found =>
    rw [hlocate, Except.bind] at h
    split at h
    · cases h
    · next hslash =>
      cases hfind : fs.find found with
      | error fault =>
        rw [hfind] at h
        cases h
      | ok node =>
        rw [hfind, Except.bind] at h
        split at h
        · cases h
        · next hnode =>
          cases h
          refine ⟨rfl, by simpa using hslash, find_of_find hfind fs, ?_⟩
          rw [lookup_of_find hfind]
          exact hnode

theorem place_of_target {fs : FileSystem} {path : String} {location : Location}
    (h : fs.target path = .ok location) : location = fs.place path :=
  place_of_locate (target_inv h).1

/-- A file system as it is after writing: the data is read at the path, and all other locations
are as they were. -/
structure Written (fs : FileSystem) (path : String) (data : Bytes) (fs' : FileSystem) : Prop where
  read_eq : fs'.read path = .ok data
  lookup_place : fs'.lookup (fs.place path) = some (.file data)
  lookup_of_ne : ∀ location ≠ fs.place path, fs'.lookup location = fs.lookup location
  workingDirectory_eq : fs'.workingDirectory = fs.workingDirectory

theorem written_put {fs : FileSystem} {path : String} {location : Location}
    (h : fs.target path = .ok location) (data : Bytes) :
    fs.Written path data (fs.put location (.file data)) := by
  obtain ⟨hlocate, hslash, hfind, hnode⟩ := target_inv h
  obtain ⟨way, last, hnames, hwalk, hlocation, hname⟩ := locate_inv hlocate
  have hne : location ≠ [] := by
    rw [hlocation]
    exact List.concat_ne_nil _ _
  have hlookup := fs.lookup_put_self (.file data) hne
  have hlocate' : (fs.put location (.file data)).locate path = .ok location := by
    rw [locate_of_locate hlocate, resolve_of_names_eq_concat hnames,
      start_congr (fs.workingDirectory_put location (.file data)), walk_put hwalk hnode,
      Except.bind, if_neg hname, ← hlocation]
  have hfind' := find_of_find hfind (fs.put location (.file data))
  rw [hlookup] at hfind'
  have hplace := place_of_target h
  refine ⟨?_, hplace ▸ hlookup, ?_, rfl⟩
  · rw [read, hlocate', Except.bind, hfind', Except.bind]
    dsimp only
    rw [hslash]
    rfl
  · intro other hother
    rw [← hplace] at hother
    exact fs.lookup_put_of_ne _ hother

/-! ### File names -/

/-- The text is the name of a file in the working directory. -/
def IsFileName (text : String) : Prop :=
  text ≠ "" ∧ text ≠ "." ∧ text ≠ ".." ∧ '/' ∉ text.toList

theorem splitSlashes_of_not_mem {text : List Char} (h : '/' ∉ text) :
    Path.splitSlashes text = [text] := by
  induction text with
  | nil => rfl
  | cons c rest ih =>
    have hc : c ≠ '/' := fun hc => h (hc ▸ List.mem_cons_self)
    have hrest : '/' ∉ rest := fun hrest => h (List.mem_cons_of_mem _ hrest)
    have hstep : Path.splitSlashes (c :: rest) =
        if c = '/' then [] :: Path.splitSlashes rest
        else match Path.splitSlashes rest with
          | [] => [[c]]
          | piece :: more => (c :: piece) :: more := rfl
    rw [hstep, if_neg hc, ih hrest]

theorem names_of_isFileName {text : String} (h : IsFileName text) :
    (Path.ofString text).names = [text.toList] ∧ (Path.ofString text).absolute = false := by
  obtain ⟨hempty, -, -, hslash⟩ := h
  have hne : text.toList ≠ [] := by simpa using hempty
  refine ⟨?_, ?_⟩
  · show (Path.splitSlashes text.toList).filter (!·.isEmpty) = _
    rw [splitSlashes_of_not_mem hslash]
    simp [hne]
  · show decide (text.toList.head? = some '/') = false
    rw [decide_eq_false_iff_not]
    exact fun hhead => hslash (List.mem_of_head? hhead)

theorem enter_of_isFileName {text : String} (h : IsFileName text) (location : Location) :
    enter location text.toList = location ++ [text.toList] := by
  obtain ⟨-, hdot, hdots, -⟩ := h
  have hname : ∀ name : String, text ≠ name → text.toList ≠ name.toList :=
    fun name hne => hne ∘ String.toList_inj.mp
  exact enter_of_ne (not_or.mpr ⟨hname "." hdot, hname ".." hdots⟩) location

/-- Distinct file names in the working directory are keys of a map. -/
theorem isMapFor_of_isFileName {fs : FileSystem} {written paths : List String}
    (hwritten : ∀ p ∈ written, IsFileName p) (hpaths : ∀ q ∈ paths, IsFileName q) :
    fs.IsMapFor written paths := by
  intro p hp q hq hne
  obtain ⟨hpnames, hpabsolute⟩ := names_of_isFileName (hwritten p hp)
  obtain ⟨hqnames, hqabsolute⟩ := names_of_isFileName (hpaths q hq)
  have htext : p.toList ≠ q.toList := hne ∘ String.toList_inj.mp
  rw [place, footprint, hpnames, hqnames, start, start, hpabsolute, hqabsolute]
  simp [trail, enter_of_isFileName (hwritten p hp), enter_of_isFileName (hpaths q hq), htext]

end DseMidi.FileSystem
