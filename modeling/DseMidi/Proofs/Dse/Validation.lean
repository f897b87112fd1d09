import Mathlib.Data.List.TakeWhile
import Mathlib.Order.Monotone.Basic
import DseMidi.Proofs.Dse.Container

/-!
# DseMidi.Proofs.Dse.Validation

**Which files are containers, and what is wrong with the others.**

Where the chunks of a file would stand follows from its bytes alone: each starts behind the data
that the one before it declares (`chunkPosition`). So everything that a file has to satisfy can
be listed without reading it, each item with the fault that it stands for (`headerChecks`). A
header is read exactly if all checks of the list hold, and otherwise reading stops with the fault
of the first that does not (`Header.read_eq`). `IsContainer` says the same without any order.

Positions are 64 bits wide, and a file that fits into the memory they address is far from their
end: it has less than `2 ^ 63` bytes.
-/

namespace DseMidi.Dse

/-! ### Checks -/

/-- Something that a file has to satisfy, and the fault if it does not. -/
structure Check where
  holds : Bool
  fault : Fault
  deriving DecidableEq

/-- Makes the checks one by one, up to the first that fails. -/
def runChecks : List Check → Except Fault Unit
  | [] => .ok ()
  | check :: checks => if check.holds then runChecks checks else .error check.fault

/-- The fault is that of the first check that fails. -/
def FirstFault (checks : List Check) (fault : Fault) : Prop :=
  ∃ before check after, checks = before ++ check :: after ∧ (∀ c ∈ before, c.holds) ∧
    check.holds = false ∧ check.fault = fault

theorem runChecks_eq_ok_iff {checks : List Check} :
    runChecks checks = .ok () ↔ ∀ c ∈ checks, c.holds := by
  induction checks with
  | nil => simp [runChecks]
  | cons check checks ih =>
    rw [runChecks, List.forall_mem_cons]
    split
    · next hholds => rw [ih, and_iff_right hholds]
    · next hfails => simp [hfails]

theorem firstFault_cons {check : Check} {checks : List Check} {fault : Fault} :
    FirstFault (check :: checks) fault ↔
      if check.holds then FirstFault checks fault else check.fault = fault := by
  split
  · next hholds =>
    constructor
    · rintro ⟨before, failing, after, hchecks, hbefore, hfails, hfault⟩
      cases before with
      | nil =>
        obtain ⟨rfl, -⟩ := List.cons.inj hchecks
        rw [hholds] at hfails
        cases hfails
      | cons first before =>
        obtain ⟨-, hrest⟩ := List.cons.inj hchecks
        exact ⟨before, failing, after, hrest, (List.forall_mem_cons.mp hbefore).2, hfails, hfault⟩
    · rintro ⟨before, failing, after, rfl, hbefore, hfails, hfault⟩
      exact ⟨check :: before, failing, after, rfl, List.forall_mem_cons.mpr ⟨hholds, hbefore⟩,
        hfails, hfault⟩
  · next hcheck =>
    constructor
    · rintro ⟨before, failing, after, hchecks, hbefore, -, hfault⟩
      cases before with
      | nil =>
        obtain ⟨rfl, -⟩ := List.cons.inj hchecks
        exact hfault
      | cons first before =>
        obtain ⟨rfl, -⟩ := List.cons.inj hchecks
        exact absurd (hbefore check List.mem_cons_self) hcheck
    · intro hfault
      exact ⟨[], check, checks, rfl, by simp, by simpa using hcheck, hfault⟩

theorem runChecks_eq_error_iff {checks : List Check} {fault : Fault} :
    runChecks checks = .error fault ↔ FirstFault checks fault := by
  induction checks with
  | nil => simp [runChecks, FirstFault]
  | cons check checks ih =>
    rw [runChecks, firstFault_cons]
    split
    · exact ih
    · rw [Except.error.injEq]

/-! ### What a file says at a place -/

/-- The `len` bytes at `offset`, or as many of them as there are. -/
def stretch (data : Bytes) (offset len : Nat) : Bytes :=
  (data.drop offset).take len

/-- The number in the `width` bytes at `offset`, most significant byte first. -/
def numberAt (data : Bytes) (offset width : Nat) : Nat :=
  beNat (stretch data offset width)

/-- The `len` bytes at `offset` are there. What is missing otherwise starts there, or at the end
of the file if that comes later. -/
def present (data : Bytes) (offset len : Nat) : Check where
  holds := offset + len ≤ data.length
  fault := .truncated (max offset data.length) data.length

/-- Where chunk number `k` starts: the first has a fixed place, and each further one stands behind
the data of the one before it, at a multiple of four bytes. -/
def chunkPosition (data : Bytes) : Nat → Nat
  | 0 => 0x80
  | k + 1 =>
    chunkPosition data k + 0x10 + (numberAt data (chunkPosition data k + 0x0C) 4 + 3) / 4 * 4

/-- Chunk number `k`, with the length that it declares. -/
def chunkAt (data : Bytes) (k : Nat) : Chunk where
  start := chunkPosition data k
  dataStart := chunkPosition data k + 0x10
  length := numberAt data (chunkPosition data k + 0x0C) 4

/-- The number of chunks that a file announces. -/
def announcedCount (data : Bytes) : Nat :=
  numberAt data 0x56 1

/-- What chunk number `k` of a file has to satisfy. -/
def chunkChecks (data : Bytes) (k : Nat) : List Check :=
  let position := chunkPosition data k
  let found := stretch data position 4
  [present data position 4,
   ⟨found = trackIdentifier, .notATrack k position found⟩,
   present data (position + 0x0C) 4]

/-- What a file has to satisfy, in the order in which it is looked at: the identifier, the file
size, the name, the number of tracks, and the chunks. -/
def headerChecks (data : Bytes) : List Check :=
  let found := stretch data 0 4
  [present data 0 4,
   ⟨found = sequenceIdentifier, .notASequence found⟩,
   present data 0x08 4,
   present data 0x20 15,
   present data 0x56 1] ++ (List.range (announcedCount data)).flatMap (chunkChecks data)

/-- Whether the file is a container: it has the identifier and a whole header, and the header of
each chunk that it announces is in it and has the identifier of a track. -/
structure IsContainer (data : Bytes) : Prop where
  identifier : stretch data 0 4 = sequenceIdentifier
  length : 0x57 ≤ data.length
  chunk : ∀ k < announcedCount data, chunkPosition data k + 0x10 ≤ data.length ∧
    stretch data (chunkPosition data k) 4 = trackIdentifier

theorem holds_present {data : Bytes} {offset len : Nat} :
    (present data offset len).holds ↔ offset + len ≤ data.length := by
  rw [present, decide_eq_true_iff]

/-- All checks of a chunk together. -/
theorem forall_chunkChecks_iff {data : Bytes} {k : Nat} :
    (∀ c ∈ chunkChecks data k, c.holds) ↔
      chunkPosition data k + 0x10 ≤ data.length ∧
        stretch data (chunkPosition data k) 4 = trackIdentifier := by
  simp only [chunkChecks, List.forall_mem_cons, List.not_mem_nil, false_implies, implies_true,
    and_true, holds_present, decide_eq_true_iff]
  constructor
  · rintro ⟨-, hidentifier, hlength⟩
    exact ⟨hlength, hidentifier⟩
  · rintro ⟨hinside, hidentifier⟩
    exact ⟨by omega, hidentifier, hinside⟩

/-- All checks of a file together. -/
theorem forall_headerChecks_iff {data : Bytes} :
    (∀ c ∈ headerChecks data, c.holds) ↔ IsContainer data := by
  have hchunks : (∀ c ∈ (List.range (announcedCount data)).flatMap (chunkChecks data), c.holds) ↔
      ∀ k < announcedCount data, chunkPosition data k + 0x10 ≤ data.length ∧
        stretch data (chunkPosition data k) 4 = trackIdentifier := by
    simp only [List.forall_mem_flatMap, List.mem_range, forall_chunkChecks_iff]
  simp only [headerChecks, List.forall_mem_append, List.forall_mem_cons, List.not_mem_nil,
    false_implies, implies_true, and_true, holds_present, decide_eq_true_iff, hchunks]
  constructor
  · rintro ⟨⟨-, hidentifier, -, -, hlength⟩, hchunk⟩
    exact ⟨hidentifier, hlength, hchunk⟩
  · rintro ⟨hidentifier, hlength, hchunk⟩
    exact ⟨⟨by omega, hidentifier, by omega, by omega, hlength⟩, hchunk⟩

/-! ### Reading -/

section Reading

variable {data : Bytes}

/-- Looking at a stretch checks that it is there. -/
theorem peek_bind (hdata : data.length < 2 ^ 63) {offset len : Nat} (hlen : len ≤ 15) {α : Type}
    (f : Bytes → Except Fault α) :
    peek data offset len >>= f =
      if (present data offset len).holds then f (stretch data offset len)
      else .error (present data offset len).fault := by
  by_cases hinside : offset + len ≤ data.length
  · have hbound : ¬ Nat.pow 2 64 ≤ offset + len := by
      show ¬ 2 ^ 64 ≤ offset + len
      omega
    rw [if_pos (holds_present.mpr hinside), peek, if_neg hbound, if_pos hinside]
    rfl
  · rw [if_neg (mt holds_present.mp hinside), peek]
    by_cases hbound : Nat.pow 2 64 ≤ offset + len
    · -- Beyond the range of positions the start is reported, which is behind any file.
      have hfar : data.length ≤ offset := by
        have : 2 ^ 64 ≤ offset + len := hbound
        omega
      rw [if_pos hbound, present, Nat.max_eq_left hfar]
      rfl
    · rw [if_neg hbound, if_neg hinside]
      rfl

theorem peekNat_bind (hdata : data.length < 2 ^ 63) {offset width : Nat} (hwidth : width ≤ 15)
    {α : Type} (f : Nat → Except Fault α) :
    peekNat data offset width >>= f =
      if (present data offset width).holds then f (numberAt data offset width)
      else .error (present data offset width).fault := by
  have hbind : peekNat data offset width >>= f = peek data offset width >>= fun b => f (beNat b) := by
    rw [peekNat]
    cases peek data offset width with
    | error fault => rfl
    | ok bytes => rfl
  rw [hbind, peek_bind hdata hwidth, numberAt]

theorem map_runChecks_cons {α : Type} (check : Check) (checks : List Check) (f : Unit → α) :
    (runChecks (check :: checks)).map f =
      if check.holds then (runChecks checks).map f else .error check.fault := by
  rw [runChecks]
  split
  · rfl
  · rfl

/-- Reading chunks makes the checks of each, and what is read are the chunks at their places. -/
theorem readChunks_eq (hdata : data.length < 2 ^ 63) (count index : Nat) :
    readChunks data count index (chunkPosition data index) =
      (runChecks ((List.range' index count).flatMap (chunkChecks data))).map fun _ =>
        (List.range' index count).map (chunkAt data) := by
  induction count generalizing index with
  | zero => rfl
  | succ count ih =>
    have hrest : (readChunks data count (index + 1) (chunkAt data index).next >>= fun rest =>
        .ok (chunkAt data index :: rest)) =
          (runChecks ((List.range' (index + 1) count).flatMap (chunkChecks data))).map fun _ =>
            chunkAt data index :: (List.range' (index + 1) count).map (chunkAt data) := by
      rw [show (chunkAt data index).next = chunkPosition data (index + 1) from rfl, ih]
      cases runChecks ((List.range' (index + 1) count).flatMap (chunkChecks data)) with
      | error fault => rfl
      | ok _ => rfl
    rw [List.range'_succ, List.flatMap_cons, List.map_cons, chunkChecks, List.cons_append,
      List.cons_append, List.cons_append, List.nil_append, map_runChecks_cons, map_runChecks_cons,
      map_runChecks_cons, ← hrest, readChunks, peek_bind hdata (by decide), ite_not,
      peekNat_bind hdata (by decide)]
    simp only [decide_eq_true_iff]
    rfl

/-- The header of a file that passes all checks. -/
def headerOf (data : Bytes) : Header where
  declaredSize := numberAt data 0x08 4
  name := nameOfField (stretch data 0x20 15)
  trackCount := UInt8.ofNat (announcedCount data)
  tracks := (List.range (announcedCount data)).map (chunkAt data)

/-- **Reading a header** makes the checks of the file in their order. -/
theorem Header.read_eq (hdata : data.length < 2 ^ 63) :
    Header.read data = (runChecks (headerChecks data)).map fun _ => headerOf data := by
  have htable : (readChunks data (announcedCount data) 0 firstChunkOffset >>= fun tracks =>
      .ok ⟨numberAt data 0x08 4, nameOfField (stretch data 0x20 15),
        UInt8.ofNat (announcedCount data), tracks⟩) =
        (runChecks ((List.range (announcedCount data)).flatMap (chunkChecks data))).map fun _ =>
          headerOf data := by
    rw [show firstChunkOffset = chunkPosition data 0 from rfl, readChunks_eq hdata,
      ← List.range_eq_range']
    cases runChecks ((List.range (announcedCount data)).flatMap (chunkChecks data)) with
    | error fault => rfl
    | ok _ => rfl
  rw [headerChecks, List.cons_append, List.cons_append, List.cons_append, List.cons_append,
    List.cons_append, List.nil_append, map_runChecks_cons, map_runChecks_cons, map_runChecks_cons,
    map_runChecks_cons, map_runChecks_cons, ← htable, Header.read, peek_bind hdata (by decide),
    ite_not, peekNat_bind hdata (by decide), peek_bind hdata (by decide),
    peekNat_bind hdata (by decide)]
  simp only [decide_eq_true_iff]
  rfl

theorem Header.read_eq_ok_iff (hdata : data.length < 2 ^ 63) {header : Header} :
    Header.read data = .ok header ↔ IsContainer data ∧ header = headerOf data := by
  rw [read_eq hdata, ← forall_headerChecks_iff, ← runChecks_eq_ok_iff]
  cases runChecks (headerChecks data) with
  | error fault => simp [Except.map]
  | ok _ => simp [Except.map, eq_comm]

theorem Header.read_eq_error_iff (hdata : data.length < 2 ^ 63) {fault : Fault} :
    Header.read data = .error fault ↔ FirstFault (headerChecks data) fault := by
  rw [read_eq hdata, ← runChecks_eq_error_iff]
  cases runChecks (headerChecks data) with
  | error fault => simp [Except.map]
  | ok _ => simp [Except.map]

end Reading

/-! ### The table of chunks -/

section Table

variable (data : Bytes)

/-- A chunk ends, with its data, in front of the next. -/
theorem dataEnd_le_chunkPosition_succ (k : Nat) :
    chunkPosition data k + 0x10 + (chunkAt data k).length ≤ chunkPosition data (k + 1) := by
  show _ + numberAt data (chunkPosition data k + 0x0C) 4 ≤ _
  rw [chunkPosition]
  omega

theorem monotone_chunkPosition : Monotone (chunkPosition data) := by
  apply monotone_nat_of_le_succ
  intro k
  have hstep := dataEnd_le_chunkPosition_succ data k
  omega

theorem four_dvd_chunkPosition (k : Nat) : 4 ∣ chunkPosition data k := by
  induction k with
  | zero => exact ⟨0x20, rfl⟩
  | succ k ih =>
    rw [chunkPosition]
    omega

/-- Chunks stand one behind the other. -/
theorem pairwise_chunkAt (count : Nat) :
    ((List.range count).map (chunkAt data)).Pairwise fun a b =>
      a.start < b.start ∧ a.dataStart + a.length ≤ b.start := by
  refine List.pairwise_map.mpr (List.pairwise_lt_range.imp ?_)
  intro k l hkl
  have hstep := dataEnd_le_chunkPosition_succ data k
  have hmono : chunkPosition data (k + 1) ≤ chunkPosition data l := monotone_chunkPosition data hkl
  show chunkPosition data k < chunkPosition data l ∧
    chunkPosition data k + 0x10 + (chunkAt data k).length ≤ chunkPosition data l
  omega

end Table

/-! ### Names -/

/-- The text is ASCII without zeros, and no space stands at its ends. -/
structure IsPlainName (text : List Char) : Prop where
  ascii : ∀ c ∈ text, c.toNat < 0x80 ∧ c ≠ '\x00'
  head : text.head? ≠ some ' '
  last : text.getLast? ≠ some ' '

theorem head?_dropWhile_space (text : List Char) :
    (text.dropWhile (· = ' ')).head? ≠ some ' ' := by
  intro hspace
  have hnot := List.head?_dropWhile_not (fun c => decide (c = ' ')) text
  rw [hspace] at hnot
  simp at hnot

/-- At its end, a text only loses. -/
theorem isPrefix_trimSpaces (text : List Char) : trimSpaces text <+: text.dropWhile (· = ' ') := by
  rw [← List.reverse_suffix, trimSpaces, List.reverse_reverse]
  exact List.dropWhile_suffix _

theorem isPlainName_trimSpaces {text : List Char}
    (h : ∀ c ∈ text, c.toNat < 0x80 ∧ c ≠ '\x00') : IsPlainName (trimSpaces text) where
  ascii := by
    intro c hc
    exact h c ((List.dropWhile_sublist _).subset ((isPrefix_trimSpaces text).subset hc))
  head := by
    obtain ⟨dropped, hdropped⟩ := isPrefix_trimSpaces text
    cases htrimmed : trimSpaces text with
    | nil => simp
    | cons c rest =>
      have hhead := head?_dropWhile_space text
      rw [← hdropped, htrimmed] at hhead
      exact hhead
  last := by
    rw [trimSpaces, List.getLast?_reverse]
    exact head?_dropWhile_space _

/-- Every byte of a name but zero stands for a character that is plain. -/
theorem isPlainName_nameOfField (field : Bytes) : IsPlainName (nameOfField field).toList := by
  have hplain : ∀ b : UInt8, b ≠ 0 →
      (if b < 0x80 then Char.ofNat b.toNat else '?').toNat < 0x80 ∧
        (if b < 0x80 then Char.ofNat b.toNat else '?') ≠ '\x00' := by
    intro b
    refine forall_byte ?_ b
    decide +kernel
  rw [nameOfField, String.toList_ofList]
  refine isPlainName_trimSpaces (List.forall_mem_map.mpr ?_)
  intro b hb
  exact hplain b (by simpa using List.mem_takeWhile_imp hb)

/-! ### The outcomes, exactly -/

/-- **Which files have a header, and the first fault of those that have none.** A header is read
from containers and from no other files. It has an entry for each chunk that is announced, at the
place where the lengths of those in front of it lead to; these places are multiples of four, and
each chunk ends, with its data, before the next begins. The name is plain text. From any other
file, reading reports what the first check finds that the file does not pass. -/
theorem Header.read_outcome {data : Bytes} (hdata : data.length < 2 ^ 63) :
    ((∃ header, Header.read data = .ok header) ↔ IsContainer data) ∧
    (∀ header, Header.read data = .ok header →
      header.trackCount.toNat = announcedCount data ∧
      header.tracks = (List.range (announcedCount data)).map (chunkAt data) ∧
      header.tracks.Pairwise (fun a b => a.start < b.start ∧ a.dataStart + a.length ≤ b.start) ∧
      (∀ chunk ∈ header.tracks, 4 ∣ chunk.start) ∧
      IsPlainName header.name.toList) ∧
    ∀ fault, Header.read data = .error fault ↔ FirstFault (headerChecks data) fault := by
  refine ⟨?_, ?_, fun fault => read_eq_error_iff hdata⟩
  · constructor
    · rintro ⟨header, hread⟩
      exact ((read_eq_ok_iff hdata).mp hread).1
    · intro hcontainer
      exact ⟨headerOf data, (read_eq_ok_iff hdata).mpr ⟨hcontainer, rfl⟩⟩
  · intro header hread
    obtain ⟨-, rfl⟩ := (read_eq_ok_iff hdata).mp hread
    refine ⟨?_, rfl, pairwise_chunkAt data _, ?_, isPlainName_nameOfField _⟩
    · have hbyte : announcedCount data < 256 ^ 1 := beNat_lt_of_length_le (List.length_take_le _ _)
      exact UInt8.toNat_ofNat'.trans (Nat.mod_eq_of_lt hbyte)
    · intro chunk hchunk
      obtain ⟨k, -, rfl⟩ := List.mem_map.mp hchunk
      exact four_dvd_chunkPosition data k

/-- A file that announces two chunks, the second of which is foreign, and cut off before its
length. -/
def strayFile : Bytes :=
  sequenceIdentifier ++ List.replicate 0x52 0 ++ [2] ++ List.replicate 0x29 0 ++
    trackIdentifier ++ List.replicate 8 0 ++ beBytes 4 5 ++ [0, 0, 0, 0, 0x98, 0, 0, 0] ++
    [0x65, 0x6F, 0x63, 0x20]

/-- Of its two faults the foreign identifier is reported, which is looked at first. -/
theorem Header.read_outcome_strayFile :
    Header.read strayFile = .error (.notATrack 1 0x98 [0x65, 0x6F, 0x63, 0x20]) ∧
      ¬ IsContainer strayFile ∧ strayFile.length = chunkPosition strayFile 1 + 4 := by
  have hsmall : strayFile.length < 2 ^ 63 := by decide +kernel
  obtain ⟨hok, -, herror⟩ := Header.read_outcome hsmall
  have hread : Header.read strayFile = .error (.notATrack 1 0x98 [0x65, 0x6F, 0x63, 0x20]) := by
    refine (herror _).mpr ⟨(headerChecks strayFile).take 9, ⟨false, _⟩,
      (headerChecks strayFile).drop 10, ?_, ?_, rfl, rfl⟩
    · decide +kernel
    · decide +kernel
  refine ⟨hread, ?_, by decide +kernel⟩
  intro hcontainer
  obtain ⟨header, hheader⟩ := hok.mpr hcontainer
  rw [hread] at hheader
  cases hheader

end DseMidi.Dse
