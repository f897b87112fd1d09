import DseMidi.Proofs.Bytes
import DseMidi.Proofs.Dse.Container

/-!
# DseMidi.Proofs.Dse.FileLayout

**Files written by the container format.** A `FileLayout` holds what a sequence file consists
of: the fields that mean something, and the bytes around them that could be anything. Its
proofs say how large each part is, so that a layout is a well-formed file.

A header reads back what a layout was written from (`FileLayout.read_bytes`): the name without
what stands behind its end, and a table of chunks in which each starts where the one before it
ends (`chunkTable`). What the table declares of each chunk's data is its body
(`FileLayout.map_region`).
-/

namespace DseMidi.Dse

/-! ### Layouts -/

/-- A track chunk as it lies in a file. -/
structure ChunkLayout where
  /-- What stands between the identifier and the length. -/
  skipped : Bytes
  /-- The data. -/
  body : Bytes
  /-- What fills the data up to a multiple of four bytes. -/
  padding : Bytes
  length_skipped : skipped.length = 8
  length_body_lt : body.length < 2 ^ 32
  length_padding : body.length + padding.length = (body.length + 3) / 4 * 4

/-- The bytes of a chunk. -/
def ChunkLayout.bytes (c : ChunkLayout) : Bytes :=
  trackIdentifier ++ c.skipped ++ beBytes 4 c.body.length ++ c.body ++ c.padding

/-- A sequence file, field by field. -/
structure FileLayout where
  /-- What stands between the identifier and the file size. -/
  beforeSize : Bytes
  size : Bytes
  /-- What stands between the file size and the name. -/
  beforeName : Bytes
  name : Bytes
  /-- The rest of the name field: the zero that ends a shorter name, and anything. -/
  nameRest : Bytes
  /-- What stands between the name field and the number of tracks. -/
  beforeCount : Bytes
  /-- What stands between the number of tracks and the first chunk. -/
  beforeTable : Bytes
  chunks : List ChunkLayout
  length_beforeSize : beforeSize.length = 4
  length_size : size.length = 4
  length_beforeName : beforeName.length = 20
  length_name : name.length + nameRest.length = nameFieldSize
  ascii_name : ∀ b ∈ name, b ≠ 0 ∧ b < 0x80
  head_name : name.head? ≠ some 0x20
  last_name : name.getLast? ≠ some 0x20
  nameRest_zero : ∀ b ∈ nameRest.head?, b = 0
  length_beforeCount : beforeCount.length = 39
  length_beforeTable : beforeTable.length = 41
  length_chunks : chunks.length ≤ 255

/-- The whole name field. -/
def FileLayout.nameField (f : FileLayout) : Bytes := f.name ++ f.nameRest

/-- What stands in front of the first chunk. -/
def FileLayout.header (f : FileLayout) : Bytes :=
  sequenceIdentifier ++ f.beforeSize ++ f.size ++ f.beforeName ++ f.nameField ++
    f.beforeCount ++ [UInt8.ofNat f.chunks.length] ++ f.beforeTable

/-- The bytes of a file. -/
def FileLayout.bytes (f : FileLayout) : Bytes :=
  f.header ++ f.chunks.flatMap ChunkLayout.bytes

/-- The chunks of a table whose first chunk is at `position`. -/
def chunkTable (position : Nat) : List ChunkLayout → List Chunk
  | [] => []
  | c :: chunks =>
    ⟨position, position + chunkDataOffset, c.body.length⟩ ::
      chunkTable (position + c.bytes.length) chunks

/-- The text of ASCII bytes. -/
def asciiText (bytes : Bytes) : String :=
  String.ofList (bytes.map fun b => Char.ofNat b.toNat)

/-- A chunk with one byte in all places that could hold any. -/
def filledChunk (fill : UInt8) (body : Bytes) (h : body.length < 2 ^ 32) : ChunkLayout where
  skipped := List.replicate 8 fill
  body := body
  padding := List.replicate ((body.length + 3) / 4 * 4 - body.length) fill
  length_skipped := rfl
  length_body_lt := h
  length_padding := by
    rw [List.length_replicate]
    omega

/-- A file with one byte in all places that could hold any. -/
def filledFile (fill : UInt8) (chunks : List ChunkLayout) (h : chunks.length ≤ 255) :
    FileLayout where
  beforeSize := List.replicate 4 fill
  size := List.replicate 4 fill
  beforeName := List.replicate 20 fill
  name := [0x64, 0x65, 0x6D, 0x6F]
  nameRest := 0 :: List.replicate 10 fill
  beforeCount := List.replicate 39 fill
  beforeTable := List.replicate 41 fill
  chunks := chunks
  length_beforeSize := rfl
  length_size := rfl
  length_beforeName := rfl
  length_name := rfl
  ascii_name := by decide +kernel
  head_name := by simp
  last_name := by simp
  nameRest_zero := by simp
  length_beforeCount := rfl
  length_beforeTable := rfl
  length_chunks := h

/-! ### Sizes -/

theorem ChunkLayout.length_bytes (c : ChunkLayout) :
    c.bytes.length = chunkDataOffset + (c.body.length + 3) / 4 * 4 := by
  have hpadding := c.length_padding
  simp only [bytes, List.length_append, length_beBytes, c.length_skipped, trackIdentifier,
    chunkDataOffset, List.length_cons, List.length_nil]
  omega

theorem ChunkLayout.length_bytes_le (c : ChunkLayout) : c.bytes.length ≤ 2 ^ 33 := by
  have := c.length_body_lt
  rw [c.length_bytes, chunkDataOffset]
  omega

theorem length_flatMap_bytes_le (chunks : List ChunkLayout) :
    (chunks.flatMap ChunkLayout.bytes).length ≤ chunks.length * 2 ^ 33 := by
  induction chunks with
  | nil => exact Nat.le_refl _
  | cons c chunks ih =>
    have := c.length_bytes_le
    rw [List.flatMap_cons, List.length_append, List.length_cons]
    omega

theorem FileLayout.length_nameField (f : FileLayout) : f.nameField.length = nameFieldSize := by
  rw [nameField, List.length_append, f.length_name]

theorem FileLayout.length_header (f : FileLayout) : f.header.length = firstChunkOffset := by
  simp [header, f.length_beforeSize, f.length_size, f.length_beforeName, f.length_nameField,
    f.length_beforeCount, f.length_beforeTable, sequenceIdentifier, nameFieldSize,
    firstChunkOffset]

/-- All positions in a file are far from the 64-bit limit. -/
theorem FileLayout.length_bytes_lt (f : FileLayout) : f.bytes.length < 2 ^ 64 := by
  have hchunks := length_flatMap_bytes_le f.chunks
  have hcount := f.length_chunks
  rw [bytes, List.length_append, f.length_header, firstChunkOffset]
  omega

/-! ### Looking at a part of a file -/

/-- What stands at a place of a file is seen there. -/
theorem peek_of_prefix {data before bytes : Bytes} (h : before ++ bytes <+: data)
    (hsmall : data.length < 2 ^ 64) {offset len : Nat} (hoffset : before.length = offset)
    (hlen : bytes.length = len) : peek data offset len = .ok bytes := by
  subst hoffset hlen
  have hinside := h.length_le
  rw [List.length_append] at hinside
  obtain ⟨after, rfl⟩ := h
  have hbound : ¬ Nat.pow 2 64 ≤ before.length + bytes.length := by
    show ¬ 2 ^ 64 ≤ _
    omega
  rw [peek, if_neg hbound, if_pos hinside, List.append_assoc, List.drop_left, List.take_left]

theorem peekNat_of_prefix {data before bytes : Bytes} (h : before ++ bytes <+: data)
    (hsmall : data.length < 2 ^ 64) {offset width : Nat} (hoffset : before.length = offset)
    (hwidth : bytes.length = width) : peekNat data offset width = .ok (beNat bytes) := by
  rw [peekNat, peek_of_prefix h hsmall hoffset hwidth]
  rfl

/-! ### Names -/

theorem trimSpaces_of_ne {text : List Char} (hhead : text.head? ≠ some ' ')
    (hlast : text.getLast? ≠ some ' ') : trimSpaces text = text := by
  have hdrop : ∀ cs : List Char, cs.head? ≠ some ' ' → cs.dropWhile (· = ' ') = cs := by
    intro cs hcs
    cases cs with
    | nil => rfl
    | cons c cs => exact List.dropWhile_cons_of_neg (by simpa using hcs)
  rw [trimSpaces, hdrop text hhead, hdrop text.reverse (by simpa using hlast),
    List.reverse_reverse]

theorem charOfNat_ne_space {b : UInt8} (h : b ≠ 0x20) : Char.ofNat b.toNat ≠ ' ' := by
  revert h
  refine forall_byte ?_ b
  decide +kernel

/-- A name reads as it was written, whatever stands behind its end in the field. -/
theorem FileLayout.nameOfField_name (f : FileLayout) :
    nameOfField f.nameField = asciiText f.name := by
  have hrest : f.nameRest.takeWhile (· ≠ 0) = [] := by
    have hzero := f.nameRest_zero
    cases hbytes : f.nameRest with
    | nil => rfl
    | cons b rest =>
      rw [hbytes] at hzero
      exact List.takeWhile_cons_of_neg (by simpa using hzero b rfl)
  have hname : (f.name ++ f.nameRest).takeWhile (· ≠ 0) = f.name := by
    rw [List.takeWhile_append_of_pos, hrest, List.append_nil]
    intro b hb
    simpa using (f.ascii_name b hb).1
  have htext : (f.name.map fun b => if b < 0x80 then Char.ofNat b.toNat else '?') =
      f.name.map fun b => Char.ofNat b.toNat := by
    refine List.map_congr_left ?_
    intro b hb
    rw [if_pos (f.ascii_name b hb).2]
  rw [nameOfField, nameField, hname, htext, trimSpaces_of_ne, asciiText]
  · rw [List.head?_map]
    intro hspace
    obtain ⟨b, hb, hchar⟩ := Option.map_eq_some_iff.mp hspace
    have hne : b ≠ 0x20 := by
      rintro rfl
      exact f.head_name hb
    exact charOfNat_ne_space hne hchar
  · rw [List.getLast?_map]
    intro hspace
    obtain ⟨b, hb, hchar⟩ := Option.map_eq_some_iff.mp hspace
    have hne : b ≠ 0x20 := by
      rintro rfl
      exact f.last_name hb
    exact charOfNat_ne_space hne hchar

/-! ### Reading a layout back -/

/-- The chunks of a table are found one behind the other. -/
theorem readChunks_flatMap_bytes {data : Bytes} (hsmall : data.length < 2 ^ 64)
    {before : Bytes} {chunks : List ChunkLayout}
    (hdata : data = before ++ chunks.flatMap ChunkLayout.bytes) (index : Nat) :
    readChunks data chunks.length index before.length = .ok (chunkTable before.length chunks) := by
  induction chunks generalizing before index with
  | nil => rfl
  | cons c chunks ih =>
    have hregrouped : data = (before ++ c.bytes) ++ chunks.flatMap ChunkLayout.bytes := by
      rw [hdata, List.flatMap_cons, List.append_assoc]
    have htag : peek data before.length 4 = .ok trackIdentifier :=
      peek_of_prefix (by simp [hdata, ChunkLayout.bytes]) hsmall rfl rfl
    have hlength : peekNat data (before.length + chunkLengthOffset) 4 = .ok c.body.length := by
      have hprefix : before ++ trackIdentifier ++ c.skipped ++ beBytes 4 c.body.length <+: data := by
        simp [hdata, ChunkLayout.bytes]
      have hread := peekNat_of_prefix hprefix hsmall rfl (length_beBytes 4 _)
      have hlt : c.body.length < 256 ^ 4 := c.length_body_lt
      rw [beNat_beBytes, Nat.mod_eq_of_lt hlt] at hread
      rw [← hread]
      simp [c.length_skipped, trackIdentifier, chunkLengthOffset]
    have hnext : (⟨before.length, before.length + chunkDataOffset, c.body.length⟩ : Chunk).next =
        (before ++ c.bytes).length := by
      rw [Chunk.next, List.length_append, c.length_bytes, Nat.add_assoc]
    rw [List.length_cons, readChunks_succ htag hlength, hnext, ih hregrouped (index + 1),
      chunkTable, List.length_append]
    rfl

/-- What a chunk holds by its declared length, behind the preamble. -/
def Chunk.region (chunk : Chunk) (data : Bytes) : Bytes :=
  ((data.drop chunk.dataStart).take chunk.length).drop preambleLength

theorem map_region_chunkTable {data before : Bytes} {chunks : List ChunkLayout}
    (hdata : data = before ++ chunks.flatMap ChunkLayout.bytes) :
    (chunkTable before.length chunks).map (fun chunk => chunk.region data) =
      chunks.map fun c => c.body.drop preambleLength := by
  induction chunks generalizing before with
  | nil => rfl
  | cons c chunks ih =>
    have hregrouped : data = (before ++ c.bytes) ++ chunks.flatMap ChunkLayout.bytes := by
      rw [hdata, List.flatMap_cons, List.append_assoc]
    have hfront : data = (before ++ trackIdentifier ++ c.skipped ++ beBytes 4 c.body.length) ++
        (c.body ++ (c.padding ++ chunks.flatMap ChunkLayout.bytes)) := by
      simp [hdata, ChunkLayout.bytes]
    have hlength : (before ++ trackIdentifier ++ c.skipped ++ beBytes 4 c.body.length).length =
        before.length + chunkDataOffset := by
      simp [c.length_skipped, trackIdentifier, chunkDataOffset]
    rw [chunkTable, ← List.length_append, List.map_cons, List.map_cons, ih hregrouped]
    congr 1
    rw [Chunk.region, hfront, List.drop_left' hlength, List.take_left]

/-- The data that is declared for the chunks of a layout is their bodies. -/
theorem FileLayout.map_region (f : FileLayout) :
    (chunkTable firstChunkOffset f.chunks).map (fun chunk => chunk.region f.bytes) =
      f.chunks.map fun c => c.body.drop preambleLength := by
  rw [← f.length_header]
  exact map_region_chunkTable rfl

/-- **A layout reads back.** Its header has the size, the name and the number of tracks that
it was written with, and the table of its chunks. -/
theorem FileLayout.read_bytes (f : FileLayout) :
    Header.read f.bytes = .ok ⟨beNat f.size, asciiText f.name, UInt8.ofNat f.chunks.length,
      chunkTable firstChunkOffset f.chunks⟩ := by
  have hsmall := f.length_bytes_lt
  have htag : peek f.bytes 0 4 = .ok sequenceIdentifier := by
    have hprefix : [] ++ sequenceIdentifier <+: f.bytes := by simp [bytes, header]
    exact peek_of_prefix hprefix hsmall rfl rfl
  have hsize : peekNat f.bytes fileSizeOffset 4 = .ok (beNat f.size) := by
    have hprefix : sequenceIdentifier ++ f.beforeSize ++ f.size <+: f.bytes := by
      simp [bytes, header]
    refine peekNat_of_prefix hprefix hsmall ?_ f.length_size
    simp [f.length_beforeSize, sequenceIdentifier, fileSizeOffset]
  have hfield : peek f.bytes nameOffset nameFieldSize = .ok f.nameField := by
    have hprefix : sequenceIdentifier ++ f.beforeSize ++ f.size ++ f.beforeName ++
        f.nameField <+: f.bytes := by
      simp [bytes, header]
    refine peek_of_prefix hprefix hsmall ?_ f.length_nameField
    simp [f.length_beforeSize, f.length_size, f.length_beforeName, sequenceIdentifier, nameOffset]
  have hcount : peekNat f.bytes trackCountOffset 1 = .ok f.chunks.length := by
    have hprefix : sequenceIdentifier ++ f.beforeSize ++ f.size ++ f.beforeName ++
        f.nameField ++ f.beforeCount ++ [UInt8.ofNat f.chunks.length] <+: f.bytes := by
      simp [bytes, header]
    have hread := peekNat_of_prefix hprefix hsmall rfl rfl
    have hbyte : beNat [UInt8.ofNat f.chunks.length] = f.chunks.length := by
      have hle := f.length_chunks
      simp only [beNat, List.foldl_cons, List.foldl_nil, UInt8.toNat_ofNat']
      omega
    rw [hbyte] at hread
    rw [← hread]
    simp [f.length_beforeSize, f.length_size, f.length_beforeName, f.length_nameField,
      f.length_beforeCount, sequenceIdentifier, nameFieldSize, trackCountOffset]
  have htable := readChunks_flatMap_bytes hsmall
    (rfl : f.bytes = f.header ++ f.chunks.flatMap ChunkLayout.bytes) 0
  rw [f.length_header] at htable
  refine bind_eq_ok_iff.mpr ⟨_, htag, ?_⟩
  rw [if_neg (by simp)]
  refine bind_eq_ok_iff.mpr ⟨_, hsize, bind_eq_ok_iff.mpr ⟨_, hfield, ?_⟩⟩
  refine bind_eq_ok_iff.mpr ⟨_, hcount, bind_eq_ok_iff.mpr ⟨_, htable, ?_⟩⟩
  rw [f.nameOfField_name]

end DseMidi.Dse
