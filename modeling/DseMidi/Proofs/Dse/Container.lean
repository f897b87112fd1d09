import Mathlib.Data.List.Basic
import DseMidi.Dse.Container
import DseMidi.Proofs.Bytes

/-!
# DseMidi.Proofs.Dse.Container

**What a header takes of a file.** A header is read off the front of a file: bytes behind
those that it looks at can be anything (`Header.read_append`). So the header of a file is
known from its first bytes, whatever its tracks are. Its fields have fixed widths, which
limit the length of a name and the number of tracks.
-/

namespace DseMidi

/-- A sequence of two steps succeeds exactly if both do. -/
theorem bind_eq_ok_iff {α β : Type} {x : Except Fault α} {f : α → Except Fault β} {b : β} :
    x >>= f = .ok b ↔ ∃ a, x = .ok a ∧ f a = .ok b := by
  constructor
  · intro h
    cases x with
    | error fault => cases h
    | ok a => exact ⟨a, rfl, h⟩
  · rintro ⟨a, rfl, h⟩
    exact h

/-! ### Reading a longer file -/

/-- What is seen of a file lies in it. -/
theorem le_length_of_peek {data bytes : Bytes} {offset len : Nat}
    (h : peek data offset len = .ok bytes) : offset + len ≤ data.length := by
  unfold peek at h
  split at h
  · cases h
  · split at h
    · next hinside => exact hinside
    · cases h

theorem peek_append {data bytes : Bytes} {offset len : Nat}
    (h : peek data offset len = .ok bytes) (more : Bytes) :
    peek (data ++ more) offset len = .ok bytes := by
  unfold peek at h
  split at h
  · cases h
  · next hbound =>
    split at h
    · next hinside =>
      cases h
      have hlonger : offset + len ≤ (data ++ more).length := by
        rw [List.length_append]
        omega
      have hleft : len ≤ (data.drop offset).length := by
        rw [List.length_drop]
        omega
      rw [peek, if_neg hbound, if_pos hlonger, List.drop_append_of_le_length (by omega),
        List.take_append_of_le_length hleft]
    · cases h

/-- A number is that of the bytes that are seen. -/
theorem peekNat_inv {data : Bytes} {offset width n : Nat}
    (h : peekNat data offset width = .ok n) :
    ∃ bytes, peek data offset width = .ok bytes ∧ beNat bytes = n := by
  unfold peekNat at h
  cases hpeek : peek data offset width with
  | error fault =>
    rw [hpeek] at h
    cases h
  | ok bytes =>
    rw [hpeek] at h
    exact ⟨bytes, rfl, Except.ok.inj h⟩

theorem peekNat_append {data : Bytes} {offset width n : Nat}
    (h : peekNat data offset width = .ok n) (more : Bytes) :
    peekNat (data ++ more) offset width = .ok n := by
  obtain ⟨bytes, hpeek, rfl⟩ := peekNat_inv h
  rw [peekNat, peek_append hpeek more]
  rfl

theorem le_length_of_peekNat {data : Bytes} {offset width n : Nat}
    (h : peekNat data offset width = .ok n) : offset + width ≤ data.length := by
  obtain ⟨bytes, hpeek, -⟩ := peekNat_inv h
  exact le_length_of_peek hpeek

/-- A number is limited by the width of its field. -/
theorem peekNat_lt {data : Bytes} {offset width n : Nat}
    (h : peekNat data offset width = .ok n) : n < 256 ^ width := by
  obtain ⟨bytes, hpeek, rfl⟩ := peekNat_inv h
  rw [← length_of_peek hpeek]
  exact beNat_lt bytes

namespace Dse

/-- One chunk more is its identifier and its length, and the chunks behind it. -/
theorem readChunks_succ {data : Bytes} {position length : Nat}
    (htag : peek data position 4 = .ok trackIdentifier)
    (hlength : peekNat data (position + chunkLengthOffset) 4 = .ok length) (count index : Nat) :
    readChunks data (count + 1) index position =
      (readChunks data count (index + 1) (⟨position, position + chunkDataOffset, length⟩ :
        Chunk).next).map (⟨position, position + chunkDataOffset, length⟩ :: ·) := by
  rw [readChunks, htag, hlength]
  rfl

theorem readChunks_succ_inv {data : Bytes} {count index position : Nat} {chunks : List Chunk}
    (h : readChunks data (count + 1) index position = .ok chunks) :
    ∃ length rest, peek data position 4 = .ok trackIdentifier ∧
      peekNat data (position + chunkLengthOffset) 4 = .ok length ∧
      readChunks data count (index + 1) (⟨position, position + chunkDataOffset, length⟩ :
        Chunk).next = .ok rest ∧
      chunks = ⟨position, position + chunkDataOffset, length⟩ :: rest := by
  obtain ⟨found, hfound, h⟩ := bind_eq_ok_iff.mp h
  by_cases hforeign : found ≠ trackIdentifier
  · rw [if_pos hforeign] at h
    cases h
  · rw [if_neg hforeign] at h
    obtain ⟨length, hlength, h⟩ := bind_eq_ok_iff.mp h
    obtain ⟨rest, hrest, h⟩ := bind_eq_ok_iff.mp h
    obtain rfl := not_not.mp hforeign
    exact ⟨length, rest, hfound, hlength, hrest, (Except.ok.inj h).symm⟩

theorem readChunks_append {data : Bytes} {count index position : Nat} {chunks : List Chunk}
    (h : readChunks data count index position = .ok chunks) (more : Bytes) :
    readChunks (data ++ more) count index position = .ok chunks := by
  induction count generalizing index position chunks with
  | zero => exact h
  | succ count ih =>
    obtain ⟨length, rest, htag, hlength, hrest, rfl⟩ := readChunks_succ_inv h
    rw [readChunks_succ (peek_append htag more) (peekNat_append hlength more), ih hrest]
    rfl

/-- Nothing behind what a header looks at matters to it. -/
theorem Header.read_append {data : Bytes} {header : Header} (h : Header.read data = .ok header)
    (more : Bytes) : Header.read (data ++ more) = .ok header := by
  obtain ⟨found, hfound, h⟩ := bind_eq_ok_iff.mp h
  refine bind_eq_ok_iff.mpr ⟨found, peek_append hfound more, ?_⟩
  by_cases hforeign : found ≠ sequenceIdentifier
  · rw [if_pos hforeign] at h
    cases h
  · rw [if_neg hforeign] at h ⊢
    obtain ⟨size, hsize, h⟩ := bind_eq_ok_iff.mp h
    obtain ⟨field, hfield, h⟩ := bind_eq_ok_iff.mp h
    obtain ⟨count, hcount, h⟩ := bind_eq_ok_iff.mp h
    obtain ⟨tracks, htracks, h⟩ := bind_eq_ok_iff.mp h
    refine bind_eq_ok_iff.mpr ⟨size, peekNat_append hsize more, ?_⟩
    refine bind_eq_ok_iff.mpr ⟨field, peek_append hfield more, ?_⟩
    refine bind_eq_ok_iff.mpr ⟨count, peekNat_append hcount more, ?_⟩
    exact bind_eq_ok_iff.mpr ⟨tracks, readChunks_append htracks more, h⟩

/-! ### Names -/

theorem length_utf8Bytes_le (text : String) :
    (utf8Bytes text).length ≤ 4 * text.toList.length := by
  unfold utf8Bytes
  induction text.toList with
  | nil => exact Nat.le_refl _
  | cons c cs ih =>
    have hc : (String.utf8EncodeChar c).length ≤ 4 := by
      rw [String.length_utf8EncodeChar]
      exact c.utf8Size_le_four
    rw [List.flatMap_cons, List.length_append, List.length_cons]
    omega

theorem length_trimSpaces_le (text : List Char) : (trimSpaces text).length ≤ text.length := by
  rw [trimSpaces, List.length_reverse]
  refine Nat.le_trans (List.dropWhile_sublist _).length_le ?_
  rw [List.length_reverse]
  exact (List.dropWhile_sublist _).length_le

theorem length_nameOfField_le (field : Bytes) :
    (nameOfField field).toList.length ≤ field.length := by
  rw [nameOfField, String.toList_ofList]
  refine Nat.le_trans (length_trimSpaces_le _) ?_
  rw [List.length_map]
  exact (List.takeWhile_sublist _).length_le

/-! ### What a header says -/

/-- A header holds the fields of its file. -/
theorem Header.read_inv {data : Bytes} {header : Header} (h : Header.read data = .ok header) :
    ∃ size field count tracks, peekNat data fileSizeOffset 4 = .ok size ∧
      peek data nameOffset nameFieldSize = .ok field ∧
      peekNat data trackCountOffset 1 = .ok count ∧
      readChunks data count 0 firstChunkOffset = .ok tracks ∧
      header = ⟨size, nameOfField field, UInt8.ofNat count, tracks⟩ := by
  obtain ⟨found, -, h⟩ := bind_eq_ok_iff.mp h
  by_cases hforeign : found ≠ sequenceIdentifier
  · rw [if_pos hforeign] at h
    cases h
  · rw [if_neg hforeign] at h
    obtain ⟨size, hsize, h⟩ := bind_eq_ok_iff.mp h
    obtain ⟨field, hfield, h⟩ := bind_eq_ok_iff.mp h
    obtain ⟨count, hcount, h⟩ := bind_eq_ok_iff.mp h
    obtain ⟨tracks, htracks, h⟩ := bind_eq_ok_iff.mp h
    cases h
    exact ⟨size, field, count, tracks, hsize, hfield, hcount, htracks, rfl⟩

/-- A name is no longer than its field. -/
theorem Header.length_name_le {data : Bytes} {header : Header}
    (h : Header.read data = .ok header) : header.name.toList.length ≤ nameFieldSize := by
  obtain ⟨size, field, count, tracks, -, hfield, -, -, rfl⟩ := read_inv h
  rw [← length_of_peek hfield]
  exact length_nameOfField_le field

theorem length_of_readChunks {data : Bytes} {count index position : Nat} {chunks : List Chunk}
    (h : readChunks data count index position = .ok chunks) : chunks.length = count := by
  induction count generalizing index position chunks with
  | zero =>
    cases h
    rfl
  | succ count ih =>
    obtain ⟨length, rest, -, -, hrest, rfl⟩ := readChunks_succ_inv h
    rw [List.length_cons, ih hrest]

/-- The number of tracks is a byte. -/
theorem Header.length_tracks_lt {data : Bytes} {header : Header}
    (h : Header.read data = .ok header) : header.tracks.length < 256 := by
  obtain ⟨size, field, count, tracks, -, -, hcount, htracks, rfl⟩ := read_inv h
  have hlt : count < 256 ^ 1 := peekNat_lt hcount
  show tracks.length < 256
  rw [length_of_readChunks htracks]
  omega

end Dse

end DseMidi
