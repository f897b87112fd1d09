import Mathlib.Data.List.Basic
import DseMidi.Dse.Playback

/-!
# DseMidi.Proofs.Dse.Grammar

**Which opcode streams are tracks.**

The grammar is stated on bytes alone: a *word* is an opcode with exactly its operands
(`IsWord`), and a stream *spells* words up to the byte directly behind them (`Spells`).
No reader takes part in either definition.

* A stream whose words stop at the end opcode is a track, and its words are determined.
* A stream whose words stop at an unassigned opcode is refused there.
* Every other stream breaks off: its words run into the end of the data.

The bridge to the reader is one step wide: a word is the bytes of an instruction
(`IsWord.exists_wellFormed`), which is read as that (`Instruction.WellFormed.front_ofBytes`),
and whatever is read is a word (`Front.isWord_bytes`).
Everything about whole streams follows by induction on the words.
-/

namespace DseMidi.Dse

/-! ### The grammar -/

/-- The opcodes with a fixed number of operand bytes, each with that number. Notes are
missing: the number of their bytes is in their first operand. -/
def operandCounts : List (UInt8 × Nat) :=
  [(0x80, 0), (0x81, 0), (0x82, 0), (0x83, 0), (0x84, 0), (0x85, 0), (0x86, 0), (0x87, 0),
   (0x88, 0), (0x89, 0), (0x8A, 0), (0x8B, 0), (0x8C, 0), (0x8D, 0), (0x8E, 0), (0x8F, 0),
   (0x90, 0), (0x91, 1), (0x92, 1), (0x93, 2), (0x99, 0), (0xA0, 1), (0xA4, 1), (0xAC, 1),
   (0xBE, 1), (0xD7, 2), (0xE0, 1), (0xE3, 1), (0xE8, 1)] ++ verbatimArities

/-- A complete instruction: an opcode and exactly its operands. -/
inductive IsWord : Bytes → Prop
  /-- A note: its velocity, and an argument byte whose top two bits count the bytes of
  the length behind it. -/
  | note {velocity arg : UInt8} {lengthBytes : Bytes} (hv : velocity < 0x80)
      (hl : lengthBytes.length = arg.toNat / 64) : IsWord (velocity :: arg :: lengthBytes)
  /-- Any other opcode. -/
  | fixed {opcode : UInt8} {operands : Bytes}
      (h : (opcode, operands.length) ∈ operandCounts) : IsWord (opcode :: operands)

/-- The opcode at the end of a track. -/
def endOpcode : UInt8 := 0x98

/-- An opcode that starts no word and does not end the track either. -/
def IsUnassigned (opcode : UInt8) : Prop :=
  0x80 ≤ opcode ∧ opcode ≠ endOpcode ∧ opcode ∉ operandCounts.map Prod.fst

instance (opcode : UInt8) : Decidable (IsUnassigned opcode) :=
  inferInstanceAs (Decidable (_ ∧ _ ∧ _))

/-- The stream begins with the words, one behind the other, and `next` is the byte
directly behind them. Anything may follow. -/
def Spells (stream : Bytes) (words : List Bytes) (next : UInt8) : Prop :=
  (∀ w ∈ words, IsWord w) ∧ ∃ rest, stream = words.flatten ++ next :: rest

/-! ### Operand counts of operations -/

/-- The number of operand bytes of an operation, if every opcode of it has that many. -/
def Operation.operandCount? : Operation → Option Nat
  | fixedDelay _ | repeatDelay | loopStart => some 0
  | addDelay | delay8 | setOctave | tempo | program | controller _ => some 1
  | delay16 | pitchBend => some 2
  | verbatim arity => some arity
  | note | endOfTrack | unknown => none

theorem operandCount?_of_mem {opcode : UInt8} {count : Nat}
    (h : (opcode, count) ∈ operandCounts) :
    (Operation.ofOpcode opcode).operandCount? = some count := by
  have all : ∀ p ∈ operandCounts, (Operation.ofOpcode p.1).operandCount? = some p.2 := by
    decide +kernel
  exact all _ h

theorem ofOpcode_eq_note {opcode : UInt8} (h : opcode < 0x80) :
    Operation.ofOpcode opcode = .note := by
  rw [Operation.ofOpcode, if_pos h]

theorem ofOpcode_eq_unknown_iff {opcode : UInt8} :
    Operation.ofOpcode opcode = .unknown ↔ IsUnassigned opcode := by
  refine forall_byte ?_ opcode
  decide +kernel

/-- With all its operands in place, an operation gives an instruction. -/
theorem Instruction.exists_ofOperands {opcode : UInt8} {o : Operation} {operands : Bytes}
    (h : o.operandCount? = some operands.length) :
    ∃ i, Instruction.ofOperands opcode o operands = some (i, []) := by
  cases o with
  | note => cases h
  | endOfTrack => cases h
  | unknown => cases h
  | verbatim arity =>
    have hsplit : splitExact arity operands = some (operands, []) :=
      splitExact_eq_some_iff.mpr ⟨by simp, (Option.some.inj h).symm⟩
    refine ⟨.verbatim opcode operands, ?_⟩
    rw [ofOperands, hsplit, Option.map_some]
  | fixedDelay _ | repeatDelay | loopStart =>
    obtain rfl := List.length_eq_zero_iff.mp (Option.some.inj h).symm
    exact ⟨_, rfl⟩
  | addDelay | delay8 | setOctave | tempo | program | controller _ =>
    obtain ⟨a, rfl⟩ := List.length_eq_one_iff.mp (Option.some.inj h).symm
    exact ⟨_, rfl⟩
  | delay16 | pitchBend =>
    obtain ⟨a, b, rfl⟩ := List.length_eq_two.mp (Option.some.inj h).symm
    exact ⟨_, rfl⟩

/-! ### One step -/

/-- A word is the bytes of an instruction whose operands belong to its opcode. -/
theorem IsWord.exists_wellFormed {w : Bytes} (h : IsWord w) :
    ∃ i : Instruction, i.WellFormed ∧ i.bytes = w := by
  cases h with
  | @note velocity arg lengthBytes hv hl => exact ⟨.note velocity arg lengthBytes, ⟨hv, hl⟩, rfl⟩
  | @fixed opcode operands h =>
    have hcount := operandCount?_of_mem h
    obtain ⟨i, hi⟩ := Instruction.exists_ofOperands hcount
    obtain ⟨hbytes, hwell⟩ := Instruction.bytes_of_ofOperands hi
    rw [List.append_nil] at hbytes
    exact ⟨i, hwell, hbytes.symm⟩

/-- The bytes of an instruction whose operands belong to its opcode are a word. -/
theorem Instruction.WellFormed.isWord {i : Instruction} (h : i.WellFormed) :
    IsWord i.bytes := by
  cases i with
  | note velocity arg lengthBytes => exact .note h.1 h.2
  | fixedDelay index =>
    refine .fixed ?_
    revert index
    decide
  | controller dial value => cases dial <;> exact .fixed (by simp [operandCounts, Dial.opcode])
  | verbatim opcode args =>
    have hmem := Operation.hasOpcode_ofOpcode opcode
    rw [show Operation.ofOpcode opcode = .verbatim args.length from h] at hmem
    exact .fixed (List.mem_append_right _ hmem)
  | _ => exact .fixed (by simp [operandCounts])

/-- Whatever is read is a word. -/
theorem Front.isWord_bytes {bytes rest : Bytes} {i : Instruction}
    (h : Front.ofBytes bytes = .instruction i rest) : IsWord i.bytes :=
  (Front.ofBytes_eq_instruction h).2.isWord

/-- The bytes of an instruction whose operands belong to its opcode are read as it. -/
theorem Instruction.WellFormed.front_ofBytes {i : Instruction} (h : i.WellFormed)
    (rest : Bytes) : Front.ofBytes (i.bytes ++ rest) = .instruction i rest := by
  cases i with
  | note velocity arg lengthBytes =>
    have hsplit : splitExact (lengthCount arg) (lengthBytes ++ rest) =
        some (lengthBytes, rest) := splitExact_eq_some_iff.mpr ⟨rfl, h.2⟩
    simp only [bytes, List.cons_append, Front.ofBytes, ofOpcode_eq_note h.1, ofOperands, hsplit,
      Option.map_some]
  | fixedDelay index =>
    have all : ∀ index : Fin 16,
        Operation.ofOpcode (UInt8.ofNat (0x80 + index.val)) = .fixedDelay index := by
      decide
    simp only [bytes, List.cons_append, List.nil_append, Front.ofBytes, all index, ofOperands]
  | verbatim opcode args =>
    have hopcode : Operation.ofOpcode opcode = .verbatim args.length := h
    have hsplit : splitExact args.length (args ++ rest) = some (args, rest) :=
      splitExact_eq_some_iff.mpr ⟨rfl, rfl⟩
    simp only [bytes, List.cons_append, Front.ofBytes, hopcode, ofOperands, hsplit,
      Option.map_some]
  | controller dial value => cases dial <;> rfl
  | _ => rfl

theorem Front.ofBytes_eq_endOfTrack_iff {bytes rest : Bytes} :
    Front.ofBytes bytes = .endOfTrack rest ↔ bytes = endOpcode :: rest := by
  constructor
  · intro h
    cases bytes with
    | nil => cases h
    | cons opcode tail =>
      have hop := Operation.hasOpcode_ofOpcode opcode
      rw [Front.ofBytes] at h
      split at h
      · next ho =>
        rw [ho] at hop
        cases h
        rw [show opcode = endOpcode from hop]
      · cases h
      · split at h <;> cases h
  · rintro rfl
    rfl

theorem Front.ofBytes_eq_unknown_iff {bytes : Bytes} {opcode : UInt8} :
    Front.ofBytes bytes = .unknown opcode ↔
      IsUnassigned opcode ∧ ∃ rest, bytes = opcode :: rest := by
  constructor
  · intro h
    cases bytes with
    | nil => cases h
    | cons first tail =>
      rw [Front.ofBytes] at h
      split at h
      · cases h
      · next ho =>
        cases h
        exact ⟨ofOpcode_eq_unknown_iff.mp ho, tail, rfl⟩
      · split at h <;> cases h
  · rintro ⟨hu, rest, rfl⟩
    rw [Front.ofBytes, ofOpcode_eq_unknown_iff.mpr hu]

/-! ### Whole streams -/

theorem flatten_map_bytes (is : List Instruction) :
    (is.map Instruction.bytes).flatten = streamBytes is := by
  rw [streamBytes, List.flatMap_def]

theorem exists_wellFormed_of_words {words : List Bytes} (h : ∀ w ∈ words, IsWord w) :
    ∃ is : List Instruction, (∀ i ∈ is, i.WellFormed) ∧ is.map Instruction.bytes = words := by
  induction words with
  | nil => exact ⟨[], by simp, rfl⟩
  | cons w words ih =>
    obtain ⟨hword, hwords⟩ := List.forall_mem_cons.mp h
    obtain ⟨i, hi, rfl⟩ := hword.exists_wellFormed
    obtain ⟨is, his, rfl⟩ := ih hwords
    exact ⟨i :: is, List.forall_mem_cons.mpr ⟨hi, his⟩, rfl⟩

/-- Instructions in front of any stream are listed as they are, and nothing behind them is
looked at on the way. -/
theorem Listing.ofBytes_streamBytes_append {is : List Instruction}
    (h : ∀ i ∈ is, i.WellFormed) (rest : Bytes) :
    Listing.ofBytes (streamBytes is ++ rest) =
      ⟨is ++ (Listing.ofBytes rest).instructions, (Listing.ofBytes rest).ending⟩ := by
  induction is with
  | nil => rfl
  | cons i is ih =>
    obtain ⟨hi, his⟩ := List.forall_mem_cons.mp h
    rw [streamBytes_cons, List.append_assoc,
      Listing.ofBytes_of_instruction (hi.front_ofBytes _), ih his]
    rfl

theorem Listing.ofBytes_flatten_append {words : List Bytes} (h : ∀ w ∈ words, IsWord w) :
    ∃ is : List Instruction, is.map Instruction.bytes = words ∧
      ∀ rest, Listing.ofBytes (words.flatten ++ rest) =
        ⟨is ++ (Listing.ofBytes rest).instructions, (Listing.ofBytes rest).ending⟩ := by
  obtain ⟨is, his, rfl⟩ := exists_wellFormed_of_words h
  refine ⟨is, rfl, ?_⟩
  intro rest
  rw [flatten_map_bytes]
  exact Listing.ofBytes_streamBytes_append his rest

/-- What ends a listing stands behind its words, and every instruction of it is a word. -/
theorem Listing.spells_of_ending (bytes : Bytes) :
    let words := (Listing.ofBytes bytes).instructions.map Instruction.bytes
    match (Listing.ofBytes bytes).ending with
    | .complete _ => Spells bytes words endOpcode
    | .unknown opcode => IsUnassigned opcode ∧ Spells bytes words opcode
    | .truncated => True := by
  -- Along the recursion of `ofBytes`: a word in front changes neither the ending nor the
  -- byte behind the words.
  fun_induction Listing.ofBytes bytes with
  | case1 bytes i rest front _ following ih =>
    have hword := Front.isWord_bytes front
    have hbytes := (Front.ofBytes_eq_instruction front).1
    have hcons : ∀ {words next}, Spells rest words next →
        Spells bytes (i.bytes :: words) next := by
      rintro words next ⟨hwords, tail, htail⟩
      refine ⟨List.forall_mem_cons.mpr ⟨hword, hwords⟩, tail, ?_⟩
      rw [hbytes, htail, List.flatten_cons, List.append_assoc]
    revert ih
    simp only [List.map_cons]
    cases following.ending with
    | complete _ => exact hcons
    | unknown _ => exact fun ih => ⟨ih.1, hcons ih.2⟩
    | truncated => exact id
  | case2 bytes rest front =>
    exact ⟨by simp, rest, Front.ofBytes_eq_endOfTrack_iff.mp front⟩
  | case3 bytes opcode front =>
    obtain ⟨hu, rest, hrest⟩ := Front.ofBytes_eq_unknown_iff.mp front
    exact ⟨hu, by simp, rest, hrest⟩
  | case4 => trivial

/-- In every listed instruction the opcode and the operands belong together. -/
theorem Listing.wellFormed_of_mem {bytes : Bytes} {i : Instruction}
    (h : i ∈ (Listing.ofBytes bytes).instructions) : i.WellFormed := by
  fun_induction Listing.ofBytes bytes with
  | case1 bytes first rest front _ following ih =>
    rcases List.mem_cons.mp h with rfl | h
    · exact (Front.ofBytes_eq_instruction front).2
    · exact ih h
  | case2 | case3 | case4 => cases h

theorem Listing.wellFormed_of_eq {bytes : Bytes} {is : List Instruction} {ending : Ending}
    (h : Listing.ofBytes bytes = ⟨is, ending⟩) : ∀ i ∈ is, i.WellFormed := by
  intro i hi
  have hmem : i ∈ (Listing.ofBytes bytes).instructions := by
    rw [h]
    exact hi
  exact Listing.wellFormed_of_mem hmem

/-- Words up to the end opcode are listed as just these words, whatever stream they are
spelled by. -/
theorem Listing.ofBytes_of_end {words : List Bytes} (h : ∀ w ∈ words, IsWord w) :
    ∃ is : List Instruction, is.map Instruction.bytes = words ∧
      ∀ rest, Listing.ofBytes (words.flatten ++ endOpcode :: rest) = ⟨is, .complete rest⟩ := by
  obtain ⟨is, hbytes, hlist⟩ := Listing.ofBytes_flatten_append h
  refine ⟨is, hbytes, ?_⟩
  intro rest
  rw [hlist, Listing.ofBytes_of_endOfTrack (Front.ofBytes_eq_endOfTrack_iff.mpr rfl),
    List.append_nil]

/-- The bytes of instructions up to the end opcode are listed as these instructions. -/
theorem Listing.ofBytes_streamBytes {is : List Instruction} (h : ∀ i ∈ is, i.WellFormed)
    (rest : Bytes) :
    Listing.ofBytes (streamBytes is ++ endOpcode :: rest) = ⟨is, .complete rest⟩ := by
  rw [Listing.ofBytes_streamBytes_append h,
    Listing.ofBytes_of_endOfTrack (Front.ofBytes_eq_endOfTrack_iff.mpr rfl), List.append_nil]

theorem Spells.ofBytes_of_end {stream : Bytes} {words : List Bytes}
    (h : Spells stream words endOpcode) :
    ∃ is rest, is.map Instruction.bytes = words ∧
      Listing.ofBytes stream = ⟨is, .complete rest⟩ := by
  obtain ⟨hwords, rest, rfl⟩ := h
  obtain ⟨is, hbytes, hlist⟩ := Listing.ofBytes_of_end hwords
  exact ⟨is, rest, hbytes, hlist rest⟩

/-- A stream that spells words up to an unassigned opcode is listed as these words and
refused at the opcode. -/
theorem Spells.ofBytes_of_unassigned {stream : Bytes} {words : List Bytes} {opcode : UInt8}
    (hu : IsUnassigned opcode) (h : Spells stream words opcode) :
    ∃ is, is.map Instruction.bytes = words ∧
      Listing.ofBytes stream = ⟨is, .unknown opcode⟩ := by
  obtain ⟨hwords, rest, rfl⟩ := h
  obtain ⟨is, hbytes, hlist⟩ := Listing.ofBytes_flatten_append hwords
  have hfront := Front.ofBytes_eq_unknown_iff.mpr ⟨hu, rest, rfl⟩
  refine ⟨is, hbytes, ?_⟩
  rw [hlist, Listing.ofBytes_of_unknown hfront, List.append_nil]

/-- A stream spells words up to the end opcode in at most one way. -/
theorem Spells.words_unique {stream : Bytes} {words words' : List Bytes}
    (h : Spells stream words endOpcode) (h' : Spells stream words' endOpcode) :
    words = words' := by
  obtain ⟨is, rest, rfl, hlist⟩ := h.ofBytes_of_end
  obtain ⟨is', rest', rfl, hlist'⟩ := h'.ofBytes_of_end
  rw [hlist] at hlist'
  cases hlist'
  rfl

/-- A stream that spells words still does when more bytes follow. -/
theorem Spells.append {stream : Bytes} {words : List Bytes} {next : UInt8}
    (h : Spells stream words next) (more : Bytes) : Spells (stream ++ more) words next := by
  obtain ⟨hwords, rest, rfl⟩ := h
  exact ⟨hwords, rest ++ more, by simp⟩

/-- The words and the byte behind them are part of the stream. -/
theorem Spells.length_lt {stream : Bytes} {words : List Bytes} {next : UInt8}
    (h : Spells stream words next) : words.flatten.length < stream.length := by
  obtain ⟨-, rest, rfl⟩ := h
  simp only [List.length_append, List.length_cons]
  omega

/-- The words and the byte behind them are all that has to be there. -/
theorem Spells.take {stream : Bytes} {words : List Bytes} {next : UInt8}
    (h : Spells stream words next) {n : Nat} (hn : words.flatten.length < n) :
    Spells (stream.take n) words next := by
  obtain ⟨hwords, rest, rfl⟩ := h
  refine ⟨hwords, rest.take (n - words.flatten.length - 1), ?_⟩
  rw [List.take_append, List.take_of_length_le (Nat.le_of_lt hn)]
  have hk : n - words.flatten.length = n - words.flatten.length - 1 + 1 := by omega
  rw [hk, List.take_succ_cons, Nat.add_sub_cancel]

/-! ### Decoding -/

/-- The track that instructions from `offset` on play, with the mark at its end. -/
def Context.decoded (ctx : Context) (offset : Nat) (s : State) (is : List Instruction) :
    Decoded :=
  let played := ctx.play offset s is
  { played with
    events := played.events ++ [.ofMeta played.state.tick (.text endMarker)] }

section Decode

variable {chunk : Chunk} {data : Bytes} {track : Nat} {tables : SideTables} {state : State}

theorem Chunk.decode_of_complete {is : List Instruction} {rest : Bytes}
    (h : Listing.ofBytes (data.drop chunk.streamStart) = ⟨is, .complete rest⟩) :
    chunk.decode data track tables state =
      .ok (Context.decoded ⟨tables, track⟩ chunk.streamStart state is) := by
  rw [Chunk.decode, h]
  rfl

theorem Chunk.decode_of_unknown {is : List Instruction} {opcode : UInt8}
    (h : Listing.ofBytes (data.drop chunk.streamStart) = ⟨is, .unknown opcode⟩) :
    chunk.decode data track tables state =
      .error (.unknownOpcode opcode (chunk.streamStart + streamSize is)) := by
  rw [Chunk.decode, h]

theorem Chunk.decode_of_truncated {is : List Instruction}
    (h : Listing.ofBytes (data.drop chunk.streamStart) = ⟨is, .truncated⟩) :
    chunk.decode data track tables state =
      .error (.truncated (max data.length chunk.streamStart) data.length) := by
  rw [Chunk.decode, h]

/-- A decoded track is what the instructions in front of its end opcode play. -/
theorem Chunk.decode_inv {d : Decoded} (h : chunk.decode data track tables state = .ok d) :
    ∃ is rest, Listing.ofBytes (data.drop chunk.streamStart) = ⟨is, .complete rest⟩ ∧
      d = Context.decoded ⟨tables, track⟩ chunk.streamStart state is := by
  rcases hlist : Listing.ofBytes (data.drop chunk.streamStart) with ⟨is, ending⟩
  cases ending with
  | complete rest =>
    rw [Chunk.decode_of_complete hlist] at h
    exact ⟨is, rest, rfl, (Except.ok.inj h).symm⟩
  | unknown opcode =>
    rw [Chunk.decode_of_unknown hlist] at h
    cases h
  | truncated =>
    rw [Chunk.decode_of_truncated hlist] at h
    cases h

/-- A track whose stream spells words up to the end opcode is what these words play. -/
theorem Chunk.decode_of_spells {words : List Bytes}
    (h : Spells (data.drop chunk.streamStart) words endOpcode) :
    ∃ is : List Instruction, is.map Instruction.bytes = words ∧
      chunk.decode data track tables state =
        .ok (Context.decoded ⟨tables, track⟩ chunk.streamStart state is) := by
  obtain ⟨is, rest, hbytes, hlist⟩ := h.ofBytes_of_end
  exact ⟨is, hbytes, Chunk.decode_of_complete hlist⟩

theorem length_flatten_map_bytes (is : List Instruction) :
    (is.map Instruction.bytes).flatten.length = streamSize is := by
  rw [flatten_map_bytes, length_streamBytes]

/-- The refusal of an unassigned opcode says where it stands. -/
theorem Chunk.decode_of_unassigned {words : List Bytes} {opcode : UInt8}
    (hu : IsUnassigned opcode) (h : Spells (data.drop chunk.streamStart) words opcode) :
    chunk.decode data track tables state =
      .error (.unknownOpcode opcode (chunk.streamStart + words.flatten.length)) := by
  obtain ⟨is, rfl, hlist⟩ := h.ofBytes_of_unassigned hu
  rw [Chunk.decode_of_unknown hlist, length_flatten_map_bytes]

/-- The three outcomes of decoding, each with what the stream spells. -/
theorem Chunk.decode_cases (chunk : Chunk) (data : Bytes) (track : Nat) (tables : SideTables)
    (state : State) :
    (∃ words d, Spells (data.drop chunk.streamStart) words endOpcode ∧
      chunk.decode data track tables state = .ok d) ∨
    (∃ words opcode, IsUnassigned opcode ∧ Spells (data.drop chunk.streamStart) words opcode ∧
      chunk.decode data track tables state =
        .error (.unknownOpcode opcode (chunk.streamStart + words.flatten.length))) ∨
    chunk.decode data track tables state =
      .error (.truncated (max data.length chunk.streamStart) data.length) := by
  have hspells := Listing.spells_of_ending (data.drop chunk.streamStart)
  rcases hlist : Listing.ofBytes (data.drop chunk.streamStart) with ⟨is, ending⟩
  rw [hlist] at hspells
  cases ending with
  | complete rest => exact Or.inl ⟨_, _, hspells, Chunk.decode_of_complete hlist⟩
  | unknown opcode =>
    exact Or.inr (Or.inl ⟨_, opcode, hspells.1, hspells.2,
      Chunk.decode_of_unassigned hspells.1 hspells.2⟩)
  | truncated => exact Or.inr (Or.inr (Chunk.decode_of_truncated hlist))

/-- A stream that spells no words up to the end opcode or to an unassigned one breaks off. -/
theorem Chunk.decode_of_not_spells
    (hend : ¬ ∃ words, Spells (data.drop chunk.streamStart) words endOpcode)
    (hunassigned : ¬ ∃ words opcode, IsUnassigned opcode ∧
      Spells (data.drop chunk.streamStart) words opcode) :
    chunk.decode data track tables state =
      .error (.truncated (max data.length chunk.streamStart) data.length) := by
  rcases Chunk.decode_cases chunk data track tables state with h | h | h
  · obtain ⟨words, -, hw, -⟩ := h
    exact absurd ⟨words, hw⟩ hend
  · obtain ⟨words, opcode, hu, hw, -⟩ := h
    exact absurd ⟨words, opcode, hu, hw⟩ hunassigned
  · exact h

/-- Cutting a file inside what its track is made of truncates the track there. -/
theorem Chunk.decode_take_of_le {words : List Bytes}
    (h : Spells (data.drop chunk.streamStart) words endOpcode) {n : Nat}
    (hn : n ≤ words.flatten.length) :
    chunk.decode (data.take (chunk.streamStart + n)) track tables state =
      .error (.truncated (chunk.streamStart + n) (chunk.streamStart + n)) := by
  have hlt := h.length_lt
  rw [List.length_drop] at hlt
  have hlen : (data.take (chunk.streamStart + n)).length = chunk.streamStart + n := by
    rw [List.length_take]
    omega
  have hdrop : (data.take (chunk.streamStart + n)).drop chunk.streamStart =
      (data.drop chunk.streamStart).take n := by
    rw [List.drop_take, Nat.add_sub_cancel_left]
  -- What a cut stream spells, the whole stream spells too, and in no more bytes.
  have hwhole : ∀ {words' next}, Spells ((data.drop chunk.streamStart).take n) words' next →
      Spells (data.drop chunk.streamStart) words' next ∧ words'.flatten.length < n := by
    intro words' next h'
    have happend := h'.append ((data.drop chunk.streamStart).drop n)
    rw [List.take_append_drop] at happend
    refine ⟨happend, Nat.lt_of_lt_of_le h'.length_lt ?_⟩
    rw [List.length_take]
    omega
  rw [Chunk.decode_of_not_spells, hlen, Nat.max_eq_left (Nat.le_add_right _ _)]
  · rintro ⟨words', h'⟩
    rw [hdrop] at h'
    obtain ⟨happend, hshort⟩ := hwhole h'
    rw [h.words_unique happend] at hn
    omega
  · rintro ⟨words', opcode, hu, h'⟩
    rw [hdrop] at h'
    obtain ⟨is, rest, -, hlist⟩ := h.ofBytes_of_end
    obtain ⟨is', -, hlist'⟩ := (hwhole h').1.ofBytes_of_unassigned hu
    rw [hlist] at hlist'
    cases hlist'

/-- What a chunk decodes to is settled by the words that it spells. -/
theorem Chunk.decode_congr {data' : Bytes} {words : List Bytes}
    (h : Spells (data.drop chunk.streamStart) words endOpcode)
    (h' : Spells (data'.drop chunk.streamStart) words endOpcode) :
    chunk.decode data' track tables state = chunk.decode data track tables state := by
  obtain ⟨hwords, rest, hrest⟩ := h
  obtain ⟨-, rest', hrest'⟩ := h'
  obtain ⟨is, -, hlist⟩ := Listing.ofBytes_of_end hwords
  have hstream := hlist rest
  have hstream' := hlist rest'
  rw [← hrest] at hstream
  rw [← hrest'] at hstream'
  rw [Chunk.decode_of_complete hstream, Chunk.decode_of_complete hstream']

/-- A file cut behind what its track is made of still holds the track. -/
theorem Chunk.decode_take_of_lt {words : List Bytes}
    (h : Spells (data.drop chunk.streamStart) words endOpcode) {n : Nat}
    (hn : words.flatten.length < n) :
    chunk.decode (data.take (chunk.streamStart + n)) track tables state =
      chunk.decode data track tables state := by
  refine Chunk.decode_congr h ?_
  rw [List.drop_take, Nat.add_sub_cancel_left]
  exact h.take hn

/-! ### The outcomes, exactly -/

theorem Chunk.decode_eq_ok_iff :
    (∃ d, chunk.decode data track tables state = .ok d) ↔
      ∃ words, Spells (data.drop chunk.streamStart) words endOpcode := by
  constructor
  · rintro ⟨d, hd⟩
    rcases Chunk.decode_cases chunk data track tables state with h | h | h
    · obtain ⟨words, -, hw, -⟩ := h
      exact ⟨words, hw⟩
    · obtain ⟨words, opcode, -, -, herror⟩ := h
      rw [hd] at herror
      cases herror
    · rw [hd] at h
      cases h
  · rintro ⟨words, hw⟩
    obtain ⟨is, -, hok⟩ := Chunk.decode_of_spells hw
    exact ⟨_, hok⟩

theorem Chunk.decode_eq_unknownOpcode_iff {opcode : UInt8} {offset : Nat} :
    chunk.decode data track tables state = .error (.unknownOpcode opcode offset) ↔
      ∃ words, IsUnassigned opcode ∧ Spells (data.drop chunk.streamStart) words opcode ∧
        offset = chunk.streamStart + words.flatten.length := by
  constructor
  · intro hd
    rcases Chunk.decode_cases chunk data track tables state with h | h | h
    · obtain ⟨words, d, -, hok⟩ := h
      rw [hd] at hok
      cases hok
    · obtain ⟨words, opcode', hu, hw, herror⟩ := h
      rw [hd] at herror
      cases herror
      exact ⟨words, hu, hw, rfl⟩
    · rw [hd] at h
      cases h
  · rintro ⟨words, hu, hw, rfl⟩
    exact Chunk.decode_of_unassigned hu hw

/-- Whether a track decodes, and the fault if it does not, is a matter of the file and the
chunk. -/
theorem Chunk.decode_outcome (track track' : Nat) (tables tables' : SideTables)
    (state state' : State) :
    (chunk.decode data track tables state).map (fun _ => ()) =
      (chunk.decode data track' tables' state').map (fun _ => ()) := by
  rcases hlist : Listing.ofBytes (data.drop chunk.streamStart) with ⟨is, ending⟩
  cases ending with
  | complete rest =>
    rw [Chunk.decode_of_complete hlist, Chunk.decode_of_complete hlist]
    rfl
  | unknown opcode => rw [Chunk.decode_of_unknown hlist, Chunk.decode_of_unknown hlist]
  | truncated => rw [Chunk.decode_of_truncated hlist, Chunk.decode_of_truncated hlist]

/-- **The opcode grammar.** A track decodes exactly if its stream spells words up to the end
opcode, and it does so in one way only; it is refused at an unassigned opcode exactly if
the stream spells words up to that; in all other cases the file breaks off. The outcome
depends on the file and the chunk alone, and so does the number of bytes that count: the
words with the end opcode are needed, and nothing behind them is looked at. -/
theorem Chunk.decode_grammar (chunk : Chunk) (data : Bytes) (track : Nat)
    (tables : SideTables) (state : State) :
    let stream := data.drop chunk.streamStart
    let result := chunk.decode data track tables state
    ((∃ d, result = .ok d) ↔ ∃ words, Spells stream words endOpcode) ∧
    (∀ words words', Spells stream words endOpcode → Spells stream words' endOpcode →
      words = words') ∧
    (∀ opcode offset, result = .error (.unknownOpcode opcode offset) ↔
      ∃ words, IsUnassigned opcode ∧ Spells stream words opcode ∧
        offset = chunk.streamStart + words.flatten.length) ∧
    ((¬ ∃ words, Spells stream words endOpcode) →
      (¬ ∃ words opcode, IsUnassigned opcode ∧ Spells stream words opcode) →
      result = .error (.truncated (max data.length chunk.streamStart) data.length)) ∧
    (∀ track' tables' state',
      (chunk.decode data track' tables' state').map (fun _ => ()) =
        result.map (fun _ => ())) ∧
    (∀ words, Spells stream words endOpcode → ∀ n,
      chunk.decode (data.take (chunk.streamStart + n)) track tables state =
        if words.flatten.length < n then result
        else .error (.truncated (chunk.streamStart + n) (chunk.streamStart + n))) := by
  refine ⟨Chunk.decode_eq_ok_iff, ?_, ?_, Chunk.decode_of_not_spells, ?_, ?_⟩
  · intro words words' hw hw'
    exact hw.words_unique hw'
  · intro opcode offset
    exact Chunk.decode_eq_unknownOpcode_iff
  · intro track' tables' state'
    exact Chunk.decode_outcome track' track tables' tables state' state
  · intro words hw n
    by_cases hn : words.flatten.length < n
    · rw [if_pos hn]
      exact Chunk.decode_take_of_lt hw hn
    · rw [if_neg hn]
      exact Chunk.decode_take_of_le hw (Nat.le_of_not_lt hn)

end Decode

end DseMidi.Dse
