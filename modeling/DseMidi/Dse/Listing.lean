import DseMidi.Dse.Instruction

/-!
# DseMidi.Dse.Listing

**An opcode stream taken apart**: the instructions up to the first thing that is not
one, and what that thing is.

Taking apart does not look at any player state, tables or track number: which of the
three endings a stream has, and how many of its bytes count, depend on its bytes
alone. `Listing.exists_streamBytes_append` says that the instructions are the stream's
first bytes and that nothing is passed over on the way.
-/

namespace DseMidi.Dse

/-- The bytes of several instructions. -/
def streamBytes (instructions : List Instruction) : Bytes :=
  instructions.flatMap Instruction.bytes

/-- The number of bytes of several instructions. -/
def streamSize : List Instruction → Nat
  | [] => 0
  | i :: rest => i.size + streamSize rest

@[simp] theorem streamBytes_nil : streamBytes [] = [] := rfl

@[simp] theorem streamBytes_cons (i : Instruction) (is : List Instruction) :
    streamBytes (i :: is) = i.bytes ++ streamBytes is := rfl

@[simp] theorem streamBytes_append (is js : List Instruction) :
    streamBytes (is ++ js) = streamBytes is ++ streamBytes js := by
  simp [streamBytes]

@[simp] theorem streamSize_nil : streamSize [] = 0 := rfl

@[simp] theorem streamSize_cons (i : Instruction) (is : List Instruction) :
    streamSize (i :: is) = i.size + streamSize is := rfl

theorem length_streamBytes (is : List Instruction) :
    (streamBytes is).length = streamSize is := by
  induction is with
  | nil => rfl
  | cons i is ih => simp [ih, Instruction.size]

/-! ### Endings -/

/-- What follows the instructions of a stream. -/
inductive Ending
  /-- The end of the track; `rest` is not part of it. -/
  | complete (rest : Bytes)
  /-- An opcode that is not assigned. -/
  | unknown (opcode : UInt8)
  /-- The end of the data, perhaps inside an instruction. -/
  | truncated

/-- The instructions of a stream and what follows them. -/
structure Listing where
  instructions : List Instruction
  ending : Ending

/-- Takes a stream apart. -/
def Listing.ofBytes (bytes : Bytes) : Listing :=
  match h : Front.ofBytes bytes with
  | .instruction i rest =>
    have := Front.length_lt_of_ofBytes h
    let following := Listing.ofBytes rest
    { following with instructions := i :: following.instructions }
  | .endOfTrack rest => ⟨[], .complete rest⟩
  | .unknown opcode => ⟨[], .unknown opcode⟩
  | .truncated => ⟨[], .truncated⟩
termination_by bytes.length

/-! ### Unfolding -/

theorem Listing.ofBytes_of_instruction {bytes rest : Bytes} {i : Instruction}
    (h : Front.ofBytes bytes = .instruction i rest) :
    Listing.ofBytes bytes =
      ⟨i :: (Listing.ofBytes rest).instructions, (Listing.ofBytes rest).ending⟩ := by
  rw [Listing.ofBytes]
  split <;> simp_all

theorem Listing.ofBytes_of_endOfTrack {bytes rest : Bytes}
    (h : Front.ofBytes bytes = .endOfTrack rest) :
    Listing.ofBytes bytes = ⟨[], .complete rest⟩ := by
  rw [Listing.ofBytes]
  split <;> simp_all

theorem Listing.ofBytes_of_unknown {bytes : Bytes} {opcode : UInt8}
    (h : Front.ofBytes bytes = .unknown opcode) :
    Listing.ofBytes bytes = ⟨[], .unknown opcode⟩ := by
  rw [Listing.ofBytes]
  split <;> simp_all

theorem Listing.ofBytes_of_truncated {bytes : Bytes} (h : Front.ofBytes bytes = .truncated) :
    Listing.ofBytes bytes = ⟨[], .truncated⟩ := by
  rw [Listing.ofBytes]
  split <;> simp_all

/-- The instructions of a stream are its first bytes. -/
theorem Listing.exists_streamBytes_append (bytes : Bytes) :
    ∃ rest, bytes = streamBytes (Listing.ofBytes bytes).instructions ++ rest := by
  -- Along the recursion of `ofBytes`; only its first case has an instruction to show.
  fun_induction Listing.ofBytes bytes with
  | case1 bytes i rest front _ _ ih =>
    obtain ⟨tail, ih⟩ := ih
    refine ⟨tail, ?_⟩
    rw [streamBytes_cons, List.append_assoc, ← ih]
    exact (Front.ofBytes_eq_instruction front).1
  | case2 bytes | case3 bytes | case4 bytes => exact ⟨bytes, rfl⟩

end DseMidi.Dse
