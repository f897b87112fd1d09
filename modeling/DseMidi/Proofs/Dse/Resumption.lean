import DseMidi.Proofs.Dse.Locality

/-!
# DseMidi.Proofs.Dse.Resumption

**Where a track can be cut.** Between any two instructions: a run of two lists of instructions
is a run of the first and, from the state behind it, a run of the second
(`Context.play_append`). So the state is all that an instruction can know of those before it,
and of what stands behind it in the stream it knows nothing.

The second run stands further ahead in the file than it would by itself. That shows in the
positions of its warnings and faults, which are shifted by the size of the first, and nowhere
else (`Chunk.decode_resume`).
-/

namespace DseMidi.Dse

/-! ### Runs -/

theorem streamSize_append (is js : List Instruction) :
    streamSize (is ++ js) = streamSize is + streamSize js := by
  rw [← length_streamBytes, streamBytes_append, List.length_append, length_streamBytes,
    length_streamBytes]

/-- **A run in two parts.** The second part starts from the state behind the first. -/
theorem Context.play_append (ctx : Context) (offset : Nat) (s : State)
    (is js : List Instruction) :
    let first := ctx.play offset s is
    let second := ctx.play (offset + streamSize is) first.state js
    ctx.play offset s (is ++ js) =
      ⟨first.events ++ second.events, second.state, first.warnings ++ second.warnings⟩ := by
  induction is generalizing offset s with
  | nil => rfl
  | cons i is ih =>
    simp only [List.cons_append, play_cons, ih, streamSize_cons, Nat.add_assoc, List.append_assoc]

/-- The same for a whole track, whose second part could as well stand by itself where the first
one stands. -/
theorem Context.decoded_append (ctx : Context) (offset : Nat) (s : State)
    (is js : List Instruction) :
    let first := ctx.play offset s is
    let second := ctx.decoded offset first.state js
    ctx.decoded offset s (is ++ js) =
      ⟨first.events ++ second.events, second.state,
        first.warnings ++ second.warnings.map (Fault.shift (streamSize is))⟩ := by
  intro first second
  have hevents : (ctx.play (offset + streamSize is) first.state js).events =
      (ctx.play offset first.state js).events :=
    events_play_eq _ _
  have hwarnings : (ctx.play (offset + streamSize is) first.state js).warnings =
      (ctx.play offset first.state js).warnings.map (Fault.shift (streamSize is)) :=
    warnings_play_shift _ _
  have hstate : (ctx.play (offset + streamSize is) first.state js).state =
      (ctx.play offset first.state js).state :=
    (ctx.state_play _ _ js).trans (ctx.state_play _ _ js).symm
  rw [decoded, play_append]
  dsimp only
  rw [hevents, hwarnings, hstate, List.append_assoc]
  rfl

/-! ### Streams -/

section Resume

variable {chunk : Chunk} {before : Bytes} {is : List Instruction}

/-- Instructions in front of the stream of a track are played first, and a fault behind them is
the same fault, further ahead. -/
theorem Chunk.decode_streamBytes_append (hwell : ∀ i ∈ is, i.WellFormed)
    (hbefore : before.length = chunk.streamStart) (track : Nat) (tables : SideTables)
    (state : State) (rest : Bytes) :
    let first := Context.play ⟨tables, track⟩ chunk.streamStart state is
    chunk.decode (before ++ streamBytes is ++ rest) track tables state =
      match chunk.decode (before ++ rest) track tables first.state with
      | .ok second => .ok ⟨first.events ++ second.events, second.state,
          first.warnings ++ second.warnings.map (Fault.shift (streamSize is))⟩
      | .error fault => .error (fault.shift (streamSize is)) := by
  intro first
  have hdrop : ∀ bytes : Bytes, (before ++ bytes).drop chunk.streamStart = bytes :=
    fun bytes => List.drop_left' hbefore
  have hlist := Listing.ofBytes_streamBytes_append hwell rest
  have hrest := hdrop rest
  have hwhole := hdrop (streamBytes is ++ rest)
  rw [← hwhole] at hlist
  rw [List.append_assoc]
  rcases hlisting : Listing.ofBytes rest with ⟨js, ending⟩
  rw [hlisting] at hlist
  rw [← hrest] at hlisting
  cases ending with
  | complete tail =>
    rw [decode_of_complete hlist, decode_of_complete hlisting, Context.decoded_append]
  | unknown opcode =>
    rw [decode_of_unknown hlist, decode_of_unknown hlisting, streamSize_append]
    simp only [Fault.shift]
    congr 2
    omega
  | truncated =>
    rw [decode_of_truncated hlist, decode_of_truncated hlisting]
    simp only [Fault.shift, List.length_append, length_streamBytes]
    congr 2
    · omega
    · omega

/-- **State is all that is carried over.** A track of words from any state leaves a state, and a
stream behind the same words goes on from it as it would by itself: with the same events, the
same state at its end, and the same warnings or the same fault, whose positions are shifted by
the size of the words. -/
theorem Chunk.decode_resume {words : List Bytes} (hwords : ∀ w ∈ words, IsWord w)
    (hbefore : before.length = chunk.streamStart) (track : Nat) (tables : SideTables)
    (state : State) :
    ∃ events middle warnings,
      chunk.decode (before ++ words.flatten ++ [endOpcode]) track tables state =
        .ok ⟨events ++ [.ofMeta middle.tick (.text endMarker)], middle, warnings⟩ ∧
      (∀ rest second, chunk.decode (before ++ rest) track tables middle = .ok second →
        chunk.decode (before ++ words.flatten ++ rest) track tables state =
          .ok ⟨events ++ second.events, second.state,
            warnings ++ second.warnings.map (Fault.shift words.flatten.length)⟩) ∧
      (∀ rest fault, chunk.decode (before ++ rest) track tables middle = .error fault →
        chunk.decode (before ++ words.flatten ++ rest) track tables state =
          .error (fault.shift words.flatten.length)) := by
  obtain ⟨is, hwell, rfl⟩ := exists_wellFormed_of_words hwords
  have hdrop : (before ++ streamBytes is ++ [endOpcode]).drop chunk.streamStart =
      streamBytes is ++ [endOpcode] := by
    rw [List.append_assoc]
    exact List.drop_left' hbefore
  have hlist := Listing.ofBytes_streamBytes hwell []
  rw [← hdrop] at hlist
  rw [flatten_map_bytes, length_streamBytes]
  refine ⟨_, _, _, decode_of_complete hlist, ?_, ?_⟩
  · intro rest second hsecond
    have happend := decode_streamBytes_append hwell hbefore track tables state rest
    rw [happend, hsecond]
  · intro rest fault hfault
    have happend := decode_streamBytes_append hwell hbefore track tables state rest
    rw [happend, hfault]

end Resume

/-- An octave, a first bend and a delay. -/
def bentInstructions : List Instruction :=
  [.setOctave 5, .pitchBend 0x10 0x00, .delay8 48]

/-- A second bend, which sets no range, comes where the first part left the cursor; the warning
behind it and an unassigned opcode are found as far ahead as they stand. -/
theorem Chunk.decode_resume_bentInstructions :
    ∃ events middle warnings,
      (⟨0, 0, 0⟩ : Chunk).decode ([0, 0, 0, 0] ++ streamBytes bentInstructions ++ [0x98]) 0
          .default .initial =
        .ok ⟨events ++ [.ofMeta middle.tick (.text endMarker)], middle, warnings⟩ ∧
      middle = ⟨96, 5, 0, 1, 48, true⟩ ∧
      (⟨0, 0, 0⟩ : Chunk).decode
          ([0, 0, 0, 0] ++ streamBytes bentInstructions ++ [0xD7, 0, 0, 0xA4, 0, 0x98]) 0
          .default .initial =
        .ok ⟨events ++ [⟨96, 0, .pitchBend 0 0x40⟩, .ofMeta 96 (.text endMarker)], middle,
          warnings ++ [.ignoredTempo 0 14]⟩ ∧
      (⟨0, 0, 0⟩ : Chunk).decode ([0, 0, 0, 0] ++ streamBytes bentInstructions ++ [0x99, 0xFE]) 0
          .default .initial = .error (.unknownOpcode 0xFE 12) := by
  have hwell : ∀ i ∈ bentInstructions, i.WellFormed := by decide
  have hwords : ∀ w ∈ bentInstructions.map Instruction.bytes, IsWord w :=
    List.forall_mem_map.mpr fun i hi => (hwell i hi).isWord
  have hbefore : ([0, 0, 0, 0] : Bytes).length = (⟨0, 0, 0⟩ : Chunk).streamStart := rfl
  obtain ⟨events, middle, warnings, hfirst, hsecond, hfault⟩ :=
    Chunk.decode_resume hwords hbefore 0 .default .initial
  rw [flatten_map_bytes] at hfirst hsecond hfault
  have hplayed : (⟨0, 0, 0⟩ : Chunk).decode
      ([0, 0, 0, 0] ++ streamBytes bentInstructions ++ [0x98]) 0 .default .initial =
        .ok (Context.decoded ⟨.default, 0⟩ 4 .initial bentInstructions) :=
    Chunk.decode_of_complete (Listing.ofBytes_streamBytes hwell [])
  obtain rfl : middle = ⟨96, 5, 0, 1, 48, true⟩ :=
    congrArg Decoded.state (Except.ok.inj (hfirst.symm.trans hplayed))
  have hbent : ∀ i ∈ [Instruction.pitchBend 0 0, .tempo 0], i.WellFormed := by decide
  have hlist := Listing.ofBytes_streamBytes hbent []
  have hbend : (⟨0, 0, 0⟩ : Chunk).decode [0, 0, 0, 0, 0xD7, 0, 0, 0xA4, 0, 0x98] 0 .default
      ⟨96, 5, 0, 1, 48, true⟩ =
        .ok (Context.decoded ⟨.default, 0⟩ 4 ⟨96, 5, 0, 1, 48, true⟩
          [.pitchBend 0 0, .tempo 0]) :=
    Chunk.decode_of_complete hlist
  have hloop : Spells [0x99, 0xFE] [[0x99]] 0xFE := by
    refine ⟨?_, [], rfl⟩
    intro w hw
    obtain rfl := List.mem_singleton.mp hw
    exact .fixed (by decide)
  have hunassigned : IsUnassigned 0xFE := by decide
  exact ⟨events, _, warnings, hfirst, rfl, hsecond _ _ hbend,
    hfault _ _ (Chunk.decode_of_unassigned hunassigned hloop)⟩

end DseMidi.Dse
