import DseMidi.Proofs.Dse.Timeline
import DseMidi.Proofs.Smf.Reading

/-!
# DseMidi.Proofs.Dse.Messages

**What a track's events say**, as far as a written file has to hold it: texts are a few bytes
long, tempos have three, and no event is of a type that the reader would change
(`Context.portable_of_mem_play`). None of the texts is the mark that ends a track
(`Context.message_ne_endMarker_of_mem_play`).
-/

namespace DseMidi

theorem portable_text {data : Bytes} (h : data.length < 2 ^ 28) : (Message.text data).Portable :=
  ⟨by decide, fun h51 => absurd h51 (by decide), h⟩

theorem portable_tempo (micros : Nat) : (Message.tempo micros).Portable := by
  refine ⟨by decide, ?_, ?_⟩
  · intro _
    exact Nat.le_of_eq (length_beBytes 3 micros)
  · rw [length_beBytes]
    decide

namespace Dse

theorem length_verbatimText (opcode : UInt8) (args : Bytes) :
    (verbatimText opcode args).length = 2 + 3 * args.length := by
  have hargs : (args.flatMap fun b => ':' :: hexByte b).length = 3 * args.length := by
    induction args with
    | nil => rfl
    | cons b args ih =>
      have hbyte : (hexByte b).length = 2 := rfl
      rw [List.flatMap_cons, List.length_append, ih, List.length_cons, List.length_cons, hbyte]
      omega
  rw [verbatimText, asciiBytes, List.length_map, List.length_append, hargs]
  rfl

/-- The texts of instructions are short, and nothing else of them can be too long for the
reader. -/
theorem Context.portable_of_mem_events {ctx : Context} {s : State} {i : Instruction}
    {e : Event} (hi : i.WellFormed) (h : e ∈ ctx.events s i) : e.message.Portable := by
  cases i with
  | note velocity arg lengthBytes =>
    obtain ⟨key, -, rfl | rfl⟩ := events_note_inv h
    · trivial
    · trivial
  | tempo bpm =>
    obtain ⟨micros, -, rfl⟩ := events_tempo_inv h
    exact portable_tempo micros
  | pitchBend high low =>
    rcases events_pitchBend_inv h with ⟨-, h⟩ | ⟨lsb, msb, rfl⟩
    · obtain ⟨-, number, -, value, hmessage⟩ := bendRangeEvents_inv h
      rw [hmessage]
      trivial
    · trivial
  | loopStart =>
    obtain rfl := List.mem_singleton.mp h
    exact portable_text (by decide)
  | verbatim opcode args =>
    obtain rfl := List.mem_singleton.mp h
    have hopcode := Operation.hasOpcode_ofOpcode opcode
    have hoperation : Operation.ofOpcode opcode = .verbatim args.length := hi
    have hshort : ∀ p ∈ verbatimArities, p.2 ≤ 5 := by decide
    rw [hoperation] at hopcode
    have hargs : args.length ≤ 5 := hshort _ hopcode
    refine portable_text ?_
    rw [length_verbatimText]
    omega
  | program _ | controller _ _ =>
    obtain rfl := List.mem_singleton.mp h
    trivial
  | fixedDelay _ | repeatDelay | addDelay _ | delay8 _ | delay16 _ _ | setOctave _ => cases h

theorem Context.portable_of_mem_play {ctx : Context} {offset : Nat} {s : State}
    {is : List Instruction} {e : Event} (his : ∀ i ∈ is, i.WellFormed)
    (h : e ∈ (ctx.play offset s is).events) : e.message.Portable := by
  obtain ⟨i, hi, s', he⟩ := exists_of_mem_play h
  exact portable_of_mem_events (his i hi) he

/-! ### The mark at the end -/

theorem verbatimText_ne_endMarker (opcode : UInt8) (args : Bytes) :
    verbatimText opcode args ≠ endMarker := by
  intro h
  have hlength := congrArg List.length h
  rw [length_verbatimText, show endMarker.length = 3 from rfl] at hlength
  omega

/-- No instruction leaves the mark of a track's end. -/
theorem Context.message_ne_endMarker_of_mem_play {ctx : Context} {offset : Nat} {s : State}
    {is : List Instruction} {e : Event} (h : e ∈ (ctx.play offset s is).events) :
    e.message ≠ .text endMarker := by
  obtain ⟨i, -, s', h⟩ := exists_of_mem_play h
  cases i with
  | note velocity arg lengthBytes =>
    obtain ⟨key, -, rfl | rfl⟩ := events_note_inv h
    · simp [Message.text]
    · simp [Event.noteOff, Message.text]
  | tempo bpm =>
    obtain ⟨micros, -, rfl⟩ := events_tempo_inv h
    simp [Event.ofMeta, Message.tempo, Message.text]
  | pitchBend high low =>
    rcases events_pitchBend_inv h with ⟨-, h⟩ | ⟨lsb, msb, rfl⟩
    · obtain ⟨-, number, -, value, hmessage⟩ := bendRangeEvents_inv h
      simp [hmessage, Message.text]
    · simp [Message.text]
  | loopStart =>
    obtain rfl := List.mem_singleton.mp h
    show Message.text loopMarker ≠ .text endMarker
    decide
  | verbatim opcode args =>
    obtain rfl := List.mem_singleton.mp h
    simp [Event.ofMeta, Message.text, verbatimText_ne_endMarker]
  | program _ | controller _ _ =>
    obtain rfl := List.mem_singleton.mp h
    simp [Message.text]
  | fixedDelay _ | repeatDelay | addDelay _ | delay8 _ | delay16 _ _ | setOctave _ => cases h

end Dse

end DseMidi
