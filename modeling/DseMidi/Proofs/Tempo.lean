import DseMidi.Proofs.Loading

/-!
# DseMidi.Proofs.Tempo

**Tempos from the stream to the loaded track.** The tempo events of a loaded track are those
of the tempo opcodes of its stream, one for each with a tempo other than zero, in stream
order. The number of microseconds of each is kept in three bytes, which is enough for four
beats in a minute and not for fewer: there the number loses its top byte.
-/

namespace DseMidi

/-! ### Tempos in streams and in tracks -/

/-- The tempo that a word of a stream asks for, if it does; zero is no tempo. -/
def tempoOperand? : Bytes → Option UInt8
  | [opcode, bpm] => if opcode = 0xA4 ∧ bpm ≠ 0 then some bpm else none
  | _ => none

theorem ne_zero_of_tempoOperand? {word : Bytes} {bpm : UInt8}
    (h : tempoOperand? word = some bpm) : bpm ≠ 0 := by
  rw [tempoOperand?.eq_def] at h
  split at h
  · split at h
    · next hbpm =>
      cases h
      exact hbpm.2
    · cases h
  · cases h

/-- The payload of a tempo event. -/
def Event.tempoData? (e : Event) : Option Bytes :=
  match e.message with
  | .metaEvent .tempo data => some data
  | _ => none

/-- The three low bytes of the microseconds in a quarter note. -/
def tempoPayload (bpm : UInt8) : Bytes :=
  beBytes 3 (60000000 / bpm.toNat)

theorem Event.atCursor_of_tempoData? (e : Event) (h : e.tempoData?.isSome) : e.atCursor := by
  rcases e with ⟨tick, channel, message⟩
  cases message with
  | metaEvent type data => rfl
  | _ => cases h

theorem Event.tempoData?_onChannel (e : Event) (channel : UInt8) :
    (e.onChannel channel).tempoData? = e.tempoData? := by
  rw [tempoData?, tempoData?, onChannel_message]

namespace Dse

/-! ### From instructions to events -/

/-- Only a tempo instruction asks for a tempo. -/
theorem tempoOperand?_bytes {i : Instruction} (h : i.WellFormed) :
    tempoOperand? i.bytes =
      match i with
      | .tempo bpm => if bpm = 0 then none else some bpm
      | _ => none := by
  cases i with
  | tempo bpm => by_cases hbpm : bpm = 0 <;> simp [Instruction.bytes, tempoOperand?, hbpm]
  | note velocity arg lengthBytes =>
    have hvelocity : velocity ≠ 0xA4 := by
      rintro rfl
      exact absurd h.1 (by decide)
    cases lengthBytes <;> simp [Instruction.bytes, tempoOperand?, hvelocity]
  | verbatim opcode args =>
    have hopcode : opcode ≠ 0xA4 := by
      rintro rfl
      have hoperation : Operation.ofOpcode 0xA4 = .verbatim args.length := h
      cases hoperation
    rcases args with _ | ⟨a, _ | ⟨b, args⟩⟩ <;>
      simp [Instruction.bytes, tempoOperand?, hopcode]
  | controller dial value => cases dial <;> rfl
  | _ => rfl

/-- An instruction gives the tempo event that its word asks for. -/
theorem Context.filterMap_tempoData?_events (ctx : Context) (s : State) {i : Instruction}
    (h : i.WellFormed) :
    (ctx.events s i).filterMap Event.tempoData? =
      ((tempoOperand? i.bytes).map tempoPayload).toList := by
  rw [tempoOperand?_bytes h]
  cases i with
  | tempo bpm =>
    by_cases hbpm : bpm = 0
    · simp [events, quarterMicros?, hbpm]
    · simp [events, quarterMicros?, hbpm, Event.tempoData?, Event.ofMeta, Message.tempo,
        tempoPayload]
  | note velocity arg lengthBytes =>
    simp only [events]
    split <;> rfl
  | pitchBend high low =>
    simp only [events]
    split <;> rfl
  | _ => rfl

/-- A run gives the tempo events that its words ask for, in their order. -/
theorem Context.filterMap_tempoData?_play (ctx : Context) (offset : Nat) (s : State)
    {is : List Instruction} (h : ∀ i ∈ is, i.WellFormed) :
    (ctx.play offset s is).events.filterMap Event.tempoData? =
      ((is.map Instruction.bytes).filterMap tempoOperand?).map tempoPayload := by
  induction is generalizing offset s with
  | nil => rfl
  | cons i is ih =>
    obtain ⟨hi, his⟩ := List.forall_mem_cons.mp h
    have hhere := ctx.filterMap_tempoData?_events s hi
    have hrest := ih (offset + i.size) (s.after i) his
    rw [play_cons, List.filterMap_append, hhere, hrest, List.map_cons, List.filterMap_cons]
    cases tempoOperand? i.bytes <;> rfl

/-- A loaded track has the tempo events that the words of its stream ask for. -/
theorem Chunk.Plays.tempos {tables : SideTables} {data : Bytes} {name : String}
    {chunk : Chunk} {index : Nat} {t : Track} (h : chunk.Plays tables data name index t) :
    ∃ words, Spells (data.drop chunk.streamStart) words endOpcode ∧
      t.events.filterMap Event.tempoData? = (words.filterMap tempoOperand?).map tempoPayload := by
  obtain ⟨is, rest, hlist, hevents⟩ :=
    h.filterMap_events Event.atCursor_of_tempoData? Event.tempoData?_onChannel
  have hspells := Listing.spells_of_ending (data.drop chunk.streamStart)
  have hwell := Listing.wellFormed_of_eq hlist
  rw [hlist] at hspells
  refine ⟨is.map Instruction.bytes, hspells, ?_⟩
  have htitle : (titleEvents name index).filterMap Event.tempoData? = [] := by
    rw [titleEvents]
    split <;> rfl
  rw [hevents, htitle, List.nil_append, Context.decoded, List.filterMap_append,
    Context.filterMap_tempoData?_play _ _ _ hwell]
  exact List.append_nil _

end Dse

/-! ### The number in the payload -/

/-- The payload holds the microseconds without what exceeds 24 bits. -/
theorem beNat_tempoPayload (bpm : UInt8) :
    beNat (tempoPayload bpm) = 60000000 / bpm.toNat % 2 ^ 24 :=
  beNat_beBytes 3 _

/-- A quarter note of three seconds in sixty and more does not fit. -/
theorem beNat_tempoPayload_eq_iff {bpm : UInt8} (h : bpm ≠ 0) :
    beNat (tempoPayload bpm) = 60000000 / bpm.toNat ↔ 4 ≤ bpm := by
  rw [beNat_tempoPayload]
  revert h
  refine forall_byte ?_ bpm
  decide +kernel

/-- **Tempos of loaded tracks.** Track by track, the tempo events are one for each tempo
opcode of the stream with a tempo other than zero, in stream order. Their payloads are three
bytes and hold the microseconds in a quarter note modulo `2 ^ 24`, which is the number itself
exactly from four beats in a minute on. -/
theorem load_tempos {tables : SideTables} {data : Bytes} {loaded : Loaded}
    (h : load tables data = .ok loaded) :
    ∃ header, Dse.Header.read data = .ok header ∧
      List.Forall₂ (fun chunk t => ∃ words,
        Dse.Spells (data.drop chunk.streamStart) words Dse.endOpcode ∧
        List.Forall₂ (fun bpm payload => payload.length = 3 ∧
            beNat payload = 60000000 / bpm.toNat % 2 ^ 24 ∧
            (beNat payload = 60000000 / bpm.toNat ↔ 4 ≤ bpm))
          (words.filterMap tempoOperand?) (t.events.filterMap Event.tempoData?))
        header.tracks loaded.sequence.tracks := by
  obtain ⟨header, hheader, -, -, htracks⟩ := load_inv h
  refine ⟨header, hheader, forall₂_of_zipIdx (htracks.imp ?_)⟩
  intro p t hplays
  obtain ⟨words, hspells, htempos⟩ := hplays.tempos
  refine ⟨words, hspells, ?_⟩
  rw [htempos, List.forall₂_map_right_iff, List.forall₂_same]
  intro bpm hbpm
  obtain ⟨word, -, hword⟩ := List.mem_filterMap.mp hbpm
  exact ⟨length_beBytes 3 _, beNat_tempoPayload bpm,
    beNat_tempoPayload_eq_iff (ne_zero_of_tempoOperand? hword)⟩

/-- Three beats in a minute, then a hundred and twenty. -/
def slowStream : Bytes := [0xA4, 3, 0xA4, 120, 0x98]

/-- A quarter note of twenty seconds comes out as one of three, and the tempo behind it is
kept. -/
theorem load_tempos_slowStream :
    ∃ loaded, load .default (singleTrackFile slowStream) = .ok loaded ∧
      ∃ t slow fast, loaded.sequence.tracks = [t] ∧
        t.events.filterMap Event.tempoData? = [slow, fast] ∧
        beNat slow = 3222784 ∧ beNat slow ≠ 60000000 / 3 ∧ beNat fast = 60000000 / 120 := by
  have hwell : ∀ i ∈ [Dse.Instruction.tempo 3, .tempo 120], i.WellFormed := by
    simp [Dse.Instruction.WellFormed]
  have hlist : Dse.Listing.ofBytes slowStream = ⟨[.tempo 3, .tempo 120], .complete []⟩ :=
    Dse.Listing.ofBytes_streamBytes hwell []
  have hload := load_singleTrackFile .default hlist
  refine ⟨_, hload, ?_⟩
  obtain ⟨header, hheader, htracks⟩ := load_tempos hload
  rw [read_singleTrackFile] at hheader
  cases hheader
  obtain ⟨t, tracks, ⟨words, hspells, htempos⟩, hnil, htrack⟩ :=
    List.forall₂_cons_left_iff.mp htracks
  obtain rfl := List.forall₂_nil_left_iff.mp hnil
  have hwords : Dse.Spells slowStream
      ([Dse.Instruction.tempo 3, .tempo 120].map Dse.Instruction.bytes) Dse.endOpcode :=
    ⟨List.forall_mem_map.mpr fun i hi => (hwell i hi).isWord, [], rfl⟩
  obtain rfl := hwords.words_unique hspells
  obtain ⟨slow, payloads, ⟨-, hslow, hkept⟩, hfast, hpayloads⟩ :=
    List.forall₂_cons_left_iff.mp htempos
  obtain ⟨fast, none, ⟨-, -, hfast⟩, hnone, hfasts⟩ := List.forall₂_cons_left_iff.mp hfast
  obtain rfl := List.forall₂_nil_left_iff.mp hnone
  refine ⟨t, slow, fast, htrack, ?_, hslow, ?_, hfast.mpr (by decide)⟩
  · rw [hpayloads, hfasts]
  · intro heq
    exact absurd (hkept.mp heq) (by decide)

end DseMidi
