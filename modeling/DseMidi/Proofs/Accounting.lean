import DseMidi.Proofs.Dse.Adaptation
import DseMidi.Proofs.Dse.Locality
import DseMidi.Proofs.Tempo

/-!
# DseMidi.Proofs.Accounting

**Nothing is dropped silently.** A note either sounds or is warned of, and so is a tempo. So the
notes and the tempos of a stream can be counted in what it is decoded to (`Tallies`), and each
warning names the instruction that it is about: its track, and the place of its opcode in the file
(`LeftOut`, `WarnsFrom`).

Everything is said of one instruction first. Tallies add up along a run; the offsets of its
warnings increase since each instruction takes at least one byte.

A fault that ends a conversion is never one of those that only warn (`Fatal`).
-/

namespace DseMidi

/-! ### What is counted -/

/-- Whether the message ends a note. -/
def Message.isNoteOff : Message → Bool
  | noteOff .. => true
  | _ => false

/-- Whether the fault is that a note was left out. -/
def Fault.isDroppedNote : Fault → Bool
  | droppedNote .. => true
  | _ => false

/-- The track that a warning is about, and the place in the file. -/
def Fault.place? : Fault → Option (Nat × Nat)
  | droppedNote track _ offset | ignoredTempo track offset => some (track, offset)
  | _ => none

/-- The table has no key for a key number in a program, or MIDI has no such key number. -/
def SideTables.Silences (tables : SideTables) (program : UInt8) (key : Int) : Prop :=
  key < 0 ∨ 127 < key ∨ tables.keyFor program (UInt8.ofNat key.toNat) = none

/-- The events and the warnings account for so many notes and so many tempos, and the events end
as many notes as they start. -/
structure Tallies (events : List Event) (warnings : List Fault) (notes tempos : Nat) : Prop where
  noteOffs : events.countP (fun e => e.message.isNoteOff) =
    events.countP fun e => e.message.isNoteOn
  notes : events.countP (fun e => e.message.isNoteOn) + warnings.countP Fault.isDroppedNote = notes
  tempos : events.countP (fun e => e.tempoData?.isSome) + warnings.countP Fault.isIgnoredTempo =
    tempos

theorem Tallies.append {events more : List Event} {warnings following : List Fault}
    {notes tempos laterNotes laterTempos : Nat} (h : Tallies events warnings notes tempos)
    (h' : Tallies more following laterNotes laterTempos) :
    Tallies (events ++ more) (warnings ++ following) (notes + laterNotes)
      (tempos + laterTempos) where
  noteOffs := by rw [List.countP_append, List.countP_append, h.noteOffs, h'.noteOffs]
  notes := by
    rw [List.countP_append, List.countP_append, ← h.notes, ← h'.notes]
    omega
  tempos := by
    rw [List.countP_append, List.countP_append, ← h.tempos, ← h'.tempos]
    omega

/-- The warnings are about places in the track, one behind the other, from `first` on. -/
def WarnsFrom (track first : Nat) (warnings : List Fault) : Prop :=
  ∃ offsets : List Nat, warnings.map Fault.place? = offsets.map (fun o => some (track, o)) ∧
    offsets.Pairwise (· < ·) ∧ ∀ o ∈ offsets, first ≤ o

namespace Dse

/-- Whether the instruction is a note. -/
def Instruction.isNote : Instruction → Bool
  | note .. => true
  | _ => false

/-- Whether the instruction is a tempo. -/
def Instruction.isTempo : Instruction → Bool
  | tempo _ => true
  | _ => false

/-- An instruction at `offset`, played from state `s`, is left out, and the fault says so. -/
inductive LeftOut (ctx : Context) (offset : Nat) (s : State) : Instruction → Fault → Prop
  /-- A note that has no key in its own octave. -/
  | note {velocity arg : UInt8} {lengthBytes : Bytes}
      (h : ctx.tables.Silences s.program ((s.afterNote arg lengthBytes).noteKey arg)) :
      LeftOut ctx offset s (.note velocity arg lengthBytes)
        (.droppedNote ctx.track ((s.afterNote arg lengthBytes).noteKey arg) offset)
  /-- A tempo of zero. -/
  | tempo : LeftOut ctx offset s (.tempo 0) (.ignoredTempo ctx.track offset)

theorem quarterMicros?_eq_none_iff {bpm : UInt8} : quarterMicros? bpm = none ↔ bpm = 0 := by
  rw [quarterMicros?]
  split
  · next hzero => simp [hzero]
  · next hbpm => simp [hbpm]

namespace Context

variable {ctx : Context} {offset : Nat} {s : State} {is : List Instruction}

/-! ### One instruction -/

theorem soundingKey?_eq_none_iff {arg : UInt8} :
    ctx.soundingKey? s arg = none ↔ ctx.tables.Silences s.program (s.noteKey arg) := by
  rw [soundingKey?, SideTables.keyByte?, SideTables.Silences]
  split
  · next hrange =>
    rw [Option.bind_some]
    constructor
    · exact fun hnone => Or.inr (Or.inr hnone)
    · rintro (hlow | hhigh | hnone)
      · omega
      · omega
      · exact hnone
  · next hrange =>
    rw [Option.bind_none, eq_self_iff_true, true_iff]
    omega

/-- **One step.** An instruction accounts for itself. -/
theorem tallies_events (ctx : Context) (offset : Nat) (s : State) (i : Instruction) :
    Tallies (ctx.events s i) (ctx.warnings offset s i) ([i].countP Instruction.isNote)
      ([i].countP Instruction.isTempo) := by
  cases i with
  | note velocity arg lengthBytes =>
    simp only [events, warnings]
    split
    · exact ⟨rfl, rfl, rfl⟩
    · exact ⟨rfl, rfl, rfl⟩
  | tempo bpm =>
    simp only [events, warnings]
    split
    · exact ⟨rfl, rfl, rfl⟩
    · exact ⟨rfl, rfl, rfl⟩
  | pitchBend high low =>
    simp only [events, warnings]
    split
    · exact ⟨rfl, rfl, rfl⟩
    · exact ⟨rfl, rfl, rfl⟩
  | _ => exact ⟨rfl, rfl, rfl⟩

/-- An instruction is warned of if it is left out. -/
theorem mem_warnings_iff {i : Instruction} {w : Fault} :
    w ∈ ctx.warnings offset s i ↔ LeftOut ctx offset s i w := by
  constructor
  · intro h
    cases i with
    | note velocity arg lengthBytes =>
      simp only [warnings] at h
      split at h
      · cases h
      · next hkey =>
        obtain rfl := List.mem_singleton.mp h
        exact .note (soundingKey?_eq_none_iff.mp hkey)
    | tempo bpm =>
      simp only [warnings] at h
      split at h
      · cases h
      · next hmicros =>
        obtain rfl := List.mem_singleton.mp h
        obtain rfl := quarterMicros?_eq_none_iff.mp hmicros
        exact .tempo
    | _ => cases h
  · rintro (hkey | _)
    · have hnone := (soundingKey?_eq_none_iff (s := s.afterNote _ _)).mpr hkey
      simp only [warnings, hnone, List.mem_singleton]
    · exact List.mem_singleton_self _

/-- The warnings of an instruction are about its place. -/
theorem warnings_cases (ctx : Context) (offset : Nat) (s : State) (i : Instruction) :
    ctx.warnings offset s i = [] ∨
      ∃ w, ctx.warnings offset s i = [w] ∧ w.place? = some (ctx.track, offset) := by
  cases i with
  | note velocity arg lengthBytes =>
    simp only [warnings]
    split
    · exact Or.inl rfl
    · exact Or.inr ⟨_, rfl, rfl⟩
  | tempo bpm =>
    simp only [warnings]
    split
    · exact Or.inl rfl
    · exact Or.inr ⟨_, rfl, rfl⟩
  | _ => exact Or.inl rfl

/-- A note is left out if it has no key. -/
theorem events_note_eq_nil_iff {velocity arg : UInt8} {lengthBytes : Bytes} :
    ctx.events s (.note velocity arg lengthBytes) = [] ↔
      ctx.tables.Silences s.program ((s.afterNote arg lengthBytes).noteKey arg) := by
  have hkey : ctx.soundingKey? (s.afterNote arg lengthBytes) arg = none ↔
      ctx.tables.Silences s.program ((s.afterNote arg lengthBytes).noteKey arg) :=
    soundingKey?_eq_none_iff
  rw [← hkey]
  simp only [events]
  split
  · next key hsome => simp [noteEvents, hsome]
  · next hnone => simp [hnone]

/-! ### Whole runs -/

/-- A run accounts for its notes and its tempos. -/
theorem tallies_play :
    Tallies (ctx.play offset s is).events (ctx.play offset s is).warnings
      (is.countP Instruction.isNote) (is.countP Instruction.isTempo) := by
  induction is generalizing offset s with
  | nil => exact ⟨rfl, rfl, rfl⟩
  | cons i is ih =>
    have hcount (p : Instruction → Bool) : (i :: is).countP p = [i].countP p + is.countP p := by
      rw [← List.countP_append, List.singleton_append]
    rw [play_cons, hcount, hcount]
    exact (ctx.tallies_events offset s i).append ih

/-- A run warns of the instructions that it leaves out, each at its own place. -/
theorem mem_warnings_play_iff {w : Fault} :
    w ∈ (ctx.play offset s is).warnings ↔ ∃ k i, is[k]? = some i ∧
      LeftOut ctx (offset + streamSize (is.take k)) ((is.take k).foldl State.after s) i w := by
  induction is generalizing offset s with
  | nil => simp
  | cons i is ih =>
    rw [play_cons, List.mem_append, mem_warnings_iff, ih]
    constructor
    · rintro (hhere | ⟨k, j, hj, hleft⟩)
      · exact ⟨0, i, rfl, hhere⟩
      · refine ⟨k + 1, j, hj, ?_⟩
        rw [List.take_succ_cons, streamSize_cons, ← Nat.add_assoc]
        exact hleft
    · rintro ⟨k, j, hj, hleft⟩
      cases k with
      | zero =>
        obtain rfl := Option.some.inj hj
        exact Or.inl hleft
      | succ k =>
        rw [List.take_succ_cons, streamSize_cons, ← Nat.add_assoc] at hleft
        exact Or.inr ⟨k, j, hj, hleft⟩

/-- The warnings of a run come in the order of their places. -/
theorem warnsFrom_play : WarnsFrom ctx.track offset (ctx.play offset s is).warnings := by
  induction is generalizing offset s with
  | nil => exact ⟨[], rfl, List.Pairwise.nil, by simp⟩
  | cons i is ih =>
    obtain ⟨offsets, hplaces, hsorted, hfirst⟩ := @ih (offset + i.size) (s.after i)
    -- No instruction is without bytes, so what follows stands further on.
    have hsize := i.size_pos
    have hlater : ∀ o ∈ offsets, offset < o := by
      intro o ho
      have hle := hfirst o ho
      omega
    rw [play_cons]
    rcases ctx.warnings_cases offset s i with hnone | ⟨w, hone, hplace⟩
    · rw [hnone, List.nil_append]
      exact ⟨offsets, hplaces, hsorted, fun o ho => Nat.le_of_lt (hlater o ho)⟩
    · rw [hone, List.singleton_append]
      refine ⟨offset :: offsets, ?_, List.pairwise_cons.mpr ⟨hlater, hsorted⟩, ?_⟩
      · rw [List.map_cons, List.map_cons, hplace, hplaces]
      · refine List.forall_mem_cons.mpr ⟨Nat.le_refl _, ?_⟩
        intro o ho
        exact Nat.le_of_lt (hlater o ho)

end Context

/-! ### Whole tracks -/

/-- What is decoded from the instructions of a stream accounts for all of them: what each emits is
in it, in order, every note and every tempo either is there or is warned of, and every warning is
about one instruction that is left out. A note that is left out changes the octave and the length
of the notes behind it like any other. -/
structure Accounts (ctx : Context) (start : Nat) (s : State) (is : List Instruction)
    (d : Decoded) : Prop where
  emitted : d.events = (ctx.emissions s is).flatten ++ [.ofMeta d.state.tick (.text endMarker)]
  tallies : Tallies d.events d.warnings (is.countP Instruction.isNote)
    (is.countP Instruction.isTempo)
  note {k : Nat} {velocity arg : UInt8} {lengthBytes : Bytes}
    (h : is[k]? = some (.note velocity arg lengthBytes)) :
    ∃ before, ctx.PlaysNote start s is k velocity arg lengthBytes before ∧
      ((ctx.emissions s is)[k]? = some [] ↔
        ctx.tables.Silences before.program ((before.afterNote arg lengthBytes).noteKey arg))
  warned (w : Fault) : w ∈ d.warnings ↔ ∃ k i, is[k]? = some i ∧
    LeftOut ctx (start + streamSize (is.take k)) ((is.take k).foldl State.after s) i w
  placed : WarnsFrom ctx.track start d.warnings
  recoverable : ∀ w ∈ d.warnings, w.isWarning

theorem Context.accounts_decoded (ctx : Context) (start : Nat) (s : State)
    (is : List Instruction) : Accounts ctx start s is (ctx.decoded start s is) where
  emitted := by rw [decoded, flatten_emissions ctx start]
  tallies := by
    have hmark : Tallies [.ofMeta (ctx.play start s is).state.tick (.text endMarker)] [] 0 0 :=
      ⟨rfl, rfl, rfl⟩
    have hplay : Tallies (ctx.play start s is).events (ctx.play start s is).warnings
        (is.countP Instruction.isNote) (is.countP Instruction.isTempo) := tallies_play
    have hboth := hplay.append hmark
    rw [List.append_nil] at hboth
    exact hboth
  note := by
    intro k velocity arg lengthBytes h
    refine ⟨_, ctx.playsNote_of_getElem? start s h, ?_⟩
    rw [getElem?_emissions, h, Option.map_some, Option.some.injEq, events_note_eq_nil_iff]
  warned := fun _ => mem_warnings_play_iff
  placed := warnsFrom_play
  recoverable := fun _ => isWarning_of_mem_play

/-- The opcode of an instruction of a stream is at its place in the file. -/
theorem Listing.bytes_isPrefix_drop {data : Bytes} {start : Nat} {is : List Instruction}
    {ending : Ending} (h : Listing.ofBytes (data.drop start) = ⟨is, ending⟩) {k : Nat}
    {i : Instruction} (hi : is[k]? = some i) :
    i.bytes <+: data.drop (start + streamSize (is.take k)) := by
  obtain ⟨rest, hrest⟩ := Listing.exists_streamBytes_append (data.drop start)
  obtain ⟨hk, hget⟩ := List.getElem?_eq_some_iff.mp hi
  have hsplit : streamBytes is =
      streamBytes (is.take k) ++ (i.bytes ++ streamBytes (is.drop (k + 1))) := by
    rw [← hget, ← streamBytes_cons, ← List.drop_eq_getElem_cons hk, ← streamBytes_append,
      List.take_append_drop]
  rw [h, hsplit, List.append_assoc, List.append_assoc] at hrest
  rw [← List.drop_drop, hrest, ← length_streamBytes, List.drop_left]
  exact List.prefix_append _ _

end Dse

/-! ### Faults -/

/-- A fault of the computation is not one that only warns. -/
def Fatal {α : Type} (x : Except Fault α) : Prop :=
  ∀ fault, x = .error fault → fault.isWarning = false

section Fatal

variable {α β : Type}

theorem fatal_ok (a : α) : Fatal (.ok a : Except Fault α) := by
  intro fault h
  cases h

theorem fatal_error {fault : Fault} (h : fault.isWarning = false) :
    Fatal (.error fault : Except Fault α) := by
  rintro fault ⟨⟩
  exact h

theorem Fatal.bind {x : Except Fault α} {f : α → Except Fault β} (h : Fatal x)
    (hf : ∀ a, Fatal (f a)) : Fatal (x >>= f) := by
  cases x with
  | error fault => exact fatal_error (h fault rfl)
  | ok a => exact hf a

theorem Fatal.map {x : Except Fault α} (h : Fatal x) (f : α → β) : Fatal (x.map f) := by
  cases x with
  | error fault => exact fatal_error (h fault rfl)
  | ok a => exact fatal_ok (f a)

end Fatal

section Loading

variable {tables : SideTables} {data : Bytes}

theorem fatal_peek (data : Bytes) (offset len : Nat) : Fatal (peek data offset len) := by
  rw [peek]
  split
  · exact fatal_error rfl
  · split
    · exact fatal_ok _
    · exact fatal_error rfl

theorem fatal_peekNat (data : Bytes) (offset width : Nat) : Fatal (peekNat data offset width) :=
  (fatal_peek data offset width).map beNat

theorem Dse.fatal_readChunks (data : Bytes) (count index position : Nat) :
    Fatal (readChunks data count index position) := by
  induction count generalizing index position with
  | zero => exact fatal_ok []
  | succ count ih =>
    rw [readChunks]
    refine (fatal_peek data _ _).bind fun found => ?_
    split
    · exact fatal_error rfl
    · refine (fatal_peekNat data _ _).bind fun length => ?_
      exact (ih _ _).bind fun rest => fatal_ok _

theorem Dse.Header.fatal_read (data : Bytes) : Fatal (Header.read data) := by
  rw [Header.read]
  refine (fatal_peek data _ _).bind fun found => ?_
  split
  · exact fatal_error rfl
  · refine (fatal_peekNat data _ _).bind fun declaredSize => ?_
    refine (fatal_peek data _ _).bind fun field => ?_
    refine (fatal_peekNat data _ _).bind fun count => ?_
    exact (fatal_readChunks data _ _ _).bind fun tracks => fatal_ok _

theorem Dse.Chunk.fatal_decode (chunk : Chunk) (data : Bytes) (track : Nat)
    (tables : SideTables) (state : State) : Fatal (chunk.decode data track tables state) := by
  rcases hlist : Listing.ofBytes (data.drop chunk.streamStart) with ⟨is, ending⟩
  cases ending with
  | complete rest =>
    rw [decode_of_complete hlist]
    exact fatal_ok _
  | unknown opcode =>
    rw [decode_of_unknown hlist]
    exact fatal_error rfl
  | truncated =>
    rw [decode_of_truncated hlist]
    exact fatal_error rfl

theorem fatal_loadTracks (name : String) (index : Nat) (chunks : List Dse.Chunk) :
    Fatal (loadTracks tables data name index chunks) := by
  induction chunks generalizing index with
  | nil => exact fatal_ok []
  | cons chunk rest ih =>
    rw [loadTracks]
    refine (chunk.fatal_decode data index tables .initial).bind fun decoded => ?_
    exact (ih (index + 1)).bind fun following => fatal_ok _

theorem fatal_load : Fatal (load tables data) := by
  rw [load]
  refine (Dse.Header.fatal_read data).bind fun header => ?_
  exact (fatal_loadTracks header.name 0 header.tracks).bind fun tracks => fatal_ok _

theorem fatal_convert : Fatal (convert tables data) :=
  fatal_load.map _

/-- Every track that is loaded brings its own warnings. -/
theorem loadTracks_warnings {name : String} {index : Nat} {chunks : List Dse.Chunk}
    {tracks : List (Track × List Fault)}
    (h : loadTracks tables data name index chunks = .ok tracks) :
    ∃ ds, List.Forall₂ (fun (p : Dse.Chunk × Nat) d =>
        p.1.decode data p.2 tables .initial = .ok d) (chunks.zipIdx index) ds ∧
      tracks.flatMap Prod.snd = ds.flatMap Dse.Decoded.warnings := by
  -- The induction is on how chunks and tracks belong together; it must not know the numbers.
  have htracks := loadTracks_inv h
  clear h
  generalize chunks.zipIdx index = placed at htracks ⊢
  induction htracks with
  | nil => exact ⟨[], .nil, rfl⟩
  | cons hfirst _ ih =>
    obtain ⟨d, hd, rfl⟩ := hfirst
    obtain ⟨ds, hds, hwarnings⟩ := ih
    exact ⟨d :: ds, .cons hd hds, by rw [List.flatMap_cons, List.flatMap_cons, hwarnings]⟩

/-- The warnings of a loaded sequence are those of its tracks, one track behind the other. -/
theorem load_warnings {loaded : Loaded} (h : load tables data = .ok loaded) :
    ∃ header ds, Dse.Header.read data = .ok header ∧
      List.Forall₂ (fun (p : Dse.Chunk × Nat) d => p.1.decode data p.2 tables .initial = .ok d)
        header.tracks.zipIdx ds ∧
      loaded.warnings = ds.flatMap Dse.Decoded.warnings := by
  obtain ⟨header, hheader, h⟩ := bind_eq_ok_iff.mp h
  obtain ⟨tracks, htracks, h⟩ := bind_eq_ok_iff.mp h
  cases h
  obtain ⟨ds, hds, hwarnings⟩ := loadTracks_warnings htracks
  exact ⟨header, ds, hheader, hds, hwarnings⟩

end Loading

/-- **Nothing is dropped silently.** A track that is decoded, from any state, starts and ends the
same number of notes. With the notes that it warns of these are the notes of its stream, and its
tempo events with the tempos that it warns of are the tempos of its stream. A note is left out
exactly if it has no key in its octave and program, and the state behind it is that of any note.
There is a warning for each instruction that is left out and no other; it is about the track and
the place of the opcode in the file, and the places increase.

The warnings of a loaded sequence are those of its tracks, one track behind the other. All of them
are recoverable, and no fault that ends loading or converting is. -/
theorem load_accounting (tables : SideTables) (data : Bytes) :
    (∀ (chunk : Dse.Chunk) (track : Nat) (state : Dse.State) (d : Dse.Decoded),
      chunk.decode data track tables state = .ok d →
      ∃ is rest, Dse.Listing.ofBytes (data.drop chunk.streamStart) = ⟨is, .complete rest⟩ ∧
        (∀ k i, is[k]? = some i →
          i.bytes <+: data.drop (chunk.streamStart + Dse.streamSize (is.take k))) ∧
        Dse.Accounts ⟨tables, track⟩ chunk.streamStart state is d) ∧
    (∀ loaded, load tables data = .ok loaded → ∃ header ds, Dse.Header.read data = .ok header ∧
      List.Forall₂ (fun (p : Dse.Chunk × Nat) d => p.1.decode data p.2 tables .initial = .ok d)
        header.tracks.zipIdx ds ∧
      loaded.warnings = ds.flatMap Dse.Decoded.warnings ∧
      ∀ w ∈ loaded.warnings, w.isWarning) ∧
    Fatal (load tables data) ∧ Fatal (convert tables data) := by
  refine ⟨?_, ?_, fatal_load, fatal_convert⟩
  · intro chunk track state d h
    obtain ⟨is, rest, hlist, rfl⟩ := Dse.Chunk.decode_inv h
    refine ⟨is, rest, hlist, ?_, Dse.Context.accounts_decoded _ _ _ _⟩
    intro k i hi
    exact Dse.Listing.bytes_isPrefix_drop hlist hi
  · intro loaded h
    obtain ⟨header, ds, hheader, hds, hwarnings⟩ := load_warnings h
    refine ⟨header, ds, hheader, hds, hwarnings, ?_⟩
    intro w hw
    rw [hwarnings] at hw
    obtain ⟨d, hd, hw⟩ := List.mem_flatMap.mp hw
    obtain ⟨p, -, hdecode⟩ := exists_mem_of_forall₂ hds hd
    obtain ⟨is, rest, -, rfl⟩ := Dse.Chunk.decode_inv hdecode
    exact (Dse.Context.accounts_decoded _ _ _ _).recoverable w hw

/-- Two notes that sound and one above the keys of MIDI, and a tempo of zero and one that counts.
The last note sounds an octave below the one that is left out. -/
def lossyNotes : List Dse.Instruction :=
  [.note 100 0x23 [], .setOctave 11, .note 90 0x6F [8], .tempo 0, .tempo 120, .note 80 0x10 []]

/-- The opcode stream of these instructions. -/
def lossyStream : Bytes := Dse.streamBytes lossyNotes ++ [Dse.endOpcode]

theorem ofBytes_lossyStream : Dse.Listing.ofBytes lossyStream = ⟨lossyNotes, .complete []⟩ :=
  Dse.Listing.ofBytes_streamBytes (by decide) []

/-- Key 147 is left out, and so is the tempo of zero; two notes are there. -/
theorem load_accounting_lossyStream :
    ∃ loaded, load .default (singleTrackFile lossyStream) = .ok loaded ∧
      loaded.warnings = [.droppedNote 0 147 0x98, .ignoredTempo 0 0x9B] ∧
      (∀ w ∈ loaded.warnings, w.isWarning) ∧
      ∃ d : Dse.Decoded, (⟨0x80, 0x90, (lossyStream.length + 4) % 2 ^ 32⟩ : Dse.Chunk).decode
          (singleTrackFile lossyStream) 0 .default .initial = .ok d ∧
        d.events.countP (fun e => e.message.isNoteOn) = 2 ∧
        d.events.countP (fun e => e.message.isNoteOff) = 2 ∧
        d.events.countP (fun e => e.tempoData?.isSome) = 1 := by
  have hload := load_singleTrackFile .default ofBytes_lossyStream
  have hdecode := decode_singleTrackFile .default ofBytes_lossyStream
  obtain ⟨hdecodes, hloads, -⟩ := load_accounting .default (singleTrackFile lossyStream)
  obtain ⟨is, rest, hlist, -, haccounts⟩ := hdecodes _ 0 .initial _ hdecode
  obtain ⟨-, -, -, -, -, hrecoverable⟩ := hloads _ hload
  have hstream := ofBytes_lossyStream
  rw [← drop_singleTrackFile lossyStream] at hstream
  cases hstream.symm.trans hlist
  have hdropped : (Dse.Context.decoded ⟨.default, 0⟩ 0x94 .initial lossyNotes).warnings =
      [.droppedNote 0 147 0x98, .ignoredTempo 0 0x9B] := by
    decide
  have hnotes := haccounts.tallies.notes
  have htempos := haccounts.tallies.tempos
  have hoffs := haccounts.tallies.noteOffs
  have hthree : lossyNotes.countP Dse.Instruction.isNote = 3 := rfl
  have htwo : lossyNotes.countP Dse.Instruction.isTempo = 2 := rfl
  rw [hdropped, hthree] at hnotes
  rw [hdropped, htwo] at htempos
  have hons := Nat.add_right_cancel hnotes
  exact ⟨_, hload, hdropped, hrecoverable, _, hdecode, hons, hoffs.trans hons,
    Nat.add_right_cancel htempos⟩

end DseMidi
