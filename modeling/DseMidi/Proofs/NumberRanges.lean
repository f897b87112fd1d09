import DseMidi.Proofs.Dse.Duration
import DseMidi.Proofs.Dse.Resumption
import DseMidi.Proofs.Loading

/-!
# DseMidi.Proofs.NumberRanges

**How large the numbers of a conversion get.** The octave and the delay of a track add up
changes without a limit of their own, and the cursor adds up the delays. But each change is paid
for with bytes of the file: a note moves the octave by less than its bytes, and a changed delay
grows by less than 64 for each of its two (`State.Drifted`). So in a file of up to 32 MiB the
octave, the delay and all keys fit 32 bits, and all positions fit 64 bits.

* `State.InRange` says this of a state and of what one more instruction computes from it.
* `Chunk.InRange` says it of a chunk that was found, and `Chunk.RunsInRange` of the run of its
  track.

`load_inRange` puts this together for all that loading a file goes through.
-/

namespace DseMidi

namespace Dse

/-! ### Ranges -/

/-- Whether the number is a signed one of 32 bits. -/
def FitsInt32 (n : Int) : Prop := Int32.minValue.toInt ≤ n ∧ n ≤ Int32.maxValue.toInt

theorem fitsInt32_iff {n : Int} : FitsInt32 n ↔ -2147483648 ≤ n ∧ n ≤ 2147483647 := Iff.rfl

/-- The octave and the keys in it are in range. -/
def OctaveFits (octave : Int) : Prop :=
  FitsInt32 octave ∧ ∀ key : Nat, key ≤ 15 → FitsInt32 (octave * 12 + key)

/-- The numbers of a state are in range, and with them those that one more instruction computes
from it. -/
structure State.InRange (s : State) : Prop where
  octave : OctaveFits s.octave
  /-- The octave of a note changes before its length is read. -/
  shifted : ∀ arg, OctaveFits (s.octave + octaveShift arg)
  delay : FitsInt32 s.priorDelay ∧ 0 ≤ s.priorDelay
  /-- A changed delay before it is cut off at zero. -/
  added : ∀ delta : UInt8, FitsInt32 (s.priorDelay + delta.toInt8.toInt)
  tick : s.tick < 2 ^ 64
  tick_delay : s.tick + 2 * s.priorDelay.toNat < 2 ^ 64
  tick_length : s.tick + 2 * s.defaultLength < 2 ^ 64

/-- The state in the middle of an instruction, which remembers its operands before it moves the
cursor. -/
def State.midway (s : State) (i : Instruction) : State := { s.after i with tick := s.tick }

/-! ### One instruction -/

/-- What `played` bytes of instructions can have made of a state: `Bounded` from above, and
from below as well. -/
structure State.Drifted (s : State) (played : Nat) : Prop extends s.Bounded played where
  octave_low : -played ≤ s.octave
  octave_high : 2 * s.octave ≤ 510 + played
  delay_nonneg : 0 ≤ s.priorDelay

theorem State.drifted_initial : State.initial.Drifted 0 := by
  refine ⟨bounded_initial, ?_, ?_, ?_⟩ <;> decide

theorem State.octaveShift_bounds (arg : UInt8) : -2 ≤ octaveShift arg ∧ octaveShift arg ≤ 1 := by
  rw [octaveShift]
  omega

/-- The octave is set, or moved by a note, which has two bytes or more. -/
theorem State.octave_after (s : State) (i : Instruction) :
    (s.after i).octave = s.octave ∨
    (∃ arg, 2 ≤ i.size ∧ (s.after i).octave = s.octave + octaveShift arg) ∨
    ∃ octave : UInt8, (s.after i).octave = octave.toNat := by
  cases i with
  | note velocity arg lengthBytes => exact Or.inr (Or.inl ⟨arg, Nat.le_add_left _ _, rfl⟩)
  | setOctave octave => exact Or.inr (Or.inr ⟨octave, rfl⟩)
  | _ => exact Or.inl rfl

/-- A delay that is not negative is only replaced by others. -/
theorem State.delay_after_nonneg {s : State} (h : 0 ≤ s.priorDelay) (i : Instruction) :
    0 ≤ (s.after i).priorDelay := by
  cases i with
  | fixedDelay _ | delay8 _ | delay16 _ _ => exact Int.natCast_nonneg _
  | addDelay delta => exact Int.le_max_right _ _
  | _ => exact h

namespace State.Drifted

variable {s : State} {played : Nat}

/-- What a state remembers does not depend on the cursor. -/
theorem of_tick (h : s.Drifted played) (tick : Nat) : { s with tick }.Drifted played :=
  ⟨⟨h.delay, h.length⟩, h.octave_low, h.octave_high, h.delay_nonneg⟩

/-- **One step.** The bytes of an instruction pay for what it does to the octave and to the
delay. -/
theorem step (h : s.Drifted played) {i : Instruction} (hi : i.WellFormed) :
    (s.after i).Drifted (played + i.size) := by
  have hoctave : -((played + i.size : Nat) : Int) ≤ (s.after i).octave ∧
      2 * (s.after i).octave ≤ 510 + ((played + i.size : Nat) : Int) := by
    have hlow := h.octave_low
    have hhigh := h.octave_high
    rcases s.octave_after i with heq | ⟨arg, hsize, heq⟩ | ⟨octave, heq⟩
    · omega
    · have hshift := octaveShift_bounds arg
      omega
    · have hbyte := octave.toNat_lt
      omega
  exact ⟨(h.toBounded.step hi).1, hoctave.1, hoctave.2, delay_after_nonneg h.delay_nonneg i⟩

/-- States that a file of up to 32 MiB can lead to are in range. -/
theorem inRange (h : s.Drifted played) (hplayed : played ≤ 2 ^ 25)
    (htick : s.tick ≤ 2 ^ 25 * (131070 + 127 * 2 ^ 25)) : s.InRange := by
  have hoctave : -2 ^ 25 ≤ s.octave ∧ s.octave ≤ 2 ^ 25 := by
    have hlow := h.octave_low
    have hhigh := h.octave_high
    omega
  have hdelay : s.priorDelay ≤ 2 ^ 31 - 2 ^ 8 := by
    have hbound := h.delay
    omega
  have hnonneg := h.delay_nonneg
  have hlength := h.length
  have hfits : ∀ octave : Int, -2 ^ 26 ≤ octave → octave ≤ 2 ^ 26 → OctaveFits octave := by
    intro octave hlow hhigh
    refine ⟨fitsInt32_iff.mpr ⟨by omega, by omega⟩, ?_⟩
    intro key hkey
    exact fitsInt32_iff.mpr ⟨by omega, by omega⟩
  refine ⟨hfits _ (by omega) (by omega), ?_, ⟨fitsInt32_iff.mpr ⟨by omega, by omega⟩, hnonneg⟩,
    ?_, by omega, by omega, by omega⟩
  · intro arg
    have hshift := octaveShift_bounds arg
    exact hfits _ (by omega) (by omega)
  · intro delta
    have hlow : -128 ≤ delta.toInt8.toInt := delta.toInt8.le_toInt
    have hhigh : delta.toInt8.toInt ≤ 127 := delta.toInt8.toInt_le
    exact fitsInt32_iff.mpr ⟨by omega, by omega⟩

end State.Drifted

/-! ### Whole runs -/

section Runs

variable (ctx : Context) (offset : Nat)

theorem Context.drifted_play {s : State} {is : List Instruction} {played : Nat}
    (hs : s.Drifted played) (his : ∀ i ∈ is, i.WellFormed) :
    (ctx.play offset s is).state.Drifted (played + streamSize is) := by
  induction is generalizing offset s played with
  | nil => exact hs
  | cons i is ih =>
    obtain ⟨hi, his⟩ := List.forall_mem_cons.mp his
    rw [play_cons, streamSize_cons, ← Nat.add_assoc]
    exact ih (offset + i.size) (hs.step hi) his

/-- The front of a listing is made of well-formed instructions out of the stream. -/
theorem Listing.front_inv {bytes : Bytes} {before after : List Instruction}
    (h : (Listing.ofBytes bytes).instructions = before ++ after) :
    (∀ i ∈ before, i.WellFormed) ∧ streamSize before ≤ bytes.length := by
  constructor
  · intro i hi
    have hmem : i ∈ (Listing.ofBytes bytes).instructions := by
      rw [h]
      exact List.mem_append_left _ hi
    exact Listing.wellFormed_of_mem hmem
  · obtain ⟨rest, hbytes⟩ := Listing.exists_streamBytes_append bytes
    have hlength := congrArg List.length hbytes
    rw [h, List.length_append, length_streamBytes, streamSize_append] at hlength
    omega

/-- What a run in a stream of up to 32 MiB can have made of the state. -/
theorem Context.play_front {bytes : Bytes} {before after : List Instruction}
    (hbytes : bytes.length ≤ 2 ^ 25)
    (h : (Listing.ofBytes bytes).instructions = before ++ after) :
    (ctx.play offset .initial before).state.Drifted (streamSize before) ∧
      (ctx.play offset .initial before).state.tick ≤ 2 ^ 25 * (131070 + 127 * 2 ^ 25) := by
  obtain ⟨hwell, hsize⟩ := Listing.front_inv h
  have hdrifted := ctx.drifted_play offset State.drifted_initial hwell
  rw [Nat.zero_add] at hdrifted
  refine ⟨hdrifted, ?_⟩
  have hlength := length_le_streamSize before
  refine Nat.le_trans (tick_play_le State.bounded_initial hwell) ?_
  rw [show State.initial.tick = 0 from rfl, Nat.zero_add, Nat.zero_add]
  exact Nat.mul_le_mul (by omega) (by omega)

end Runs

/-- The numbers of the run of a track are in range: in front of each instruction, in the middle
of it, and at the end of all of them, wherever the stream breaks off. -/
structure Chunk.RunsInRange (chunk : Chunk) (data : Bytes) (ctx : Context) : Prop where
  offset : ∀ before after,
    (Listing.ofBytes (data.drop chunk.streamStart)).instructions = before ++ after →
    chunk.streamStart + streamSize before < 2 ^ 64
  state : ∀ before after,
    (Listing.ofBytes (data.drop chunk.streamStart)).instructions = before ++ after →
    (ctx.play chunk.streamStart .initial before).state.InRange
  midway : ∀ before i after,
    (Listing.ofBytes (data.drop chunk.streamStart)).instructions = before ++ i :: after →
    ((ctx.play chunk.streamStart .initial before).state.midway i).InRange
  tick_le : ∀ before more after,
    (Listing.ofBytes (data.drop chunk.streamStart)).instructions = before ++ more ++ after →
    (ctx.play chunk.streamStart .initial before).state.tick ≤
      (ctx.play chunk.streamStart .initial (before ++ more)).state.tick

/-! ### The table of chunks -/

/-- The place behind chunks of which the first is at `position`. -/
def tableEnd (position : Nat) (chunks : List Chunk) : Nat :=
  chunks.foldl (fun _ chunk => chunk.next) position

theorem tableEnd_cons (position : Nat) (chunk : Chunk) (chunks : List Chunk) :
    tableEnd position (chunk :: chunks) = tableEnd chunk.next chunks := rfl

/-- The place behind chunks is where they start, or behind one of them. -/
theorem tableEnd_inv (position : Nat) (chunks : List Chunk) :
    tableEnd position chunks = position ∨
      ∃ chunk ∈ chunks, tableEnd position chunks = chunk.next := by
  induction chunks generalizing position with
  | nil => exact Or.inl rfl
  | cons chunk chunks ih =>
    rw [tableEnd_cons]
    rcases ih chunk.next with h | ⟨last, hlast, h⟩
    · exact Or.inr ⟨chunk, List.mem_cons_self, h⟩
    · exact Or.inr ⟨last, List.mem_cons_of_mem _ hlast, h⟩

variable {data : Bytes} {count index position : Nat} {chunks : List Chunk}

/-- **Reading on.** More chunks are read from the place behind the first ones. -/
theorem readChunks_add (h : readChunks data count index position = .ok chunks) (more : Nat) :
    readChunks data (count + more) index position =
      (readChunks data more (index + count) (tableEnd position chunks)).map (chunks ++ ·) := by
  induction count generalizing index position chunks with
  | zero =>
    cases h
    rw [Nat.zero_add]
    show _ = (readChunks data more index position).map id
    rw [Except.map_id]
    rfl
  | succ count ih =>
    obtain ⟨length, rest, htag, hlength, hrest, rfl⟩ := readChunks_succ_inv h
    rw [Nat.add_right_comm, readChunks_succ htag hlength, ih hrest, tableEnd_cons,
      Nat.add_assoc index, Nat.add_comm 1 count]
    cases readChunks data more (index + (count + 1)) (tableEnd _ rest) with
    | error _ => rfl
    | ok _ => rfl

/-- What a chunk says about its place is in the file. -/
theorem Chunk.bounds_of_readChunks (h : readChunks data count index position = .ok chunks)
    {chunk : Chunk} (hchunk : chunk ∈ chunks) :
    chunk.dataStart = chunk.start + chunkDataOffset ∧ chunk.dataStart ≤ data.length ∧
      chunk.length < 2 ^ 32 := by
  induction count generalizing index position chunks with
  | zero =>
    cases h
    cases hchunk
  | succ count ih =>
    obtain ⟨length, rest, -, hlength, hrest, rfl⟩ := readChunks_succ_inv h
    rcases List.mem_cons.mp hchunk with rfl | hchunk
    · have hinside := le_length_of_peekNat hlength
      rw [Nat.add_assoc] at hinside
      exact ⟨rfl, hinside, peekNat_lt hlength⟩
    · exact ih hrest hchunk

/-- The numbers of a chunk are in range. -/
structure Chunk.InRange (chunk : Chunk) : Prop where
  start : chunk.start < 2 ^ 64
  dataStart : chunk.dataStart < 2 ^ 64
  streamStart : chunk.streamStart < 2 ^ 64
  /-- The length before it is rounded to a multiple of four. -/
  length : chunk.length + 3 < 2 ^ 64
  next : chunk.next < 2 ^ 64

theorem Chunk.next_le_of_readChunks (h : readChunks data count index position = .ok chunks)
    {chunk : Chunk} (hchunk : chunk ∈ chunks) : chunk.next ≤ data.length + 2 ^ 33 := by
  obtain ⟨-, hinside, hlength⟩ := bounds_of_readChunks h hchunk
  rw [Chunk.next]
  omega

theorem Chunk.inRange_of_readChunks (hdata : data.length ≤ 2 ^ 25)
    (h : readChunks data count index position = .ok chunks) {chunk : Chunk}
    (hchunk : chunk ∈ chunks) : chunk.InRange := by
  obtain ⟨hstart, hinside, hlength⟩ := bounds_of_readChunks h hchunk
  have hnext := next_le_of_readChunks h hchunk
  refine ⟨by omega, by omega, ?_, by omega, by omega⟩
  rw [Chunk.streamStart, preambleLength]
  omega

/-- The run of a track in a file of up to 32 MiB. -/
theorem Chunk.runsInRange (hdata : data.length ≤ 2 ^ 25) {chunk : Chunk}
    (hinside : chunk.dataStart ≤ data.length) (ctx : Context) : chunk.RunsInRange data ctx := by
  have hstream : (data.drop chunk.streamStart).length ≤ 2 ^ 25 := by
    rw [List.length_drop]
    omega
  have hstart : chunk.streamStart ≤ 2 ^ 25 + 4 := by
    rw [Chunk.streamStart, preambleLength]
    omega
  constructor
  · intro before after hsplit
    have hsize := (Listing.front_inv hsplit).2
    omega
  · intro before after hsplit
    obtain ⟨hdrifted, htick⟩ := ctx.play_front chunk.streamStart hstream hsplit
    exact hdrifted.inRange (Nat.le_trans (Listing.front_inv hsplit).2 hstream) htick
  · intro before i after hsplit
    have hstate : (ctx.play chunk.streamStart .initial (before ++ [i])).state =
        (ctx.play chunk.streamStart .initial before).state.after i := by
      rw [Context.play_append]
      rfl
    have hbehind : (Listing.ofBytes (data.drop chunk.streamStart)).instructions =
        (before ++ [i]) ++ after := by
      rw [hsplit, List.append_assoc]
      rfl
    obtain ⟨-, htick⟩ := ctx.play_front chunk.streamStart hstream hsplit
    obtain ⟨hdrifted, -⟩ := ctx.play_front chunk.streamStart hstream hbehind
    rw [hstate] at hdrifted
    exact (hdrifted.of_tick _).inRange (Nat.le_trans (Listing.front_inv hbehind).2 hstream) htick
  · intro before more after hsplit
    rw [Context.play_append]
    exact Context.tick_le_state_play

end Dse

/-! ### Loading -/

/-- **No number of a conversion leaves its range.** In a file of up to 32 MiB, wherever the walk
along the table of chunks gets to, its place and all that is computed there fit 64 bits; and so do
the places and the cursor of each track at each instruction, whose octave, keys and delay fit 32
bits. The cursor never goes back. -/
theorem load_inRange {data : Bytes} (h : data.length ≤ 2 ^ 25) (tables : SideTables) :
    (∀ count chunks, Dse.readChunks data count 0 Dse.firstChunkOffset = .ok chunks →
      (∀ more, Dse.readChunks data (count + more) 0 Dse.firstChunkOffset =
        (Dse.readChunks data more count (Dse.tableEnd Dse.firstChunkOffset chunks)).map
          (chunks ++ ·)) ∧
      Dse.tableEnd Dse.firstChunkOffset chunks + Dse.chunkDataOffset < 2 ^ 64 ∧
      ∀ chunk ∈ chunks, chunk.InRange) ∧
    ∀ header, Dse.Header.read data = .ok header →
      ∀ index (chunk : Dse.Chunk), header.tracks[index]? = some chunk →
        chunk.RunsInRange data ⟨tables, index⟩ := by
  constructor
  · intro count chunks hchunks
    refine ⟨?_, ?_, fun chunk => Dse.Chunk.inRange_of_readChunks h hchunks⟩
    · intro more
      rw [Dse.readChunks_add hchunks, Nat.zero_add]
    · rcases Dse.tableEnd_inv Dse.firstChunkOffset chunks with hend | ⟨chunk, hchunk, hend⟩
      · rw [hend]
        decide
      · have hnext := Dse.Chunk.next_le_of_readChunks hchunks hchunk
        rw [hend, Dse.chunkDataOffset]
        omega
  · intro header hheader index chunk hchunk
    obtain ⟨size, field, count, chunks, -, -, -, hchunks, rfl⟩ := Dse.Header.read_inv hheader
    have hmem : chunk ∈ chunks := List.mem_of_getElem? hchunk
    obtain ⟨-, hinside, -⟩ := Dse.Chunk.bounds_of_readChunks hchunks hmem
    exact Dse.Chunk.runsInRange h hinside _

/-- The longest delay, made longer, in front of a note an octave up. -/
def steepInstructions : List Dse.Instruction :=
  [.delay16 0xFF 0xFF, .addDelay 0x7F, .note 0x40 0xB4 [1, 0]]

/-- A file with these instructions. -/
def steepFile : Bytes :=
  singleTrackFile (Dse.streamBytes steepInstructions ++ [Dse.endOpcode])

/-- The numbers of a small file are in range, also where they grow as fast as they can. -/
theorem load_inRange_steepFile :
    ∃ chunk, Dse.Header.read steepFile = .ok ⟨0, "", 1, [chunk]⟩ ∧ chunk.InRange ∧
      (Dse.Context.play ⟨.default, 0⟩ chunk.streamStart .initial
        steepInstructions).state.InRange := by
  have hread : Dse.Header.read steepFile = _ := read_singleTrackFile _
  have hsmall : steepFile.length ≤ 2 ^ 25 := by decide +kernel
  obtain ⟨hwalk, hruns⟩ := load_inRange hsmall .default
  obtain ⟨size, field, count, chunks, -, -, -, hchunks, hheader⟩ := Dse.Header.read_inv hread
  obtain rfl := (Dse.Header.mk.inj hheader).2.2.2
  refine ⟨_, hread, (hwalk _ _ hchunks).2.2 _ List.mem_cons_self, ?_⟩
  refine (hruns _ hread 0 _ rfl).state steepInstructions [] ?_
  show (Dse.Listing.ofBytes (steepFile.drop 0x94)).instructions = _
  rw [steepFile, drop_singleTrackFile, Dse.Listing.ofBytes_streamBytes (by decide), List.append_nil]

end DseMidi
