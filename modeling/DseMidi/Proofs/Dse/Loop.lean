import DseMidi.Proofs.Dse.Timeline

/-!
# DseMidi.Proofs.Dse.Loop

**Decoding ends, and what it gives is linear in what it reads.** A track is decoded turn by turn
until its end is found or something cannot be read. Nothing counts the turns. `Player.loop` does,
to have a number of turns to speak of, and `Player.loop_eq` says that the count is never what ends
it: a reader that moves forward with each turn runs out of data first.

An instruction gives no more events than it has bytes, except the first pitch bend, which sends the
bend range before itself. This is paid for by `State.credit`, what a state may still give beyond
its bytes: two events until the range is sent, and none afterwards. What has been given, and what
may still be given, never exceeds the bytes that were read and the credit at the start
(`Player.Account`).
-/

namespace DseMidi.Dse

/-! ### Turns -/

/-- A track while it is decoded: the position of the reader, and what came out so far. -/
structure Player where
  position : Nat
  state : State
  events : List Event
  warnings : List Fault

/-- What a turn leaves. -/
inductive Turn
  /-- Another turn follows. -/
  | next (p : Player)
  /-- The track has ended. -/
  | last (p : Player)

/-- The player behind a turn. -/
def Turn.player : Turn → Player
  | next p => p
  | last p => p

namespace Player

/-- The player in front of a track. -/
def start (position : Nat) (state : State) : Player := ⟨position, state, [], []⟩

/-- What the player has decoded. -/
def decoded (p : Player) : Decoded := ⟨p.events, p.state, p.warnings⟩

/-- One turn: what stands at the reader is played, and the reader goes to what it left unread. -/
def turn (ctx : Context) (data : Bytes) (p : Player) : Except Fault Turn :=
  match Front.ofBytes (data.drop p.position) with
  | .instruction i rest =>
    .ok (.next
      { position := data.length - rest.length
        state := p.state.after i
        events := p.events ++ ctx.events p.state i
        warnings := p.warnings ++ ctx.warnings p.position p.state i })
  | .endOfTrack rest =>
    .ok (.last
      { p with
        position := data.length - rest.length
        events := p.events ++ [.ofMeta p.state.tick (.text endMarker)] })
  | .unknown opcode => .error (.unknownOpcode opcode p.position)
  | .truncated => .error (.truncated (max data.length p.position) data.length)

/-- Turns until the track has ended or cannot be read, but not more than a number of them. -/
def loop (ctx : Context) (data : Bytes) : Nat → Player → Except Fault Turn
  | 0, p => .ok (.next p)
  | turns + 1, p =>
    match p.turn ctx data with
    | .ok (.next p) => loop ctx data turns p
    | .ok (.last p) => .ok (.last p)
    | .error fault => .error fault

/-- The player behind an instruction. -/
def behind (ctx : Context) (p : Player) (i : Instruction) : Player where
  position := p.position + i.size
  state := p.state.after i
  events := p.events ++ ctx.events p.state i
  warnings := p.warnings ++ ctx.warnings p.position p.state i

/-- The player behind the end of the track. -/
def ended (p : Player) : Player :=
  { p with
    position := p.position + 1
    events := p.events ++ [.ofMeta p.state.tick (.text endMarker)] }

variable {ctx : Context} {data : Bytes} {p : Player}

/-! ### What a turn does -/

/-- Where the unread data starts is as far from the reader as bytes were taken. -/
theorem position_of_drop {position : Nat} {taken rest : Bytes}
    (h : data.drop position = taken ++ rest) (htaken : 0 < taken.length) :
    data.length - rest.length = position + taken.length ∧
      position + taken.length ≤ data.length ∧
      data.drop (data.length - rest.length) = rest := by
  have hlength := congrArg List.length h
  rw [List.length_drop, List.length_append] at hlength
  have hposition : data.length - rest.length = position + taken.length := by omega
  refine ⟨hposition, by omega, ?_⟩
  rw [hposition, ← List.drop_drop, h, List.drop_left]

theorem turn_of_instruction (ctx : Context) {i : Instruction} {rest : Bytes}
    (h : Front.ofBytes (data.drop p.position) = .instruction i rest) :
    p.turn ctx data = .ok (.next (p.behind ctx i)) ∧
      p.position + i.size ≤ data.length ∧ data.drop (p.position + i.size) = rest := by
  obtain ⟨hposition, hle, hdrop⟩ := position_of_drop (Front.ofBytes_eq_instruction h).1 i.size_pos
  rw [hposition] at hdrop
  refine ⟨?_, hle, hdrop⟩
  rw [turn, h]
  dsimp only
  rw [hposition]
  rfl

theorem turn_of_endOfTrack (ctx : Context) {rest : Bytes}
    (h : Front.ofBytes (data.drop p.position) = .endOfTrack rest) :
    p.turn ctx data = .ok (.last p.ended) ∧ p.position + 1 ≤ data.length := by
  have htaken : data.drop p.position = [endOpcode] ++ rest := Front.ofBytes_eq_endOfTrack_iff.mp h
  obtain ⟨hposition, hle, -⟩ := position_of_drop htaken Nat.one_pos
  refine ⟨?_, hle⟩
  rw [turn, h]
  dsimp only
  rw [hposition]
  rfl

theorem turn_of_unknown {opcode : UInt8}
    (h : Front.ofBytes (data.drop p.position) = .unknown opcode) :
    p.turn ctx data = .error (.unknownOpcode opcode p.position) := by
  rw [turn, h]

theorem turn_of_truncated (h : Front.ofBytes (data.drop p.position) = .truncated) :
    p.turn ctx data = .error (.truncated (max data.length p.position) data.length) := by
  rw [turn, h]

/-- A turn that does not fail plays an instruction or ends the track, and what it takes for that
lies in the data. -/
theorem turn_inv {turned : Turn} (h : p.turn ctx data = .ok turned) :
    (∃ i, turned = .next (p.behind ctx i) ∧ p.position + i.size ≤ data.length) ∨
      turned = .last p.ended ∧ p.position + 1 ≤ data.length := by
  cases hfront : Front.ofBytes (data.drop p.position) with
  | instruction i rest =>
    obtain ⟨hturn, hle, -⟩ := turn_of_instruction ctx hfront
    rw [hturn] at h
    exact .inl ⟨i, (Except.ok.inj h).symm, hle⟩
  | endOfTrack rest =>
    obtain ⟨hturn, hle⟩ := turn_of_endOfTrack ctx hfront
    rw [hturn] at h
    exact .inr ⟨(Except.ok.inj h).symm, hle⟩
  | unknown opcode =>
    rw [turn_of_unknown hfront] at h
    cases h
  | truncated =>
    rw [turn_of_truncated hfront] at h
    cases h

/-- **One turn** moves the reader forward, and not past the end. -/
theorem position_lt_of_turn {turned : Turn} (h : p.turn ctx data = .ok turned) :
    p.position < turned.player.position ∧ turned.player.position ≤ data.length := by
  obtain ⟨i, rfl, hle⟩ | ⟨rfl, hle⟩ := turn_inv h
  · exact ⟨Nat.lt_add_of_pos_right i.size_pos, hle⟩
  · exact ⟨Nat.lt_succ_self _, hle⟩

/-! ### Enough turns -/

/-- What comes of playing the instructions of a stream that stops with `ending`. -/
def outcome (ctx : Context) (data : Bytes) (p : Player) (listing : Listing) :
    Except Fault Player :=
  let played := ctx.play p.position p.state listing.instructions
  match listing.ending with
  | .complete _ =>
    .ok
      { position := p.position + streamSize listing.instructions + 1
        state := played.state
        events := p.events ++ played.events ++ [.ofMeta played.state.tick (.text endMarker)]
        warnings := p.warnings ++ played.warnings }
  | .unknown opcode =>
    .error (.unknownOpcode opcode (p.position + streamSize listing.instructions))
  | .truncated => .error (.truncated (max data.length p.position) data.length)

/-- Behind its first instruction a stream comes to the same. -/
theorem outcome_cons {i : Instruction} {is : List Instruction} {ending : Ending}
    (hle : p.position + i.size ≤ data.length) :
    outcome ctx data (p.behind ctx i) ⟨is, ending⟩ = outcome ctx data p ⟨i :: is, ending⟩ := by
  cases ending with
  | complete rest =>
    simp only [outcome, behind, Context.play_cons, streamSize_cons, List.append_assoc,
      Nat.add_assoc]
  | unknown opcode => simp only [outcome, behind, streamSize_cons, Nat.add_assoc]
  | truncated =>
    have hmax : max data.length (p.position + i.size) = max data.length p.position := by omega
    simp only [outcome, behind, hmax]

/-- **Whole runs.** With more turns than there are bytes in front of the reader, the loop ends, and
it ends with what the stream comes to. -/
theorem loop_eq {turns : Nat} (h : data.length < p.position + turns) (hstart : 0 < turns) :
    p.loop ctx data turns =
      (outcome ctx data p (Listing.ofBytes (data.drop p.position))).map .last := by
  induction turns generalizing p with
  | zero => cases hstart
  | succ turns ih =>
    cases hfront : Front.ofBytes (data.drop p.position) with
    | instruction i rest =>
      obtain ⟨hturn, hle, hdrop⟩ := turn_of_instruction ctx hfront
      -- There is a turn left, since this one has not come to the end of the data.
      have hsize := i.size_pos
      rw [Listing.ofBytes_of_instruction hfront, ← outcome_cons hle, ← hdrop, loop, hturn]
      exact ih (by dsimp only [behind]; omega) (by omega)
    | endOfTrack rest =>
      rw [Listing.ofBytes_of_endOfTrack hfront, loop, (turn_of_endOfTrack ctx hfront).1]
      simp only [outcome, Context.play_nil, List.append_nil, streamSize_nil, Nat.add_zero]
      rfl
    | unknown opcode =>
      rw [Listing.ofBytes_of_unknown hfront, loop, turn_of_unknown hfront]
      rfl
    | truncated =>
      rw [Listing.ofBytes_of_truncated hfront, loop, turn_of_truncated hfront]
      rfl

/-- From the start of a stream, a turn for each byte of it and one more are enough. -/
theorem loop_start {first turns : Nat} (s : State) (h : data.length - first < turns) :
    (start first s).loop ctx data turns =
      (outcome ctx data (start first s) (Listing.ofBytes (data.drop first))).map .last := by
  have hleft : data.length < first + turns := by omega
  exact loop_eq hleft (by omega)

end Player

/-- Decoding a track is the loop from where its stream starts. -/
theorem Chunk.decode_eq_outcome (chunk : Chunk) (data : Bytes) (track : Nat) (tables : SideTables)
    (state : State) :
    chunk.decode data track tables state =
      (Player.outcome ⟨tables, track⟩ data (.start chunk.streamStart state)
        (Listing.ofBytes (data.drop chunk.streamStart))).map Player.decoded := by
  rcases hlisting : Listing.ofBytes (data.drop chunk.streamStart) with ⟨is, ending⟩
  cases ending with
  | complete rest => rw [decode_of_complete hlisting]; rfl
  | unknown opcode => rw [decode_of_unknown hlisting]; rfl
  | truncated => rw [decode_of_truncated hlisting]; rfl

/-! ### The account -/

/-- The events that may still be given beyond the bytes that are read for them. -/
def State.credit (s : State) : Nat :=
  if s.bendReady then 0 else 2

/-- **One instruction** gives no more events than it has bytes, apart from the credit that it
spends. -/
theorem Context.length_events_le (ctx : Context) (s : State) (i : Instruction) :
    (ctx.events s i).length + (s.after i).credit ≤ i.size + s.credit := by
  cases i with
  | pitchBend high low =>
    have hcredit : (s.after (.pitchBend high low)).credit = 0 := rfl
    have hsize : (Instruction.pitchBend high low).size = 3 := rfl
    rw [hcredit, hsize, events, State.credit]
    cases s.bendReady <;> simp [bendRangeEvents]
  | note velocity arg lengthBytes =>
    -- Here and below the credit stays what it is.
    refine Nat.add_le_add ?_ (Nat.le_refl _)
    rw [events]
    split <;> simp [noteEvents, Instruction.size, Instruction.bytes]
  | tempo bpm =>
    refine Nat.add_le_add ?_ (Nat.le_refl _)
    rw [events]
    split <;> simp [Instruction.size, Instruction.bytes]
  | _ =>
    refine Nat.add_le_add ?_ (Nat.le_refl _)
    simp [events, Instruction.size, Instruction.bytes]

/-- An instruction that is warned about has at least two bytes. -/
theorem Context.length_warnings_le (ctx : Context) (offset : Nat) (s : State) (i : Instruction) :
    2 * (ctx.warnings offset s i).length ≤ i.size := by
  cases i with
  | note velocity arg lengthBytes =>
    rw [warnings]
    split <;> simp [Instruction.size, Instruction.bytes]
  | tempo bpm =>
    rw [warnings]
    split <;> simp [Instruction.size, Instruction.bytes]
  | _ => simp [warnings]

namespace Player

/-- What a player that came from `start` and state `s` has given and may still give, against what
it has read. -/
structure Account (start : Nat) (s : State) (p : Player) : Prop where
  start_le : start ≤ p.position
  events_le : p.events.length + p.state.credit ≤ p.position - start + s.credit
  warnings_le : 2 * p.warnings.length ≤ p.position - start

variable {ctx : Context} {data : Bytes} {first : Nat} {s : State} {p : Player}

/-- What the account says without the credit, of which there are two events at most. -/
theorem Account.bounds (h : Account first s p) :
    p.events.length ≤ p.position - first + 2 ∧
      (s.bendReady → p.events.length ≤ p.position - first) ∧
      p.warnings.length ≤ (p.position - first) / 2 := by
  obtain ⟨-, hevents, hwarnings⟩ := h
  refine ⟨?_, ?_, by omega⟩
  · have hcredit : s.credit ≤ 2 := by
      rw [State.credit]
      split <;> omega
    omega
  · intro hready
    have hcredit : s.credit = 0 := if_pos hready
    omega

theorem account_start (first : Nat) (s : State) : Account first s (.start first s) :=
  ⟨Nat.le_refl _, by simp [start], by simp [start]⟩

/-- **One turn** keeps the account: the credit pays for the bend range, and the byte that ends the
track for the text there. -/
theorem Account.turn (h : Account first s p) {turned : Turn}
    (hturn : p.turn ctx data = .ok turned) : Account first s turned.player := by
  obtain ⟨hstart, hevents, hwarnings⟩ := h
  obtain ⟨i, rfl, -⟩ | ⟨rfl, -⟩ := turn_inv hturn
  · have hplayed := ctx.length_events_le p.state i
    have hwarned := ctx.length_warnings_le p.position p.state i
    refine ⟨?_, ?_, ?_⟩
    all_goals simp only [Turn.player, behind, List.length_append]; omega
  · refine ⟨?_, ?_, ?_⟩
    all_goals simp only [Turn.player, ended, List.length_append, List.length_singleton]; omega

/-- **Whole runs** keep the account, and the reader ends in the data, behind where it started. -/
theorem Account.loop (h : Account first s p) {turns : Nat} {final : Player}
    (hloop : p.loop ctx data turns = .ok (.last final)) :
    Account first s final ∧ first < final.position ∧ final.position ≤ data.length := by
  induction turns generalizing p with
  | zero => cases hloop
  | succ turns ih =>
    rw [Player.loop] at hloop
    cases hturn : p.turn ctx data with
    | error fault =>
      rw [hturn] at hloop
      cases hloop
    | ok turned =>
      rw [hturn] at hloop
      cases turned with
      | next p => exact ih (h.turn hturn) hloop
      | last p =>
        cases hloop
        obtain ⟨hlt, hle⟩ := position_lt_of_turn hturn
        exact ⟨h.turn hturn, Nat.lt_of_le_of_lt h.start_le hlt, hle⟩

end Player

/-- **Decoding ends, and what it gives is linear.** Each turn of the loop that does not fail moves
the reader forward by at least a byte, and not past the end of the data. So the loop ends: with
more turns than there are bytes in front of it, it has come to the end of the track or to something
that cannot be read, and this is what decoding gives. When the track has ended, the reader has
taken some of the bytes from the start of the stream on, and

* there are at most two more events than bytes, and not even one more if the bend range had been
  sent before;
* there is at most one warning for two bytes. -/
theorem Chunk.decode_linear (chunk : Chunk) (data : Bytes) (track : Nat) (tables : SideTables)
    (state : State) :
    let ctx : Context := ⟨tables, track⟩
    (∀ p turned, Player.turn ctx data p = .ok turned →
      p.position < turned.player.position ∧ turned.player.position ≤ data.length) ∧
    ∃ outcome : Except Fault Player,
      (∀ turns, data.length - chunk.streamStart < turns →
        Player.loop ctx data turns (.start chunk.streamStart state) = outcome.map .last) ∧
      chunk.decode data track tables state = outcome.map Player.decoded ∧
      ∀ p, outcome = .ok p →
        let consumed := p.position - chunk.streamStart
        chunk.streamStart < p.position ∧ p.position ≤ data.length ∧
        p.decoded.events.length ≤ consumed + 2 ∧
        (state.bendReady → p.decoded.events.length ≤ consumed) ∧
        p.decoded.warnings.length ≤ consumed / 2 := by
  intro ctx
  refine ⟨fun p turned h => Player.position_lt_of_turn h, _,
    fun turns hturns => Player.loop_start state hturns,
    chunk.decode_eq_outcome data track tables state, ?_⟩
  intro p hp consumed
  -- The player at the end is the one that the loop leaves, so the account holds of it.
  have hturns : data.length - chunk.streamStart < data.length + 1 := by omega
  have hloop : Player.loop ctx data (data.length + 1) (.start chunk.streamStart state) =
      .ok (.last p) :=
    (Player.loop_start state hturns).trans (congrArg (Except.map Turn.last) hp)
  obtain ⟨haccount, hlt, hle⟩ := (Player.account_start chunk.streamStart state).loop hloop
  exact ⟨hlt, hle, haccount.bounds⟩

/-- Two events more than bytes are possible: here, six of four. -/
example :
    (Player.loop ⟨.default, 0⟩ [0xD7, 0x40, 0x00, 0x98] 5 (.start 0 .initial)).map
      (·.player.events.length) = .ok 6 := rfl

/-- So is a warning for every two bytes. -/
example :
    (Player.loop ⟨.default, 0⟩ [0xA4, 0x00, 0xA4, 0x00, 0x98] 6 (.start 0 .initial)).map
      (·.player.warnings.length) = .ok 2 := rfl

end DseMidi.Dse
