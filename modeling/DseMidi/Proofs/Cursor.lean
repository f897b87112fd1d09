import DseMidi.Cursor
import DseMidi.Proofs.Bytes

/-!
# DseMidi.Proofs.Cursor

**Reads tile the file.** Whatever is read of a file, and whatever is looked at or fails in between,
the bytes of what was read are the stretch of the file from where the cursor started to where it
stands (`Cursor.run_tiles`). Nothing is passed over and nothing is read twice.

* All kinds of reads take bytes in the same way: the bytes can be got back from each value, and
  they are those of a plain read of the same width (`Cursor.readItem_eq`).
* One step keeps the stretch that was read so far (`Cursor.Tiles.perform`), so a run of any steps
  does.
-/

namespace DseMidi

/-- A stretch is seen if it lies in the file. Otherwise the fault says where it is missing: at the
end of the file, or at its own start if it is behind the end or too long to be anywhere. -/
theorem peek_eq {data : Bytes} (hdata : data.length < 2 ^ 64) (offset len : Nat) :
    peek data offset len =
      if offset + len ≤ data.length then .ok ((data.drop offset).take len)
      else .error (.truncated
        (if offset + len < 2 ^ 64 then max offset data.length else offset) data.length) := by
  have hpow : Nat.pow 2 64 = 2 ^ 64 := rfl
  rw [peek, hpow]
  by_cases hinside : offset + len ≤ data.length
  · rw [if_neg (by omega), if_pos hinside, if_pos hinside]
  · by_cases hsmall : offset + len < 2 ^ 64
    · rw [if_neg (by omega), if_neg hinside, if_neg hinside, if_pos hsmall]
    · rw [if_pos (by omega), if_neg hinside, if_neg hsmall]

namespace Cursor

/-! ### Kinds of reads -/

/-- What can be read at a time. -/
inductive Item
  | bytes (len : Nat)
  | byte
  | int8
  | wordLE
  | wordBE
  deriving DecidableEq

/-- The number of bytes of an item. -/
def Item.width : Item → Nat
  | bytes len => len
  | byte | int8 => 1
  | wordLE | wordBE => 2

/-- Reads an item and gives its bytes, got back from the value that was read. -/
def readItem (c : Cursor) : Item → Except Fault (Bytes × Cursor)
  | .bytes len => c.read len
  | .byte => c.readByte.map fun (b, c) => ([b], c)
  | .int8 => c.readInt8.map fun (n, c) => ([n.toUInt8], c)
  | .wordLE => c.readWordLE.map fun (n, c) => ((beBytes 2 n.toNat).reverse, c)
  | .wordBE => c.readWordBE.map fun (n, c) => (beBytes 2 n.toNat, c)

theorem map_map {α β γ : Type} (x : Except Fault α) (f : α → β) (g : β → γ) :
    (x.map f).map g = x.map (g ∘ f) := by
  cases x <;> rfl

/-- What changes nothing in as many bytes as are read changes nothing in the read. -/
theorem map_read {len : Nat} {f : Bytes × Cursor → Bytes × Cursor}
    (h : ∀ bytes c, bytes.length = len → f (bytes, c) = (bytes, c)) (c : Cursor) :
    (c.read len).map f = c.read len := by
  rw [read]
  cases hpeek : peek c.data c.position len with
  | error fault => rfl
  | ok bytes => exact congrArg Except.ok (h bytes _ (length_of_peek hpeek))

theorem singleton_ofNat_beNat {bytes : Bytes} (h : bytes.length = 1) :
    [UInt8.ofNat (beNat bytes)] = bytes := by
  obtain ⟨b, rfl⟩ := List.length_eq_one_iff.mp h
  simp [beNat]

theorem beBytes_ofNat_beNat {bytes : Bytes} (h : bytes.length = 2) :
    beBytes 2 (UInt16.ofNat (beNat bytes)).toNat = bytes := by
  have hsmall : beNat bytes < 2 ^ 16 := by
    rw [show 2 ^ 16 = 256 ^ 2 from rfl, ← h]
    exact beNat_lt bytes
  have hback := beBytes_beNat bytes
  rw [h] at hback
  rw [UInt16.toNat_ofNat_of_lt' hsmall, hback]

/-- Every kind of item takes the bytes that a plain read of its width takes. -/
theorem readItem_eq (c : Cursor) (item : Item) : c.readItem item = c.read item.width := by
  cases item with
  | bytes len => rfl
  | byte =>
    rw [readItem, readByte, map_map]
    refine map_read (fun bytes c h => ?_) c
    exact congrArg (·, c) (singleton_ofNat_beNat h)
  | int8 =>
    rw [readItem, readInt8, readByte, map_map, map_map]
    refine map_read (fun bytes c h => ?_) c
    exact congrArg (·, c) (singleton_ofNat_beNat h)
  | wordLE =>
    rw [readItem, readWordLE, map_map]
    refine map_read (fun bytes c h => ?_) c
    have hback : (beBytes 2 (UInt16.ofNat (leNat bytes)).toNat).reverse = bytes := by
      rw [leNat, beBytes_ofNat_beNat (by rwa [List.length_reverse]), List.reverse_reverse]
    exact congrArg (·, c) hback
  | wordBE =>
    rw [readItem, readWordBE, map_map]
    refine map_read (fun bytes c h => ?_) c
    exact congrArg (·, c) (beBytes_ofNat_beNat h)

/-! ### Steps -/

/-- What can be done with a file and a cursor in it: reading on, and looking at any place. -/
inductive Step
  | read (item : Item)
  | peek (offset len : Nat)
  | peekNat (offset width : Nat)
  deriving DecidableEq

/-- What a step gives. -/
inductive Answer
  /-- The bytes of an item that was read. -/
  | taken (bytes : Bytes)
  /-- Bytes that were looked at. -/
  | seen (bytes : Bytes)
  /-- A number that was looked at. -/
  | number (n : Nat)
  deriving DecidableEq

/-- What a step gives, and the cursor for the next step. A read that fails leaves it alone. -/
def perform (c : Cursor) : Step → Except Fault Answer × Cursor
  | .read item =>
    match c.readItem item with
    | .ok (bytes, next) => (.ok (.taken bytes), next)
    | .error fault => (.error fault, c)
  | .peek offset len => ((peek c.data offset len).map .seen, c)
  | .peekNat offset width => ((peekNat c.data offset width).map .number, c)

/-- What steps give, one after the other, and the cursor behind them. -/
def run (c : Cursor) : List Step → List (Except Fault Answer) × Cursor
  | [] => ([], c)
  | step :: steps =>
    let following := (c.perform step).2.run steps
    ((c.perform step).1 :: following.1, following.2)

/-- A read takes the stretch in front of the cursor and moves it behind that, or fails. -/
theorem perform_read {c : Cursor} (h : c.data.length < 2 ^ 64) (item : Item) :
    c.perform (.read item) =
      if c.position + item.width ≤ c.data.length then
        (.ok (.taken ((c.data.drop c.position).take item.width)),
          ⟨c.data, c.position + item.width⟩)
      else
        (.error (.truncated
          (if c.position + item.width < 2 ^ 64 then max c.position c.data.length else c.position)
          c.data.length), c) := by
  rw [perform, readItem_eq, read, peek_eq h]
  by_cases hinside : c.position + item.width ≤ c.data.length
  · rw [if_pos hinside, if_pos hinside]
    rfl
  · rw [if_neg hinside, if_neg hinside]
    rfl

/-- The bytes that a step takes, if it is a read and succeeds. -/
def takenBytes : Except Fault Answer → Bytes
  | .ok (.taken bytes) => bytes
  | _ => []

theorem run_cons (c : Cursor) (step : Step) (steps : List Step) :
    c.run (step :: steps) =
      ((c.perform step).1 :: ((c.perform step).2.run steps).1,
        ((c.perform step).2.run steps).2) := rfl

theorem run_append (c : Cursor) (steps more : List Step) :
    c.run (steps ++ more) =
      ((c.run steps).1 ++ ((c.run steps).2.run more).1, ((c.run steps).2.run more).2) := by
  induction steps generalizing c with
  | nil => rfl
  | cons step steps ih => simp only [List.cons_append, run_cons, ih]

/-! ### Tiling -/

/-- The cursor has come from `start` to where it stands, and `taken` is the stretch between. -/
structure Tiles (data : Bytes) (start : Nat) (taken : Bytes) (c : Cursor) : Prop where
  data_eq : c.data = data
  start_le : start ≤ c.position
  taken_eq : taken = (data.drop start).take (c.position - start)
  length_taken : taken.length = c.position - start

theorem tiles_start (data : Bytes) (start : Nat) : Tiles data start [] ⟨data, start⟩ :=
  ⟨rfl, Nat.le_refl _, by simp, by simp⟩

/-- **One read** adds the stretch that it takes to the stretch before it. -/
theorem Tiles.read {data taken : Bytes} {start len : Nat} {c : Cursor}
    (h : Tiles data start taken c) (hinside : c.position + len ≤ data.length) :
    Tiles data start (taken ++ (data.drop c.position).take len) (c.seek (c.position + len)) := by
  obtain ⟨rfl, hle, htaken, hlength⟩ := h
  have hsum : c.position + len - start = c.position - start + len := by omega
  have hbehind : (c.data.drop start).drop (c.position - start) = c.data.drop c.position := by
    rw [List.drop_drop, Nat.add_sub_cancel' hle]
  refine ⟨rfl, Nat.le_trans hle (Nat.le_add_right _ _), ?_, ?_⟩
  · show _ = (c.data.drop start).take (c.position + len - start)
    rw [hsum, List.take_add, hbehind, htaken]
  · show _ = c.position + len - start
    rw [hsum, List.length_append, hlength, List.length_take, List.length_drop]
    omega

/-- **One step** adds what it takes. -/
theorem Tiles.perform {data taken : Bytes} {start : Nat} {c : Cursor}
    (hdata : data.length < 2 ^ 64) (h : Tiles data start taken c) (step : Step) :
    Tiles data start (taken ++ takenBytes (c.perform step).1) (c.perform step).2 := by
  have hnothing : Tiles data start (taken ++ []) c := by rwa [List.append_nil]
  obtain rfl := h.data_eq
  cases step with
  | read item =>
    rw [perform_read hdata]
    by_cases hinside : c.position + item.width ≤ c.data.length
    · rw [if_pos hinside]
      exact h.read hinside
    · rw [if_neg hinside]
      exact hnothing
  | peek offset len =>
    rw [Cursor.perform]
    cases peek c.data offset len with
    | error fault => exact hnothing
    | ok bytes => exact hnothing
  | peekNat offset width =>
    rw [Cursor.perform]
    cases peekNat c.data offset width with
    | error fault => exact hnothing
    | ok n => exact hnothing

/-- **A run** takes what its steps take, one behind the other. -/
theorem Tiles.run {data taken : Bytes} {start : Nat} {c : Cursor} (hdata : data.length < 2 ^ 64)
    (h : Tiles data start taken c) (steps : List Step) :
    Tiles data start (taken ++ (c.run steps).1.flatMap takenBytes) (c.run steps).2 := by
  induction steps generalizing c taken with
  | nil =>
    rw [Cursor.run, List.flatMap_nil, List.append_nil]
    exact h
  | cons step steps ih =>
    have hrest := ih (h.perform hdata step)
    rw [List.append_assoc] at hrest
    exact hrest

/-- **Reads tile the file.** Let any steps be done from any place of a file. The bytes of the items
that were read are the stretch of the file between this place and the cursor, and the cursor has
moved by as many. One step more, whatever the steps before it were, does this:

* A read succeeds exactly if what it reads lies in the file. It gives the bytes in front of the
  cursor and moves it behind them.
* A read that fails says how long the file is and where the bytes are missing, and leaves the
  cursor where it is.
* So does looking at any place. -/
theorem run_tiles {data : Bytes} (hdata : data.length < 2 ^ 64) (start : Nat)
    (steps : List Step) :
    let ran := run ⟨data, start⟩ steps
    ran.2.data = data ∧ start ≤ ran.2.position ∧
    ran.1.flatMap takenBytes = (data.drop start).take (ran.2.position - start) ∧
    (ran.1.flatMap takenBytes).length = ran.2.position - start ∧
    (∀ item, run ⟨data, start⟩ (steps ++ [.read item]) =
      if ran.2.position + item.width ≤ data.length then
        (ran.1 ++ [.ok (.taken ((data.drop ran.2.position).take item.width))],
          ⟨data, ran.2.position + item.width⟩)
      else
        (ran.1 ++ [.error (.truncated
            (if ran.2.position + item.width < 2 ^ 64 then max ran.2.position data.length
              else ran.2.position) data.length)],
          ran.2)) ∧
    (∀ offset len, run ⟨data, start⟩ (steps ++ [.peek offset len]) =
      (ran.1 ++ [(peek data offset len).map .seen], ran.2)) ∧
    ∀ offset width, run ⟨data, start⟩ (steps ++ [.peekNat offset width]) =
      (ran.1 ++ [(peekNat data offset width).map .number], ran.2) := by
  intro ran
  obtain ⟨hran, hle, htaken, hlength⟩ := (tiles_start data start).run hdata steps
  refine ⟨hran, hle, htaken, hlength, ?_, ?_, ?_⟩
  · intro item
    have hsmall : ran.2.data.length < 2 ^ 64 := by rwa [hran]
    rw [run_append, run_cons, perform_read hsmall, hran]
    by_cases hinside : ran.2.position + item.width ≤ data.length
    · rw [if_pos hinside, if_pos hinside]
      rfl
    · rw [if_neg hinside, if_neg hinside]
      rfl
  · intro offset len
    rw [run_append, run_cons, perform, hran]
    rfl
  · intro offset width
    rw [run_append, run_cons, perform, hran]
    rfl

/-- Two words and a byte. -/
def wordsFile : Bytes := [0x34, 0x12, 0x12, 0x35, 0xFE]

/-- Words of both byte orders and a signed byte. In between, one read is too long for the file and
one for the range of positions. -/
def mixedSteps : List Step :=
  [.read .wordLE, .read (.bytes 4), .peek 4 1, .read .wordBE, .read (.bytes (2 ^ 64 - 1)),
    .read .int8]

/-- What these steps give in the file. -/
def mixedAnswers : List (Except Fault Answer) :=
  [.ok (.taken [0x34, 0x12]), .error (.truncated 5 5), .ok (.seen [0xFE]),
    .ok (.taken [0x12, 0x35]), .error (.truncated 4 5), .ok (.taken [0xFE])]

theorem run_mixedSteps : run ⟨wordsFile, 0⟩ mixedSteps = (mixedAnswers, ⟨wordsFile, 5⟩) := rfl

/-- All of the file is taken, and a further byte is missing. -/
theorem run_tiles_mixedSteps :
    run ⟨wordsFile, 0⟩ mixedSteps = (mixedAnswers, ⟨wordsFile, 5⟩) ∧
      mixedAnswers.flatMap takenBytes = wordsFile ∧
      run ⟨wordsFile, 0⟩ (mixedSteps ++ [.read .byte]) =
        (mixedAnswers ++ [.error (.truncated 5 5)], ⟨wordsFile, 5⟩) := by
  have hsmall : wordsFile.length < 2 ^ 64 := by decide
  obtain ⟨-, -, htaken, -, hnext, -⟩ := run_tiles hsmall 0 mixedSteps
  have hbyte := hnext .byte
  rw [run_mixedSteps] at htaken hbyte
  exact ⟨run_mixedSteps, htaken, hbyte⟩

end Cursor

end DseMidi
