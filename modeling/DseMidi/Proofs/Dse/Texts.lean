import DseMidi.Dump
import DseMidi.Proofs.Dse.Adaptation
import DseMidi.Proofs.Dse.Messages

/-!
# DseMidi.Proofs.Dse.Texts

**What has no meaning in MIDI is not lost.** The start of a loop, the end of a track and the
instructions without meaning in MIDI are kept as text. The texts of a track are those of these
words of its stream, one for each, in their order (`Context.leavesText_events`). A text says which
word it stands for, opcode and operands (`wordOfText_wordText`), so the words can be read back from
the texts alone.

Every text is printable, so a dump shows it as a string and not as a list of numbers.
-/

namespace DseMidi

/-- The payload of a text event. -/
def Event.textData? (e : Event) : Option Bytes :=
  match e.message with
  | .metaEvent .text data => some data
  | _ => none

theorem Event.textData?_eq_some_iff {e : Event} {data : Bytes} :
    e.textData? = some data ↔ e.message = .text data := by
  rcases e with ⟨tick, channel, message⟩
  cases message with
  | metaEvent type payload => cases type <;> simp [textData?, Message.text]
  | _ => simp [textData?, Message.text]

namespace Dse

/-! ### The text of a word -/

/-- The opcode at the start of a loop. -/
def loopOpcode : UInt8 := 0x99

/-- Whether a word is kept as text, which its opcode says. -/
def keptAsText : Bytes → Bool
  | [] => false
  | opcode :: _ =>
    match Operation.ofOpcode opcode with
    | .endOfTrack | .loopStart | .verbatim _ => true
    | _ => false

/-- The text that a word is kept as. -/
def wordText : Bytes → Bytes
  | [] => []
  | opcode :: operands =>
    if opcode = endOpcode then endMarker
    else if opcode = loopOpcode then loopMarker
    else verbatimText opcode operands

/-- A word of a stream, or the end of its track. -/
def IsWordOrEnd (w : Bytes) : Prop := IsWord w ∨ w = [endOpcode]

/-! ### Reading a text -/

/-- The value of an upper-case hexadecimal digit. -/
def hexValue (digit : UInt8) : UInt8 :=
  if digit < 0x3A then digit - 0x30 else digit - 0x37

/-- The bytes of a text in hexadecimal. Behind two digits, one character is passed over. -/
def bytesOfHex : Bytes → Bytes
  | high :: low :: [] => [hexValue high * 16 + hexValue low]
  | high :: low :: _ :: text => (hexValue high * 16 + hexValue low) :: bytesOfHex text
  | _ => []

/-- The word that a text stands for. -/
def wordOfText (text : Bytes) : Bytes :=
  if text = endMarker then [endOpcode]
  else if text = loopMarker then [loopOpcode]
  else bytesOfHex text

/-- A byte is two printable digits, from which it is got back. -/
theorem exists_hexByte (b : UInt8) :
    ∃ high low, asciiBytes (hexByte b) = [high, low] ∧ hexValue high * 16 + hexValue low = b ∧
      (0x20 ≤ high ∧ high < 0x7F) ∧ 0x20 ≤ low ∧ low < 0x7F := by
  refine ⟨_, _, rfl, ?_⟩
  refine forall_byte ?_ b
  decide +kernel

theorem verbatimText_nil (opcode : UInt8) :
    verbatimText opcode [] = asciiBytes (hexByte opcode) := rfl

theorem verbatimText_cons (opcode arg : UInt8) (args : Bytes) :
    verbatimText opcode (arg :: args) =
      asciiBytes (hexByte opcode) ++ 0x3A :: verbatimText arg args := by
  have hcolon : (':' : Char).toUInt8 = 0x3A := by decide
  simp [verbatimText, asciiBytes, hcolon]

/-- The text of opcode and operands gives them back. -/
theorem bytesOfHex_verbatimText (opcode : UInt8) (args : Bytes) :
    bytesOfHex (verbatimText opcode args) = opcode :: args := by
  induction args generalizing opcode with
  | nil =>
    obtain ⟨high, low, hdigits, hvalue, -⟩ := exists_hexByte opcode
    rw [verbatimText_nil, hdigits, bytesOfHex, hvalue]
  | cons arg args ih =>
    obtain ⟨high, low, hdigits, hvalue, -⟩ := exists_hexByte opcode
    rw [verbatimText_cons, hdigits, List.cons_append, List.singleton_append, bytesOfHex, hvalue, ih]

theorem verbatimText_ne_loopMarker (opcode : UInt8) (args : Bytes) :
    verbatimText opcode args ≠ loopMarker := by
  intro h
  have hlength := congrArg List.length h
  rw [length_verbatimText, show loopMarker.length = 9 from rfl] at hlength
  omega

/-! ### Words that are kept -/

/-- Only the start of a loop and what has no meaning in MIDI are kept of the instructions. -/
theorem keptAsText_bytes {i : Instruction} (h : i.WellFormed) :
    keptAsText i.bytes =
      match i with
      | .loopStart | .verbatim .. => true
      | _ => false := by
  cases i with
  | note velocity arg lengthBytes =>
    rw [Instruction.bytes, keptAsText, ofOpcode_eq_note h.1]
  | fixedDelay index =>
    revert index
    decide
  | controller dial value => cases dial <;> rfl
  | verbatim opcode args =>
    have hoperation : Operation.ofOpcode opcode = .verbatim args.length := h
    rw [Instruction.bytes, keptAsText, hoperation]
  | _ => rfl

/-- The three kinds of words that are kept. -/
theorem IsWordOrEnd.kept_cases {w : Bytes} (hw : IsWordOrEnd w) (hkept : keptAsText w) :
    w = [endOpcode] ∨ w = [loopOpcode] ∨
      ∃ opcode args, w = opcode :: args ∧ Operation.ofOpcode opcode = .verbatim args.length := by
  rcases hw with hw | rfl
  · obtain ⟨i, hwell, rfl⟩ := hw.exists_wellFormed
    rw [keptAsText_bytes hwell] at hkept
    cases i with
    | loopStart => exact .inr (.inl rfl)
    | verbatim opcode args => exact .inr (.inr ⟨opcode, args, rfl, hwell⟩)
    | _ => cases hkept
  · exact .inl rfl

theorem wordText_verbatim {opcode : UInt8} {args : Bytes} {arity : Nat}
    (h : Operation.ofOpcode opcode = .verbatim arity) :
    wordText (opcode :: args) = verbatimText opcode args := by
  have hend : opcode ≠ endOpcode := by
    rintro rfl
    cases h
  have hloop : opcode ≠ loopOpcode := by
    rintro rfl
    cases h
  rw [wordText, if_neg hend, if_neg hloop]

/-- **A text is one word's.** The word can be read back from it. -/
theorem wordOfText_wordText {w : Bytes} (hw : IsWordOrEnd w) (hkept : keptAsText w) :
    wordOfText (wordText w) = w := by
  obtain rfl | rfl | ⟨opcode, args, rfl, hoperation⟩ := hw.kept_cases hkept
  · rfl
  · rfl
  · rw [wordText_verbatim hoperation, wordOfText, if_neg (verbatimText_ne_endMarker opcode args),
      if_neg (verbatimText_ne_loopMarker opcode args), bytesOfHex_verbatimText]

theorem wordText_inj {w w' : Bytes} (hw : IsWordOrEnd w) (hkept : keptAsText w)
    (hw' : IsWordOrEnd w') (hkept' : keptAsText w') (h : wordText w = wordText w') : w = w' := by
  rw [← wordOfText_wordText hw hkept, h, wordOfText_wordText hw' hkept']

/-! ### Printable texts -/

/-- A text that a dump shows as a string. -/
def Printable (text : Bytes) : Prop :=
  text ≠ [] ∧ ∀ b ∈ text, 0x20 ≤ b ∧ b < 0x7F

instance (text : Bytes) : Decidable (Printable text) :=
  inferInstanceAs (Decidable (_ ∧ _))

theorem printable_verbatimText (opcode : UInt8) (args : Bytes) :
    Printable (verbatimText opcode args) := by
  induction args generalizing opcode with
  | nil =>
    obtain ⟨high, low, hdigits, -, hhigh, hlow⟩ := exists_hexByte opcode
    rw [verbatimText_nil, hdigits]
    refine ⟨List.cons_ne_nil _ _, ?_⟩
    simp only [List.forall_mem_cons]
    exact ⟨hhigh, hlow, List.forall_mem_nil _⟩
  | cons arg args ih =>
    obtain ⟨high, low, hdigits, -, hhigh, hlow⟩ := exists_hexByte opcode
    rw [verbatimText_cons, hdigits, List.cons_append, List.singleton_append]
    refine ⟨List.cons_ne_nil _ _, ?_⟩
    simp only [List.forall_mem_cons]
    exact ⟨hhigh, hlow, by decide, (ih arg).2⟩

theorem printable_wordText {w : Bytes} (hw : IsWordOrEnd w) (hkept : keptAsText w) :
    Printable (wordText w) := by
  obtain rfl | rfl | ⟨opcode, args, rfl, hoperation⟩ := hw.kept_cases hkept
  · decide +kernel
  · decide +kernel
  · rw [wordText_verbatim hoperation]
    exact printable_verbatimText opcode args

/-- A dump shows a printable payload as the string with just these bytes. -/
theorem Printable.exists_payloadJson {text : Bytes} (h : Printable text) :
    ∃ shown : String, asciiBytes shown.toList = text ∧ payloadJson text = .string shown := by
  refine ⟨String.ofList (text.map fun b => Char.ofNat b.toNat), ?_, ?_⟩
  · have hbyte : ∀ b : UInt8, (Char.ofNat b.toNat).toUInt8 = b := by
      refine forall_byte ?_
      decide +kernel
    rw [String.toList_ofList, asciiBytes, List.map_map]
    exact (List.map_congr_left fun b _ => hbyte b).trans (List.map_id text)
  · have hprintable : (!text.isEmpty && text.all fun b => 0x20 ≤ b && b < 0x7F) = true := by
      simpa [h.1] using h.2
    rw [payloadJson, if_pos hprintable]

/-- A dump shows an event with a printable text by that string. -/
theorem Printable.exists_json {text : Bytes} (h : Printable text) {e : Event}
    (he : e.textData? = some text) :
    ∃ shown : String, asciiBytes shown.toList = text ∧
      e.json = .object [("tick", .nat e.tick), ("channel", Json.byte e.channel),
        ("type", .string "meta"), ("kind", .string "text"), ("data", .string shown)] := by
  obtain ⟨shown, hshown, hpayload⟩ := h.exists_payloadJson
  refine ⟨shown, hshown, ?_⟩
  rw [Event.json, Event.textData?_eq_some_iff.mp he, ← hpayload]
  rfl

/-! ### Texts of instructions -/

/-- A word at a tick leaves its text as its only event, or no text. -/
def LeavesText (tick : Nat) (w : Bytes) (events : List Event) : Prop :=
  if keptAsText w then events = [.ofMeta tick (.text (wordText w))]
  else events.filterMap Event.textData? = []

theorem LeavesText.texts {tick : Nat} {w : Bytes} {events : List Event}
    (h : LeavesText tick w events) :
    events.filterMap Event.textData? = ([w].filter keptAsText).map wordText := by
  rw [LeavesText] at h
  by_cases hkept : keptAsText w
  · rw [if_pos hkept] at h
    rw [h, List.filter_cons_of_pos hkept]
    rfl
  · rw [if_neg hkept] at h
    rw [h, List.filter_cons_of_neg hkept]
    rfl

/-- **One instruction** leaves the text of its word at the current tick, or no text. -/
theorem Context.leavesText_events (ctx : Context) (s : State) {i : Instruction}
    (h : i.WellFormed) : LeavesText s.tick i.bytes (ctx.events s i) := by
  rw [LeavesText, keptAsText_bytes h]
  cases i with
  | verbatim opcode args =>
    have hoperation : Operation.ofOpcode opcode = .verbatim args.length := h
    rw [if_pos rfl, Instruction.bytes, wordText_verbatim hoperation]
    rfl
  | note velocity arg lengthBytes =>
    rw [if_neg Bool.false_ne_true]
    simp only [events]
    split <;> rfl
  | tempo bpm =>
    rw [if_neg Bool.false_ne_true]
    simp only [events]
    split <;> rfl
  | pitchBend high low =>
    rw [if_neg Bool.false_ne_true]
    simp only [events]
    split <;> rfl
  | _ => rfl

/-- **Whole runs.** The texts of a run are those of its words, in their order. -/
theorem Context.texts_play (ctx : Context) (offset : Nat) (s : State) {is : List Instruction}
    (h : ∀ i ∈ is, i.WellFormed) :
    (ctx.play offset s is).events.filterMap Event.textData? =
      ((is.map Instruction.bytes).filter keptAsText).map wordText := by
  induction is generalizing offset s with
  | nil => rfl
  | cons i is ih =>
    obtain ⟨hi, his⟩ := List.forall_mem_cons.mp h
    have hhere := (ctx.leavesText_events s hi).texts
    have hrest := ih (offset + i.size) (s.after i) his
    rw [play_cons, List.filterMap_append, hhere, hrest, ← List.map_append, ← List.filter_append,
      List.map_cons, List.singleton_append]

/-- The end of the track has its own text, behind all others. -/
theorem Context.texts_decoded (ctx : Context) (offset : Nat) (s : State) {is : List Instruction}
    (h : ∀ i ∈ is, i.WellFormed) :
    (ctx.decoded offset s is).events.filterMap Event.textData? =
      ((is.map Instruction.bytes ++ [[endOpcode]]).filter keptAsText).map wordText := by
  rw [decoded, List.filterMap_append, ctx.texts_play offset s h, List.filter_append,
    List.map_append]
  rfl

/-- Each word leaves its text where it stands, the end opcode behind all others. -/
theorem Context.leavesText_of_getElem? (ctx : Context) (s : State) {is : List Instruction}
    (h : ∀ i ∈ is, i.WellFormed) {k : Nat} {w : Bytes} {events : List Event}
    (hw : (is.map Instruction.bytes ++ [[endOpcode]])[k]? = some w)
    (hevents : (ctx.emissions s is ++
      [[.ofMeta (is.foldl State.after s).tick (.text endMarker)]])[k]? = some events) :
    LeavesText ((is.take k).foldl State.after s).tick w events := by
  by_cases hk : k < is.length
  · rw [List.getElem?_append_left (by rwa [List.length_map]), List.getElem?_map] at hw
    rw [List.getElem?_append_left (by rwa [length_emissions]), getElem?_emissions] at hevents
    obtain ⟨i, hi, rfl⟩ := Option.map_eq_some_iff.mp hw
    rw [hi, Option.map_some] at hevents
    obtain rfl := Option.some.inj hevents
    exact ctx.leavesText_events _ (h i (List.mem_of_getElem? hi))
  · have hle := Nat.le_of_not_lt hk
    rw [List.getElem?_append_right (by rwa [List.length_map]), List.length_map] at hw
    rw [List.getElem?_append_right (by rwa [length_emissions]), length_emissions] at hevents
    obtain rfl := List.mem_singleton.mp (List.mem_of_getElem? hw)
    obtain rfl := List.mem_singleton.mp (List.mem_of_getElem? hevents)
    have hkept : keptAsText [endOpcode] := rfl
    rw [List.take_of_length_le hle, LeavesText, if_pos hkept]
    rfl

/-- What a track is made of can be cut into one list of events for each word of its stream and one
for its end. -/
theorem Context.exists_emissions (ctx : Context) (offset : Nat) (s : State)
    {is : List Instruction} (h : ∀ i ∈ is, i.WellFormed) :
    ∃ emissions : List (List Event), emissions.flatten = (ctx.decoded offset s is).events ∧
      emissions.length = (is.map Instruction.bytes ++ [[endOpcode]]).length ∧
      ∀ k w events, (is.map Instruction.bytes ++ [[endOpcode]])[k]? = some w →
        emissions[k]? = some events →
        LeavesText ((is.take k).foldl State.after s).tick w events := by
  refine ⟨_, ?_, ?_, fun k w events => ctx.leavesText_of_getElem? s h⟩
  · rw [List.flatten_append, flatten_emissions _ offset, decoded, state_play]
    rfl
  · rw [List.length_append, length_emissions, List.length_append, List.length_map]
    rfl

/-! ### Whole tracks -/

theorem Spells.isWordOrEnd {stream : Bytes} {words : List Bytes}
    (h : Spells stream words endOpcode) {w : Bytes} (hw : w ∈ words ++ [[endOpcode]]) :
    IsWordOrEnd w := by
  rcases List.mem_append.mp hw with hw | hw
  · exact .inl (h.1 w hw)
  · exact .inr (List.mem_singleton.mp hw)

/-- **Texts are lossless.** A decoded track has what the words of its stream and its end opcode
leave, one list of events for each of them: the text of a word that is kept, at the tick where it
stands, and no text for any other.

So the texts of the track are those of the words that are kept, in their order, and these words can
be read back from the texts alone: different words have different texts, and what has no meaning in
MIDI never reads as the end of a track or the start of a loop.

A text is not empty and printable, and a dump shows it as the string with just its bytes. -/
theorem Chunk.decode_texts {chunk : Chunk} {data : Bytes} {track : Nat} {tables : SideTables}
    {state : State} {d : Decoded} (h : chunk.decode data track tables state = .ok d) :
    ∃ is : List Instruction, (∀ i ∈ is, i.WellFormed) ∧
      Spells (data.drop chunk.streamStart) (is.map Instruction.bytes) endOpcode ∧
      let words := is.map Instruction.bytes ++ [[endOpcode]]
      let kept := words.filter keptAsText
      let texts := d.events.filterMap Event.textData?
      (∃ emissions : List (List Event),
        emissions.flatten = d.events ∧ emissions.length = words.length ∧
        ∀ k w events, words[k]? = some w → emissions[k]? = some events →
          LeavesText ((is.take k).foldl State.after state).tick w events) ∧
      texts = kept.map wordText ∧ texts.map wordOfText = kept ∧
      (∀ w w', IsWordOrEnd w → keptAsText w → IsWordOrEnd w' → keptAsText w' →
        wordText w = wordText w' → w = w') ∧
      (∀ opcode args,
        verbatimText opcode args ≠ endMarker ∧ verbatimText opcode args ≠ loopMarker) ∧
      ∀ e ∈ d.events, ∀ text, e.textData? = some text → Printable text ∧
        ∃ shown : String, asciiBytes shown.toList = text ∧
          e.json = .object [("tick", .nat e.tick), ("channel", Json.byte e.channel),
            ("type", .string "meta"), ("kind", .string "text"), ("data", .string shown)] := by
  obtain ⟨is, rest, hlist, rfl⟩ := decode_inv h
  have hwell := Listing.wellFormed_of_eq hlist
  have hspells := Listing.spells_of_ending (data.drop chunk.streamStart)
  rw [hlist] at hspells
  refine ⟨is, hwell, hspells, ?_⟩
  intro words kept texts
  have hcomplete : ∀ w ∈ kept, IsWordOrEnd w ∧ keptAsText w := by
    intro w hw
    obtain ⟨hmem, hkept⟩ := List.mem_filter.mp hw
    exact ⟨hspells.isWordOrEnd hmem, hkept⟩
  have htexts : texts = kept.map wordText := Context.texts_decoded _ _ _ hwell
  refine ⟨Context.exists_emissions _ _ _ hwell, htexts, ?_, fun w w' => wordText_inj,
    fun opcode args =>
      ⟨verbatimText_ne_endMarker opcode args, verbatimText_ne_loopMarker opcode args⟩, ?_⟩
  · rw [htexts, List.map_map]
    refine (List.map_congr_left ?_).trans (List.map_id kept)
    intro w hw
    exact wordOfText_wordText (hcomplete w hw).1 (hcomplete w hw).2
  · intro e he text htext
    have hmem : text ∈ texts := List.mem_filterMap.mpr ⟨e, he, htext⟩
    rw [htexts] at hmem
    obtain ⟨w, hw, rfl⟩ := List.mem_map.mp hmem
    have hprintable := printable_wordText (hcomplete w hw).1 (hcomplete w hw).2
    exact ⟨hprintable, hprintable.exists_json htext⟩

/-- A loop with two instructions that have no meaning in MIDI, and others between them. -/
def loopedInstructions : List Instruction :=
  [.delay8 5, .loopStart, .tempo 120, .verbatim 0x9C [0x0A], .pitchBend 0x40 0x00,
    .verbatim 0xD4 [0x99, 0x98, 0xFF], .repeatDelay]

/-- The words among these that are kept. -/
def keptWords : List Bytes :=
  [[0x99], [0x9C, 0x0A], [0xD4, 0x99, 0x98, 0xFF], [0x98]]

/-- Their texts. -/
def keptTexts : List Bytes :=
  [loopMarker, asciiBytes ['9', 'C', ':', '0', 'A'],
    asciiBytes ['D', '4', ':', '9', '9', ':', '9', '8', ':', 'F', 'F'], endMarker]

theorem Chunk.decode_texts_loopedInstructions :
    ∃ d, (⟨0, 0, 0⟩ : Chunk).decode ([0, 0, 0, 0] ++ streamBytes loopedInstructions ++ [0x98]) 0
        .default .initial = .ok d ∧
      d.events.filterMap Event.textData? = keptTexts ∧ keptTexts.map wordOfText = keptWords := by
  have hwell : ∀ i ∈ loopedInstructions, i.WellFormed := by decide
  have hplayed : (⟨0, 0, 0⟩ : Chunk).decode
      ([0, 0, 0, 0] ++ streamBytes loopedInstructions ++ [0x98]) 0 .default .initial =
        .ok (Context.decoded ⟨.default, 0⟩ 4 .initial loopedInstructions) :=
    Chunk.decode_of_complete (Listing.ofBytes_streamBytes hwell [])
  have hwords : Spells (streamBytes loopedInstructions ++ [endOpcode])
      (loopedInstructions.map Instruction.bytes) endOpcode := by
    refine ⟨List.forall_mem_map.mpr fun i hi => (hwell i hi).isWord, [], ?_⟩
    rw [flatten_map_bytes]
  obtain ⟨is, -, hspells, -, htexts, hback, -⟩ := decode_texts hplayed
  rw [hspells.words_unique hwords] at htexts hback
  have hshown : ((loopedInstructions.map Instruction.bytes ++ [[endOpcode]]).filter
      keptAsText).map wordText = keptTexts := by
    decide
  rw [htexts, hshown] at hback
  exact ⟨_, hplayed, htexts.trans hshown, hback.trans (by decide)⟩

end Dse

end DseMidi
