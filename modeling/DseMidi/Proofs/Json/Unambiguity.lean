import Mathlib.Data.List.Forall2
import DseMidi.Json.Printer

/-!
# DseMidi.Proofs.Json.Unambiguity

**The text of a JSON value says what the value is.** Two values with the same text are alike
(`alike_of_text_eq`): they are equal but for their decimals, of which the text keeps nothing but
their own text.

Texts are taken apart from the front, two at a time, with whatever stands behind them:

* A character of a string is read back from its escape (`readChar_escape`), and the quote at
  the end is no escape, so strings end in one place only.
* A number ends where no further character of a number follows (`Stops`). Behind a number in a
  text there is a comma, a line break or a bracket.
* The first character of a value tells its kind (`mark_of_mem_head?_print`).

The rest is one induction over the values (`alike_of_print_eq`), in the layouts whose line breaks
are white space.
-/

namespace DseMidi.Json

/-! ### Numbers -/

/-- Whether a character can be part of a number. -/
def isNumeric (c : Char) : Bool := c.isDigit || c == '.'

/-- In front of the tail a number is over. -/
def Stops (tail : List Char) : Prop :=
  ∀ c ∈ tail.head?, isNumeric c = false

theorem stops_nil : Stops [] := by
  intro c hc
  cases hc

theorem stops_cons {c : Char} (h : isNumeric c = false) (tail : List Char) :
    Stops (c :: tail) := by
  intro d hd
  obtain rfl : c = d := Option.some.inj hd
  exact h

theorem Stops.takeWhile_append {tail digits : List Char} (h : Stops tail)
    (hdigits : ∀ c ∈ digits, isNumeric c) : (digits ++ tail).takeWhile isNumeric = digits := by
  rw [List.takeWhile_append_of_pos hdigits]
  cases tail with
  | nil => simp
  | cons c tail => simp [h c rfl]

/-- Numbers end where their characters do. -/
theorem numeric_append_inj {xs ys u v : List Char} (hxs : ∀ c ∈ xs, isNumeric c)
    (hys : ∀ c ∈ ys, isNumeric c) (hu : Stops u) (hv : Stops v) (h : xs ++ u = ys ++ v) :
    xs = ys ∧ u = v := by
  have hdigits : xs = ys := by
    rw [← hu.takeWhile_append hxs, h, hv.takeWhile_append hys]
  subst hdigits
  exact ⟨rfl, List.append_cancel_left h⟩

theorem isDigit_of_mem_toDigits {n : Nat} {c : Char} (h : c ∈ Nat.toDigits 10 n) : c.isDigit :=
  Nat.isDigit_of_mem_toDigits (by decide) (by decide) h

theorem isNumeric_of_mem_toDigits {n : Nat} {c : Char} (h : c ∈ Nat.toDigits 10 n) :
    isNumeric c := by
  simp [isNumeric, isDigit_of_mem_toDigits h]

theorem toDigits_inj {m n : Nat} (h : Nat.toDigits 10 m = Nat.toDigits 10 n) : m = n := by
  have hvalue : ∀ k, Nat.ofDigitChars 10 (Nat.toDigits 10 k) 0 = k := fun _ =>
    Nat.ofDigitChars_toDigits (by decide) (by decide)
  rw [← hvalue m, h, hvalue n]

theorem isNumeric_of_mem_text {d : Decimal} {c : Char} (h : c ∈ d.text) : isNumeric c := by
  have hpadded : ∀ {width n : Nat} {c : Char}, c ∈ Decimal.paddedDigits width n →
      isNumeric c := by
    intro width n c hc
    rw [Decimal.paddedDigits, List.leftpad, List.mem_append] at hc
    rcases hc with hc | hc
    · rw [List.eq_of_mem_replicate hc]
      decide
    · exact isNumeric_of_mem_toDigits hc
  rw [Decimal.text] at h
  split at h
  · rcases List.mem_append.mp h with h | h
    · exact isNumeric_of_mem_toDigits h
    · rcases List.mem_cons.mp h with rfl | h
      · rfl
      · obtain rfl := List.mem_singleton.mp h
        rfl
  · rcases List.mem_append.mp h with h | h
    · exact hpadded (List.mem_of_mem_take h)
    · rcases List.mem_cons.mp h with rfl | h
      · decide
      · exact hpadded (List.mem_of_mem_drop h)

theorem point_mem_text (d : Decimal) : '.' ∈ d.text := by
  rw [Decimal.text]
  split
  · simp
  · simp

/-- A decimal is told from a natural number by its point. -/
theorem text_ne_toDigits (d : Decimal) (n : Nat) : d.text ≠ Nat.toDigits 10 n := by
  intro h
  have hpoint := point_mem_text d
  rw [h] at hpoint
  exact absurd (isDigit_of_mem_toDigits hpoint) (by decide)

/-! ### Strings -/

/-- The value of a hexadecimal digit. -/
def hexValue (c : Char) : Nat :=
  if c.isDigit then c.toNat - 48 else c.toNat - 87

/-- The character that a letter behind a backslash stands for. -/
def shortEscape (c : Char) : Char :=
  if c = 'b' then '\x08'
  else if c = 'f' then '\x0c'
  else if c = 'n' then '\n'
  else if c = 'r' then '\r'
  else if c = 't' then '\t'
  else c

/-- Reads one character of a string, unless the string is over. -/
def readChar : List Char → Option (Char × List Char)
  | [] => none
  | '"' :: _ => none
  | '\\' :: 'u' :: '0' :: '0' :: high :: low :: tail =>
    some (Char.ofNat (16 * hexValue high + hexValue low), tail)
  | '\\' :: c :: tail => some (shortEscape c, tail)
  | c :: tail => some (c, tail)

theorem hexValue_digitChar {n : Nat} (h : n < 16) : hexValue (Nat.digitChar n) = n := by
  have all : ∀ n : Fin 16, hexValue (Nat.digitChar n) = n := by decide
  exact all ⟨n, h⟩

/-- An escape is read back, and nothing of what stands behind it is looked at. -/
theorem readChar_escape (c : Char) (tail : List Char) :
    readChar (escape c ++ tail) = some (c, tail) := by
  unfold escape
  split
  · next h => rw [h]; rfl
  split
  · next h => rw [h]; rfl
  split
  · next h => rw [h]; rfl
  split
  · next h => rw [h]; rfl
  split
  · next h => rw [h]; rfl
  split
  · next h => rw [h]; rfl
  split
  · next h => rw [h]; rfl
  split
  · next h =>
    have hhigh : hexValue (Nat.digitChar (c.toNat / 16)) = c.toNat / 16 :=
      hexValue_digitChar (by omega)
    have hlow : hexValue (Nat.digitChar (c.toNat % 16)) = c.toNat % 16 :=
      hexValue_digitChar (by omega)
    show some (Char.ofNat (16 * hexValue (Nat.digitChar (c.toNat / 16)) +
      hexValue (Nat.digitChar (c.toNat % 16))), tail) = some (c, tail)
    rw [hhigh, hlow, Nat.div_add_mod, Char.ofNat_toNat]
  · next hquote hbackslash _ _ _ _ _ _ =>
    rw [List.singleton_append, readChar.eq_def]
    split <;> simp_all

theorem escape_append_inj {c d : Char} {u v : List Char} (h : escape c ++ u = escape d ++ v) :
    c = d ∧ u = v := by
  have hread := congrArg readChar h
  rw [readChar_escape, readChar_escape] at hread
  simpa using hread

/-- Strings end in one place only. -/
theorem escaped_append_inj {s t u v : List Char}
    (h : s.flatMap escape ++ '"' :: u = t.flatMap escape ++ '"' :: v) : s = t ∧ u = v := by
  have hclosing : ∀ {c : Char} {u v : List Char}, '"' :: u ≠ escape c ++ v := by
    intro c u v h
    have hread := congrArg readChar h
    rw [readChar_escape] at hread
    cases hread
  induction s generalizing t with
  | nil =>
    cases t with
    | nil => exact ⟨rfl, List.tail_eq_of_cons_eq h⟩
    | cons d t =>
      rw [List.flatMap_cons, List.append_assoc] at h
      exact absurd h hclosing
  | cons c s ih =>
    cases t with
    | nil =>
      rw [List.flatMap_cons, List.append_assoc] at h
      exact absurd h.symm hclosing
    | cons d t =>
      rw [List.flatMap_cons, List.flatMap_cons, List.append_assoc, List.append_assoc] at h
      obtain ⟨rfl, hrest⟩ := escape_append_inj h
      obtain ⟨rfl, rfl⟩ := ih hrest
      exact ⟨rfl, rfl⟩

theorem quoted_append_inj {s t : String} {u v : List Char} (h : quoted s ++ u = quoted t ++ v) :
    s = t ∧ u = v := by
  have hbody : s.toList.flatMap escape ++ '"' :: u = t.toList.flatMap escape ++ '"' :: v := by
    simpa [quoted] using h
  obtain ⟨hs, hu⟩ := escaped_append_inj hbody
  exact ⟨String.toList_inj.mp hs, hu⟩

/-! ### Kinds of values -/

/-- What the first character of a value is, a zero standing for any character of a number. -/
def mark : Json → Char
  | .nat _ | .decimal _ => '0'
  | .string _ => '"'
  | .array _ => '['
  | .object _ => '\x7b'

/-- A character as the mark of a value. -/
def markOf (c : Char) : Char := if isNumeric c then '0' else c

theorem map_markOf_head?_append {digits : List Char} (hdigits : ∀ c ∈ digits, isNumeric c)
    (hne : digits ≠ []) (tail : List Char) :
    (digits ++ tail).head?.map markOf = some '0' := by
  cases digits with
  | nil => exact absurd rfl hne
  | cons c digits =>
    have hmark : markOf c = '0' := if_pos (hdigits c List.mem_cons_self)
    simp [hmark]

section Values

variable {l : Layout} {depth : Nat} {a b : Json} {u v : List Char}

/-- The first character of a text tells the kind of its value. -/
theorem map_markOf_head?_print (l : Layout) (depth : Nat) (a : Json) (u : List Char) :
    (print l depth a u).head?.map markOf = some a.mark := by
  cases a with
  | nat n =>
    rw [print]
    refine map_markOf_head?_append (fun c hc => isNumeric_of_mem_toDigits hc) ?_ u
    exact Nat.toDigits_ne_nil
  | decimal d =>
    rw [print]
    refine map_markOf_head?_append (fun c hc => isNumeric_of_mem_text hc) ?_ u
    exact List.ne_nil_of_mem (point_mem_text d)
  | string s => rfl
  | array items => cases items <;> rfl
  | object members => cases members <;> rfl

theorem mark_eq_of_print_eq (h : print l depth a u = print l depth b v) : a.mark = b.mark := by
  have hhead := congrArg (fun text => text.head?.map markOf) h
  simpa [map_markOf_head?_print] using hhead

/-! ### Layouts -/

/-- Line breaks are white space. -/
def Layout.Blank (l : Layout) : Prop :=
  ∀ depth, ∀ c ∈ l.lineBreak depth, c.isWhitespace

theorem Layout.blank_compact : Layout.compact.Blank := by
  intro depth c hc
  cases hc

theorem Layout.blank_pretty : Layout.pretty.Blank := by
  intro depth c hc
  rcases List.mem_cons.mp hc with rfl | hc
  · decide
  · rw [List.eq_of_mem_replicate hc]
    decide

/-- Behind a line break, the next character is the first that is no white space. -/
theorem Layout.Blank.mem_head? (hl : l.Blank) {c : Char}
    (hc : c ∈ (l.lineBreak depth ++ u).head?) : c.isWhitespace ∨ c ∈ u.head? := by
  have hblank := hl depth
  cases hbreak : l.lineBreak depth with
  | nil =>
    rw [hbreak] at hc
    exact Or.inr hc
  | cons d rest =>
    rw [hbreak] at hc hblank
    obtain rfl : d = c := Option.some.inj hc
    exact Or.inl (hblank d List.mem_cons_self)

theorem isNumeric_of_isWhitespace {c : Char} (h : c.isWhitespace) : isNumeric c = false := by
  have hcases : c = ' ' ∨ c = '\t' ∨ c = '\r' ∨ c = '\n' := by
    simpa [Char.isWhitespace, or_assoc] using h
  rcases hcases with rfl | rfl | rfl | rfl
  · rfl
  · rfl
  · rfl
  · rfl

theorem Layout.Blank.stops (hl : l.Blank) (h : Stops u) : Stops (l.lineBreak depth ++ u) := by
  intro c hc
  rcases hl.mem_head? hc with hblank | hhead
  · exact isNumeric_of_isWhitespace hblank
  · exact h c hhead

/-- What stands behind an item of an array is no number. -/
theorem stops_printItems (hl : l.Blank) (rest : List Json) :
    Stops (printItems l depth rest u) := by
  cases rest with
  | nil => exact hl.stops (stops_cons rfl _)
  | cons item rest => exact stops_cons rfl _

/-- Nor is what stands behind a member of an object. -/
theorem stops_printMembers (hl : l.Blank) (rest : List (String × Json)) :
    Stops (printMembers l depth rest u) := by
  cases rest with
  | nil => exact hl.stops (stops_cons rfl _)
  | cons member rest => exact stops_cons rfl _

/-- A line break does not hide a character that is no white space. -/
theorem Layout.Blank.append_ne_cons (hl : l.Blank) {c : Char} (hc : c.isWhitespace = false)
    (hu : c ∉ u.head?) : l.lineBreak depth ++ u ≠ c :: v := by
  intro h
  have hhead : c ∈ (l.lineBreak depth ++ u).head? := by
    rw [h]
    rfl
  rcases hl.mem_head? hhead with hblank | hmem
  · rw [hc] at hblank
    cases hblank
  · exact hu hmem

/-- No item begins like the end of an array. -/
theorem lineBreak_print_ne (hl : l.Blank) : l.lineBreak depth ++ print l depth a u ≠ ']' :: v := by
  refine hl.append_ne_cons (by decide) ?_
  intro hhead
  have hmark : a.mark = ']' := by
    have hmap := map_markOf_head?_print l depth a u
    rw [Option.mem_def.mp hhead] at hmap
    exact (Option.some.inj hmap).symm
  cases a <;> simp [mark] at hmark

/-- No member begins like the end of an object. -/
theorem lineBreak_quoted_ne (hl : l.Blank) (key : String) :
    l.lineBreak depth ++ (quoted key ++ u) ≠ '\x7d' :: v :=
  hl.append_ne_cons (by decide) (by simp [quoted])

/-! ### Alike values -/

/-- Values that are equal but for their decimals, which have the same text. -/
inductive Alike : Json → Json → Prop
  | nat (n : Nat) : Alike (.nat n) (.nat n)
  | decimal {x y : Decimal} (h : x.text = y.text) : Alike (.decimal x) (.decimal y)
  | string (s : String) : Alike (.string s) (.string s)
  | array {xs ys : List Json} (h : List.Forall₂ Alike xs ys) : Alike (.array xs) (.array ys)
  | object {ms ns : List (String × Json)} (hkeys : ms.map Prod.fst = ns.map Prod.fst)
      (hvalues : List.Forall₂ Alike (ms.map Prod.snd) (ns.map Prod.snd)) :
      Alike (.object ms) (.object ns)

@[simp] theorem alike_nat_iff {m n : Nat} : Alike (.nat m) (.nat n) ↔ m = n := by
  constructor
  · rintro ⟨⟩
    rfl
  · rintro rfl
    exact .nat m

@[simp] theorem alike_string_iff {s t : String} : Alike (.string s) (.string t) ↔ s = t := by
  constructor
  · rintro ⟨⟩
    rfl
  · rintro rfl
    exact .string s

@[simp] theorem alike_byte_iff {b c : UInt8} : Alike (.byte b) (.byte c) ↔ b = c :=
  alike_nat_iff.trans UInt8.toNat_inj

/-- Alike objects have alike members, key by key. -/
theorem Alike.members {ms ns : List (String × Json)} (h : Alike (.object ms) (.object ns)) :
    ms.map Prod.fst = ns.map Prod.fst ∧
      List.Forall₂ Alike (ms.map Prod.snd) (ns.map Prod.snd) := by
  cases h with
  | object hkeys hvalues => exact ⟨hkeys, hvalues⟩

/-- What stands under a key of alike objects is alike. -/
theorem Alike.lookup {ms ns : List (String × Json)} (h : Alike (.object ms) (.object ns))
    (key : String) : Option.Rel Alike (ms.lookup key) (ns.lookup key) := by
  obtain ⟨hkeys, hvalues⟩ := h.members
  clear h
  induction ms generalizing ns with
  | nil =>
    cases ns with
    | nil => exact .none
    | cons n ns => cases hkeys
  | cons m ms ih =>
    cases ns with
    | nil => cases hkeys
    | cons n ns =>
      obtain ⟨hkey, hkeys⟩ := List.cons.inj hkeys
      obtain ⟨hvalue, hvalues⟩ := List.forall₂_cons.mp hvalues
      rw [List.lookup_cons, List.lookup_cons, hkey]
      split
      · exact .some hvalue
      · exact ih hkeys hvalues

/-- Arrays whose items are known from their values are alike only if they are equal. -/
theorem Alike.eq_of_map {α : Type} {f : α → Json} {xs ys : List α}
    (hf : ∀ {x y}, Alike (f x) (f y) → x = y)
    (h : Alike (.array (xs.map f)) (.array (ys.map f))) : xs = ys := by
  cases h with
  | array hitems =>
    rw [List.forall₂_map_left_iff, List.forall₂_map_right_iff] at hitems
    rw [← List.forall₂_eq_eq_eq]
    exact hitems.imp fun _ _ => hf

theorem Alike.mark_eq (h : Alike a b) : a.mark = b.mark := by
  cases h <;> rfl

theorem alike_of_print_number_eq (ha : a.mark = '0') (hb : b.mark = '0') (hu : Stops u)
    (hv : Stops v) (h : print l depth a u = print l depth b v) : Alike a b ∧ u = v := by
  have hdigits : ∀ n, ∀ c ∈ Nat.toDigits 10 n, isNumeric c := fun _ _ hc =>
    isNumeric_of_mem_toDigits hc
  have htext : ∀ d : Decimal, ∀ c ∈ d.text, isNumeric c := fun _ _ hc => isNumeric_of_mem_text hc
  cases a with
  | nat m =>
    cases b with
    | nat n =>
      obtain ⟨heq, rfl⟩ := numeric_append_inj (hdigits m) (hdigits n) hu hv h
      obtain rfl := toDigits_inj heq
      exact ⟨.nat m, rfl⟩
    | decimal y =>
      obtain ⟨heq, -⟩ := numeric_append_inj (hdigits m) (htext y) hu hv h
      exact absurd heq.symm (text_ne_toDigits y m)
    | string _ | array _ | object _ => simp [mark] at hb
  | decimal x =>
    cases b with
    | nat n =>
      obtain ⟨heq, -⟩ := numeric_append_inj (htext x) (hdigits n) hu hv h
      exact absurd heq (text_ne_toDigits x n)
    | decimal y =>
      obtain ⟨heq, rfl⟩ := numeric_append_inj (htext x) (htext y) hu hv h
      exact ⟨.decimal heq, rfl⟩
    | string _ | array _ | object _ => simp [mark] at hb
  | string _ | array _ | object _ => simp [mark] at ha

mutual

/-- **Texts are unambiguous.** What stands in front of two equal texts are alike values, and the
same is left behind them. -/
theorem alike_of_print_eq (hl : l.Blank) (a b : Json) (depth : Nat) {u v : List Char}
    (hu : Stops u) (hv : Stops v) (h : print l depth a u = print l depth b v) :
    Alike a b ∧ u = v := by
  have hmark := mark_eq_of_print_eq h
  cases a with
  | nat m => exact alike_of_print_number_eq rfl hmark.symm hu hv h
  | decimal x => exact alike_of_print_number_eq rfl hmark.symm hu hv h
  | string s =>
    cases b with
    | string t =>
      obtain ⟨rfl, rfl⟩ := quoted_append_inj h
      exact ⟨.string s, rfl⟩
    | nat _ | decimal _ | array _ | object _ => simp [mark] at hmark
  | array xs =>
    cases b with
    | array ys =>
      cases xs with
      | nil =>
        cases ys with
        | nil =>
          obtain rfl : u = v := by simpa [print] using h
          exact ⟨.array .nil, rfl⟩
        | cons y ys => exact absurd (List.tail_eq_of_cons_eq h).symm (lineBreak_print_ne hl)
      | cons x xs =>
        cases ys with
        | nil => exact absurd (List.tail_eq_of_cons_eq h) (lineBreak_print_ne hl)
        | cons y ys =>
          -- With a comma for the bracket, the items are those behind a first one.
          have hitems : printItems l depth (x :: xs) u = printItems l depth (y :: ys) v :=
            congrArg (',' :: ·) (List.tail_eq_of_cons_eq h)
          obtain ⟨hxs, rfl⟩ := forall₂_of_printItems_eq hl (x :: xs) (y :: ys) depth hitems
          exact ⟨.array hxs, rfl⟩
    | nat _ | decimal _ | string _ | object _ => simp [mark] at hmark
  | object ms =>
    cases b with
    | object ns =>
      cases ms with
      | nil =>
        cases ns with
        | nil =>
          obtain rfl : u = v := by simpa [print] using h
          exact ⟨.object rfl .nil, rfl⟩
        | cons n ns => exact absurd (List.tail_eq_of_cons_eq h).symm (lineBreak_quoted_ne hl _)
      | cons m ms =>
        cases ns with
        | nil => exact absurd (List.tail_eq_of_cons_eq h) (lineBreak_quoted_ne hl _)
        | cons n ns =>
          have hmembers : printMembers l depth (m :: ms) u = printMembers l depth (n :: ns) v :=
            congrArg (',' :: ·) (List.tail_eq_of_cons_eq h)
          obtain ⟨hkeys, hvalues, rfl⟩ :=
            forall₂_of_printMembers_eq hl (m :: ms) (n :: ns) depth hmembers
          exact ⟨.object hkeys hvalues, rfl⟩
    | nat _ | decimal _ | string _ | array _ => simp [mark] at hmark

theorem forall₂_of_printItems_eq (hl : l.Blank) (xs ys : List Json) (depth : Nat)
    {u v : List Char} (h : printItems l depth xs u = printItems l depth ys v) :
    List.Forall₂ Alike xs ys ∧ u = v := by
  cases xs with
  | nil =>
    cases ys with
    | nil =>
      obtain rfl : u = v := by simpa [printItems] using h
      exact ⟨.nil, rfl⟩
    | cons y ys => exact absurd h (hl.append_ne_cons (by decide) (by simp))
  | cons x xs =>
    cases ys with
    | nil => exact absurd h.symm (hl.append_ne_cons (by decide) (by simp))
    | cons y ys =>
      have hitems := List.append_cancel_left (List.tail_eq_of_cons_eq h)
      obtain ⟨hxy, hrest⟩ := alike_of_print_eq hl x y (depth + 1) (stops_printItems hl xs)
        (stops_printItems hl ys) hitems
      obtain ⟨hxs, rfl⟩ := forall₂_of_printItems_eq hl xs ys depth hrest
      exact ⟨.cons hxy hxs, rfl⟩

theorem forall₂_of_printMembers_eq (hl : l.Blank) (ms ns : List (String × Json)) (depth : Nat)
    {u v : List Char} (h : printMembers l depth ms u = printMembers l depth ns v) :
    ms.map Prod.fst = ns.map Prod.fst ∧
      List.Forall₂ Alike (ms.map Prod.snd) (ns.map Prod.snd) ∧ u = v := by
  cases ms with
  | nil =>
    cases ns with
    | nil =>
      obtain rfl : u = v := by simpa [printMembers] using h
      exact ⟨rfl, .nil, rfl⟩
    | cons n ns => exact absurd h (hl.append_ne_cons (by decide) (by simp))
  | cons m ms =>
    cases ns with
    | nil => exact absurd h.symm (hl.append_ne_cons (by decide) (by simp))
    | cons n ns =>
      obtain ⟨key, x⟩ := m
      obtain ⟨key', y⟩ := n
      have hmembers := List.append_cancel_left (List.tail_eq_of_cons_eq h)
      obtain ⟨rfl, hvalues⟩ := quoted_append_inj hmembers
      obtain ⟨hxy, hrest⟩ := alike_of_print_eq hl x y (depth + 1) (stops_printMembers hl ms)
        (stops_printMembers hl ns) (List.append_cancel_left hvalues)
      obtain ⟨hkeys, hms, rfl⟩ := forall₂_of_printMembers_eq hl ms ns depth hrest
      exact ⟨congrArg (key :: ·) hkeys, .cons hxy hms, rfl⟩

end

/-- Values with the same text are alike. -/
theorem alike_of_text_eq (hl : l.Blank) (h : text l a = text l b) : Alike a b := by
  have hprint : print l 0 a [] = print l 0 b [] := String.ofList_injective h
  exact (alike_of_print_eq hl a b 0 stops_nil stops_nil hprint).1

theorem Alike.refl (a : Json) : Alike a a :=
  alike_of_text_eq Layout.blank_compact rfl

end Values

end DseMidi.Json
