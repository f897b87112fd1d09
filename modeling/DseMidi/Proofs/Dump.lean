import DseMidi.Dump
import DseMidi.Proofs.Json.Unambiguity

/-!
# DseMidi.Proofs.Dump

**A dump loses nothing.** Two sequences with the same dump are the same sequence, and so are two
that look the same as they are (`Sequence.text_eq_iff`). Line breaks between the parts of a dump
make no difference to that (`Sequence.dump_text_pretty_eq_iff`).

Since a text says what its value is, this is about values. A payload is a string or an array,
but the same bytes in both, and it is never both (`payloadJson_inj`). A message is known from the
name of its type, which says what its fields are, and from its fields (`Message.fields_inj`).
What a dump adds of its own, the tempo and the summaries of the tracks, is not needed to know a
sequence by; so the number in which the tempo is given can be anything.
-/

namespace DseMidi

open Json (Alike)

/-! ### Events -/

/-- A payload is known from its value, be it text or numbers. -/
theorem payloadJson_inj {a b : Bytes} (h : Alike (payloadJson a) (payloadJson b)) : a = b := by
  have hmark := h.mark_eq
  have hchar : Function.Injective fun b : UInt8 => Char.ofNat b.toNat := by
    refine Function.LeftInverse.injective (g := fun c => UInt8.ofNat c.toNat) ?_
    intro b
    refine forall_byte ?_ b
    decide +kernel
  rw [payloadJson, payloadJson] at h hmark
  split at h
  · split at h
    · exact hchar.list_map (String.ofList_injective (Json.alike_string_iff.mp h))
    · simp_all [Json.mark]
  · split at h
    · simp_all [Json.mark]
    · exact h.eq_of_map Json.alike_byte_iff.mp

theorem MetaType.json_inj {a b : MetaType} (h : Alike a.json b.json) : a = b := by
  have hmark := h.mark_eq
  cases a with
  | other byte =>
    cases b with
    | other byte' =>
      obtain ⟨-, hvalues⟩ := h.members
      simpa using hvalues
    | text | sequenceName | endOfTrack | tempo => simp [json, Json.mark] at hmark
  | text | sequenceName | endOfTrack | tempo =>
    cases b with
    | other byte' => simp [json, Json.mark] at hmark
    | text | sequenceName | endOfTrack | tempo => simp_all [json]

/-- A message is known from the name of its type and its fields. -/
theorem Message.fields_inj {m n : Message} (htype : m.fields.1 = n.fields.1)
    (h : List.Forall₂ Alike (m.fields.2.map Prod.snd) (n.fields.2.map Prod.snd)) : m = n := by
  cases m with
  | metaEvent type data =>
    cases n with
    | metaEvent type' data' =>
      obtain ⟨htypes, hpayload⟩ : Alike type.json type'.json ∧
        Alike (payloadJson data) (payloadJson data') := by simpa [fields] using h
      rw [MetaType.json_inj htypes, payloadJson_inj hpayload]
    | _ => simp [fields] at htype
  | sysEx status data =>
    cases n with
    | sysEx status' data' =>
      obtain ⟨rfl, hpayload⟩ : status = status' ∧
        Alike (payloadJson data) (payloadJson data') := by simpa [fields] using h
      rw [payloadJson_inj hpayload]
    | _ => simp [fields] at htype
  | _ => cases n <;> simp_all [fields]

theorem Event.json_eq (e : Event) :
    e.json = .object ([("tick", .nat e.tick), ("channel", Json.byte e.channel),
      ("type", .string e.message.fields.1)] ++ e.message.fields.2) := rfl

theorem Event.json_inj {e f : Event} (h : Alike e.json f.json) : e = f := by
  obtain ⟨tick, channel, message⟩ := e
  obtain ⟨tick', channel', message'⟩ := f
  rw [json_eq, json_eq] at h
  obtain ⟨-, hvalues⟩ := h.members
  obtain ⟨rfl, rfl, htype, hfields⟩ : tick = tick' ∧ channel = channel' ∧
      message.fields.1 = message'.fields.1 ∧
      List.Forall₂ Alike (message.fields.2.map Prod.snd) (message'.fields.2.map Prod.snd) := by
    simpa only [List.map_append, List.map_cons, List.map_nil, List.cons_append, List.nil_append,
      List.forall₂_cons, Json.alike_nat_iff, Json.alike_byte_iff, Json.alike_string_iff]
      using hvalues
  rw [Message.fields_inj htype hfields]

/-! ### Tracks -/

theorem Track.json_inj {t u : Track} (h : Alike t.json u.json) : t = u := by
  obtain ⟨channel, events⟩ := t
  obtain ⟨channel', events'⟩ := u
  obtain ⟨-, hvalues⟩ := h.members
  obtain ⟨rfl, hevents⟩ : channel = channel' ∧
      Alike (.array (events.map Event.json)) (.array (events'.map Event.json)) := by
    simpa using hvalues
  rw [hevents.eq_of_map Event.json_inj]

/-- The summary of a track is not needed to know it. -/
theorem Track.dump_inj {t u : Track} (h : Alike t.dump u.dump) : t = u := by
  obtain ⟨channel, events⟩ := t
  obtain ⟨channel', events'⟩ := u
  obtain ⟨-, hvalues⟩ := h.members
  obtain ⟨rfl, -, -, hevents⟩ : channel = channel' ∧ noteCount ⟨channel, events⟩ =
      noteCount ⟨channel', events'⟩ ∧ duration ⟨channel, events⟩ = duration ⟨channel', events'⟩ ∧
      Alike (.array (events.map Event.json)) (.array (events'.map Event.json)) := by
    simpa using hvalues
  rw [hevents.eq_of_map Event.json_inj]

/-! ### Sequences -/

theorem Sequence.json_inj {s t : Sequence} (h : Alike s.json t.json) : s = t := by
  obtain ⟨name, division, tracks⟩ := s
  obtain ⟨name', division', tracks'⟩ := t
  obtain ⟨-, hvalues⟩ := h.members
  obtain ⟨rfl, hdivision, htracks⟩ : name = name' ∧ division.toNat = division'.toNat ∧
      Alike (.array (tracks.map Track.json)) (.array (tracks'.map Track.json)) := by
    simpa using hvalues
  rw [UInt16.toNat_inj.mp hdivision, htracks.eq_of_map Track.json_inj]

/-- What stands under the keys of a dump that every sequence fills in. -/
theorem Sequence.exists_dump_eq (s : Sequence) :
    ∃ members, s.dump = .object members ∧
      members.lookup "name" = (if s.name = "" then none else some (.string s.name)) ∧
      members.lookup "time_division" = some (.nat s.timeDivision.toNat) ∧
      members.lookup "tracks" = some (.array (s.tracks.map Track.dump)) := by
  refine ⟨_, rfl, ?_⟩
  split
  · split <;> simp [List.lookup_cons]
  · split <;> simp [List.lookup_cons]

/-- A name that is left out is empty, and the tempo tells nothing new. -/
theorem Sequence.dump_inj {s t : Sequence} (h : Alike s.dump t.dump) : s = t := by
  obtain ⟨ms, hms, hname, hdivision, htracks⟩ := s.exists_dump_eq
  obtain ⟨ns, hns, hname', hdivision', htracks'⟩ := t.exists_dump_eq
  rw [hms, hns] at h
  have hnames := h.lookup "name"
  have hdivisions := h.lookup "time_division"
  have hlists := h.lookup "tracks"
  rw [hname, hname'] at hnames
  rw [hdivision, hdivision', Option.rel_some_some, Json.alike_nat_iff] at hdivisions
  rw [htracks, htracks', Option.rel_some_some] at hlists
  have hsame : s.name = t.name := by
    split at hnames
    · next hempty =>
      split at hnames
      · next hempty' => rw [hempty, hempty']
      · cases hnames
    · split at hnames
      · cases hnames
      · exact Json.alike_string_iff.mp (Option.rel_some_some.mp hnames)
  show (⟨s.name, s.timeDivision, s.tracks⟩ : Sequence) = ⟨t.name, t.timeDivision, t.tracks⟩
  rw [hsame, UInt16.toNat_inj.mp hdivisions, hlists.eq_of_map Track.dump_inj]

theorem Sequence.dump_text_eq_iff {l : Json.Layout} (hl : l.Blank) (s t : Sequence) :
    s.dump.text l = t.dump.text l ↔ s = t := by
  constructor
  · intro h
    exact dump_inj (Json.alike_of_text_eq hl h)
  · rintro rfl
    rfl

theorem Sequence.json_text_eq_iff {l : Json.Layout} (hl : l.Blank) (s t : Sequence) :
    s.json.text l = t.json.text l ↔ s = t := by
  constructor
  · intro h
    exact json_inj (Json.alike_of_text_eq hl h)
  · rintro rfl
    rfl

/-- Line breaks do not take anything away. -/
theorem Sequence.dump_text_pretty_eq_iff (s t : Sequence) :
    s.dump.text .pretty = t.dump.text .pretty ↔ s = t :=
  dump_text_eq_iff Json.Layout.blank_pretty s t

/-- **Dumps are lossless.** A sequence can be told from the text of its dump, and from the text of
what it looks like as it is. -/
theorem Sequence.text_eq_iff (s t : Sequence) :
    (s.dump.text .compact = t.dump.text .compact ↔ s = t) ∧
      (s.json.text .compact = t.json.text .compact ↔ s = t) :=
  ⟨dump_text_eq_iff Json.Layout.blank_compact s t, json_text_eq_iff Json.Layout.blank_compact s t⟩

end DseMidi
