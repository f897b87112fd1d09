import Mathlib.Order.Bounds.Basic
import DseMidi.Proofs.Quantity

/-!
# DseMidi.Proofs.Quantity.PrefixCode

**Quantities as a code.** What is written for a value has one group that closes it, at its end
(`encode_terminated`). So it can be taken out of any bytes that it stands in
(`decode_append_encode`), and no such groups are the beginning of others
(`Terminated.eq_of_isPrefix`): quantities that are written one behind the other are read back one
by one, without anything between them (`decodeAll_append_flatMap_encode`).

It is also the shortest form that there can be (`isLeast_length_encode`), and what is appended to
a buffer group by group, from the other end, is the same (`write_eq_append`).
-/

namespace DseMidi.Quantity

/-! ### Groups in a buffer -/

/-- Marking a group as continued. -/
theorem group_or_continued (n : Nat) :
    UInt8.ofNat (n % 128) ||| 0x80 = UInt8.ofNat (n % 128 + 128) := by
  have hgroups : ∀ group < 128, UInt8.ofNat group ||| 0x80 = UInt8.ofNat (group + 128) := by decide
  exact hgroups _ (Nat.mod_lt n (by decide))

theorem collectGroups_of_div_ne_zero {n : Nat} (h : n / 128 ≠ 0) :
    collectGroups n = UInt8.ofNat (n % 128) :: collectGroups (n / 128) := by
  rw [collectGroups, if_neg h]

theorem collectGroups_of_div_eq_zero {n : Nat} (h : n / 128 = 0) :
    collectGroups n = [UInt8.ofNat (n % 128)] := by
  rw [collectGroups, if_pos h]

/-- As many groups are collected as there are bytes to write. -/
theorem length_collectGroups (n : Nat) : (collectGroups n).length = (encode n).length := by
  induction n using Nat.strongRecOn with
  | ind n ih =>
    by_cases h : n / 128 = 0
    · rw [collectGroups_of_div_eq_zero h, encode, h, leadingGroups_zero]
      rfl
    · rw [collectGroups_of_div_ne_zero h, List.length_cons, ih _ (by omega), encode, encode,
        leadingGroups_of_pos (Nat.pos_of_ne_zero h)]
      simp

/-- The groups behind the first collected one are put out as the leading groups. The first one is
the only one whose number is zero, so all of them are marked. -/
theorem foldr_collectGroups {n : Nat} (h : 0 < n) (i : Nat) (buffer : Bytes) :
    ((collectGroups n).zipIdx (i + 1)).foldr
        (fun (group, i) buffer => buffer ++ [group ||| if i = 0 then 0 else 0x80]) buffer =
      buffer ++ leadingGroups n := by
  induction n using Nat.strongRecOn generalizing i with
  | ind n ih =>
    rw [leadingGroups_of_pos h, ← group_or_continued]
    by_cases hn : n / 128 = 0
    · rw [collectGroups_of_div_eq_zero hn, hn, leadingGroups_zero]
      rfl
    · rw [collectGroups_of_div_ne_zero hn, List.zipIdx_cons, List.foldr_cons,
        ih _ (by omega) (Nat.pos_of_ne_zero hn)]
      simp only [Nat.succ_ne_zero, if_false, List.append_assoc]

/-- Writing appends the encoded value, whatever is in the buffer. -/
theorem write_eq_append (buffer : Bytes) (n : Nat) : write buffer n = buffer ++ encode n := by
  rw [write, encode]
  by_cases h : n / 128 = 0
  · rw [collectGroups_of_div_eq_zero h, h, leadingGroups_zero]
    simp
  · rw [collectGroups_of_div_ne_zero h, List.zipIdx_cons, List.foldr_cons,
      foldr_collectGroups (Nat.pos_of_ne_zero h)]
    simp only [if_true, UInt8.or_zero, List.append_assoc]

/-! ### Length -/

/-- A value takes as many bytes as it has groups of seven bits, and at least one. -/
theorem isLeast_length_encode (n : Nat) :
    IsLeast {k | 0 < k ∧ n < 2 ^ (7 * k)} (encode n).length := by
  have hgroups (k : Nat) : 2 ^ (7 * k) = 128 ^ k := Nat.pow_mul 2 7 k
  have hpos : 0 < (encode n).length := List.length_pos_of_ne_nil (encode_ne_nil n)
  constructor
  · exact ⟨hpos, hgroups _ ▸ (length_encode_le_iff hpos).mp (Nat.le_refl _)⟩
  · rintro k ⟨hk, hn⟩
    exact (length_encode_le_iff hk).mpr (hgroups k ▸ hn)

theorem length_encode_le_ten {n : Nat} (h : n < modulus) : (encode n).length ≤ 10 :=
  (length_encode_le_iff (by decide)).mpr (Nat.lt_trans h (by decide))

/-! ### Beginnings -/

/-- No quantity is the beginning of another one. -/
theorem Terminated.eq_of_isPrefix {groups more : Bytes} (hgroups : Terminated groups)
    (hmore : Terminated more) (h : groups <+: more) : groups = more := by
  obtain ⟨rest, rfl⟩ := h
  have hcut := hmore.groups?_append []
  rw [List.append_nil, hgroups.groups?_append rest, Option.some.injEq, Prod.mk.injEq] at hcut
  exact hcut.1

theorem encode_inj_of_isPrefix {n m : Nat} (h : encode n <+: encode m) : n = m := by
  have hspelled := congrArg (groupsFrom 0)
    ((encode_terminated n).eq_of_isPrefix (encode_terminated m) h)
  rwa [groupsFrom_encode, groupsFrom_encode] at hspelled

/-! ### Reading in any place -/

/-- Bytes are continued throughout, or they begin with the groups of one quantity. -/
theorem continued_or_terminated (bytes : Bytes) :
    (∀ b ∈ bytes, ¬ b < 0x80) ∨ ∃ groups rest, bytes = groups ++ rest ∧ Terminated groups := by
  induction bytes with
  | nil => exact .inl (List.forall_mem_nil _)
  | cons b bytes ih =>
    by_cases hb : b < 0x80
    · exact .inr ⟨[b], bytes, rfl, [], b, rfl, List.forall_mem_nil _, hb⟩
    · rcases ih with hall | ⟨_, rest, rfl, front, last, rfl, hfront, hlast⟩
      · exact .inl (List.forall_mem_cons.mpr ⟨hb, hall⟩)
      · exact .inr ⟨b :: (front ++ [last]), rest, rfl, b :: front, last, rfl,
          List.forall_mem_cons.mpr ⟨hb, hfront⟩, hlast⟩

section Decode

variable {bytes : Bytes} {offset n count : Nat}

theorem readGroups_eq_none (h : ∀ b ∈ bytes, ¬ b < 0x80) (value : Nat) :
    readGroups value bytes = none := by
  induction bytes generalizing value with
  | nil => rfl
  | cons b bytes ih =>
    obtain ⟨hb, hbytes⟩ := List.forall_mem_cons.mp h
    rw [readGroups, if_neg hb, ih hbytes]
    rfl

/-- There is no quantity where all bytes are continued. -/
theorem decode_eq_error (h : ∀ b ∈ bytes.drop offset, ¬ b < 0x80) :
    decode bytes offset = .error (.unterminatedQuantity offset) := by
  rw [decode, readGroups_eq_none h]

/-- **What is read** are the groups up to the one that closes the quantity. -/
theorem decode_inv (h : decode bytes offset = .ok (n, count)) :
    ∃ groups rest, bytes.drop offset = groups ++ rest ∧ Terminated groups ∧
      n = groupsFrom 0 groups % modulus ∧ count = groups.length := by
  rcases continued_or_terminated (bytes.drop offset) with hall | ⟨groups, rest, hdrop, hgroups⟩
  · rw [decode_eq_error hall] at h
    cases h
  · rw [hgroups.decode_eq hdrop] at h
    cases h
    exact ⟨groups, rest, hdrop, hgroups, rfl, rfl⟩

/-- A quantity takes up at least one byte. -/
theorem decode_count_pos (h : decode bytes offset = .ok (n, count)) : 0 < count := by
  obtain ⟨_, _, -, ⟨front, last, rfl, -, -⟩, -, rfl⟩ := decode_inv h
  simp

end Decode

/-- A value in front of any bytes and behind any others is read back. -/
theorem decode_append_encode (before : Bytes) (n : Nat) (rest : Bytes) :
    decode (before ++ encode n ++ rest) before.length = .ok (n % modulus, (encode n).length) := by
  have hdrop : (before ++ encode n ++ rest).drop before.length = encode n ++ rest := by
    rw [List.append_assoc, List.drop_left]
  rw [(encode_terminated n).decode_eq hdrop, groupsFrom_encode]

/-! ### Quantities in a row -/

/-- All quantities from an offset on to the end of the bytes, one read behind the other. -/
def decodeAll (bytes : Bytes) (offset : Nat) : Except Fault (List Nat) :=
  if bytes.length ≤ offset then .ok []
  else
    match h : decode bytes offset with
    | .error fault => .error fault
    | .ok (n, count) =>
      have := decode_count_pos h
      (decodeAll bytes (offset + count)).map (n :: ·)
termination_by bytes.length - offset

theorem decodeAll_of_ok {bytes : Bytes} {offset n count : Nat} (hoffset : offset < bytes.length)
    (h : decode bytes offset = .ok (n, count)) :
    decodeAll bytes offset = (decodeAll bytes (offset + count)).map (n :: ·) := by
  rw [decodeAll, if_neg (Nat.not_le.mpr hoffset)]
  split
  · next fault hfault =>
    rw [hfault] at h
    cases h
  · next n' count' hok =>
    rw [hok] at h
    cases h
    rfl

/-- Values that are written one behind the other are read back. -/
theorem decodeAll_append_flatMap_encode (before : Bytes) (ns : List Nat) :
    decodeAll (before ++ ns.flatMap encode) before.length = .ok (ns.map (· % modulus)) := by
  induction ns generalizing before with
  | nil =>
    rw [decodeAll, if_pos (by simp)]
    rfl
  | cons n ns ih =>
    have hread := decode_append_encode before n (ns.flatMap encode)
    have hpos : 0 < (encode n).length := List.length_pos_of_ne_nil (encode_ne_nil n)
    have hrest := ih (before ++ encode n)
    rw [List.length_append] at hrest
    rw [List.flatMap_cons, ← List.append_assoc,
      decodeAll_of_ok (by simp only [List.length_append]; omega) hread, hrest]
    rfl

/-! ### The code -/

/-- **A minimal prefix code.** A 64-bit value is read back from between any bytes. It takes as
few groups of seven bits as it can, one to ten, all of which are continued but the last, and they
are what is appended to any buffer. No value's bytes begin with those of another one, and values
that are written in a row are read back. -/
theorem encode_prefixCode :
    (∀ n < modulus,
      (∀ before rest,
        decode (before ++ encode n ++ rest) before.length = .ok (n, (encode n).length)) ∧
      IsLeast {k | 0 < k ∧ n < 2 ^ (7 * k)} (encode n).length ∧
      (encode n).length ≤ 10 ∧ (collectGroups n).length = (encode n).length ∧
      Terminated (encode n) ∧
      (∀ buffer, write buffer n = buffer ++ encode n) ∧
      ∀ m, n ≠ m → ¬ encode n <+: encode m ∧ ¬ encode m <+: encode n) ∧
    ∀ ns : List Nat, (∀ n ∈ ns, n < modulus) → decodeAll (ns.flatMap encode) 0 = .ok ns := by
  constructor
  · intro n hn
    refine ⟨?_, isLeast_length_encode n, length_encode_le_ten hn, length_collectGroups n,
      encode_terminated n, fun buffer => write_eq_append buffer n, ?_⟩
    · intro before rest
      rw [decode_append_encode, Nat.mod_eq_of_lt hn]
    · intro m hne
      exact ⟨fun h => hne (encode_inj_of_isPrefix h), fun h => hne (encode_inj_of_isPrefix h).symm⟩
  · intro ns hns
    have hread := decodeAll_append_flatMap_encode [] ns
    have hmod : ns.map (· % modulus) = ns.map id :=
      List.map_congr_left fun n hn => Nat.mod_eq_of_lt (hns n hn)
    rwa [hmod, List.map_id] at hread

/-- The largest value and the smallest one of ten bytes. -/
theorem encode_prefixCode_widest :
    decode ([0x90] ++ encode (2 ^ 64 - 1) ++ [0x7F]) 1 = .ok (2 ^ 64 - 1, 10) ∧
      encode (2 ^ 63) = [0x81, 0x80, 0x80, 0x80, 0x80, 0x80, 0x80, 0x80, 0x80, 0x00] ∧
      write [0x00] (2 ^ 63 - 1) = [0x00] ++ encode (2 ^ 63 - 1) ∧
      ¬ encode 0 <+: encode (2 ^ 63) ∧
      decodeAll ([0, 128, 2 ^ 64 - 1].flatMap encode) 0 = .ok [0, 128, 2 ^ 64 - 1] := by
  obtain ⟨hcode, hrow⟩ := encode_prefixCode
  have hwide : encode (2 ^ 63) = [0x81, 0x80, 0x80, 0x80, 0x80, 0x80, 0x80, 0x80, 0x80, 0x00] := by
    simp [encode, leadingGroups]
  have hlength : (encode (2 ^ 64 - 1)).length = 10 := by simp [encode, leadingGroups]
  obtain ⟨hread, -⟩ := hcode (2 ^ 64 - 1) (by decide)
  obtain ⟨-, -, -, -, -, hwrite, -⟩ := hcode (2 ^ 63 - 1) (by decide)
  obtain ⟨-, -, -, -, -, -, hfirst⟩ := hcode 0 (by decide)
  exact ⟨hlength ▸ hread [0x90] [0x7F], hwide, hwrite [0x00], (hfirst _ (by decide)).1,
    hrow _ (by decide)⟩

end DseMidi.Quantity
