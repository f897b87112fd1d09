import Mathlib.Algebra.Group.Nat.Defs
import Mathlib.Data.List.Basic
import DseMidi.Quantity
import DseMidi.Smf.Wire

/-!
# DseMidi.Proofs.Quantity

**Quantities as groups.** A written quantity is a list of continued groups and one group
that closes it (`Terminated`); `groupsFrom` is the number that groups spell behind those
already read.

* `groupsFrom_leadingGroups` and `length_encode_le_iff` say which number a written
  quantity spells and in how many bytes: `k` bytes hold exactly the numbers below
  `128 ^ k`.
* Both readers take a written quantity off the front of any input: `decode_encode` for the
  reader without a limit, which takes any groups of this form (`Terminated.decode_eq`),
  `readQuantity_encode` for the one that stops after four groups.
-/

namespace DseMidi.Quantity

/-! ### What groups spell -/

/-- The number that groups spell behind those that gave `value`. -/
def groupsFrom (value : Nat) (groups : Bytes) : Nat :=
  groups.foldl (fun value b => value * 128 + b.toNat % 128) value

@[simp] theorem groupsFrom_nil (value : Nat) : groupsFrom value [] = value := rfl

@[simp] theorem groupsFrom_cons (value : Nat) (b : UInt8) (groups : Bytes) :
    groupsFrom value (b :: groups) = groupsFrom (value * 128 + b.toNat % 128) groups := rfl

theorem groupsFrom_append (value : Nat) (groups more : Bytes) :
    groupsFrom value (groups ++ more) = groupsFrom (groupsFrom value groups) more := by
  simp [groupsFrom]

/-! ### Written groups -/

theorem toNat_closed_group (n : Nat) : (UInt8.ofNat (n % 128)).toNat = n % 128 := by
  rw [UInt8.toNat_ofNat']
  omega

theorem toNat_continued_group (n : Nat) :
    (UInt8.ofNat (n % 128 + 128)).toNat = n % 128 + 128 := by
  rw [UInt8.toNat_ofNat']
  omega

theorem closed_group_lt (n : Nat) : UInt8.ofNat (n % 128) < 0x80 := by
  rw [UInt8.lt_iff_toNat_lt, toNat_closed_group]
  exact Nat.mod_lt n (by decide)

/-- All groups in front of the last one are continued. -/
theorem continued_of_mem_leadingGroups {n : Nat} {b : UInt8} (h : b ∈ leadingGroups n) :
    ¬ b < 0x80 := by
  induction n using Nat.strongRecOn with
  | ind n ih =>
    by_cases hn : n = 0
    · rw [hn, leadingGroups_zero] at h
      cases h
    · rw [leadingGroups_of_pos (Nat.pos_of_ne_zero hn), List.mem_append] at h
      rcases h with h | h
      · exact ih (n / 128) (by omega) h
      · rw [List.mem_singleton.mp h, UInt8.lt_iff_toNat_lt, toNat_continued_group]
        exact Nat.not_lt.mpr (Nat.le_add_left _ _)

/-- The continued groups spell the number that is left of the last group. -/
theorem groupsFrom_leadingGroups (n : Nat) : groupsFrom 0 (leadingGroups n) = n := by
  induction n using Nat.strongRecOn with
  | ind n ih =>
    by_cases hn : n = 0
    · rw [hn, leadingGroups_zero, groupsFrom_nil]
    · rw [leadingGroups_of_pos (Nat.pos_of_ne_zero hn), groupsFrom_append, ih _ (by omega),
        groupsFrom_cons, groupsFrom_nil, toNat_continued_group]
      omega

theorem length_leadingGroups_le_iff {n k : Nat} :
    (leadingGroups n).length ≤ k ↔ n < 128 ^ k := by
  induction k generalizing n with
  | zero =>
    by_cases hn : n = 0
    · simp [hn]
    · rw [leadingGroups_of_pos (Nat.pos_of_ne_zero hn)]
      simp [hn]
  | succ k ih =>
    by_cases hn : n = 0
    · rw [hn, leadingGroups_zero]
      exact iff_of_true (Nat.zero_le _) (Nat.pow_pos (by decide))
    · rw [leadingGroups_of_pos (Nat.pos_of_ne_zero hn), List.length_append,
        List.length_singleton, Nat.add_le_add_iff_right, ih,
        Nat.div_lt_iff_lt_mul (by decide), Nat.pow_succ]

/-- A quantity takes at most `k` bytes exactly if it is below `128 ^ k`. -/
theorem length_encode_le_iff {n k : Nat} (hk : 0 < k) :
    (encode n).length ≤ k ↔ n < 128 ^ k := by
  obtain ⟨k, rfl⟩ : ∃ j, k = j + 1 := ⟨k - 1, by omega⟩
  rw [encode, List.length_append, List.length_singleton, Nat.add_le_add_iff_right,
    length_leadingGroups_le_iff, Nat.div_lt_iff_lt_mul (by decide), Nat.pow_succ]

/-- A written quantity spells its number. -/
theorem groupsFrom_encode (n : Nat) : groupsFrom 0 (encode n) = n := by
  rw [encode, groupsFrom_append, groupsFrom_leadingGroups, groupsFrom_cons, groupsFrom_nil,
    toNat_closed_group]
  omega

/-- Groups of one quantity: all of them are continued but the last. -/
def Terminated (groups : Bytes) : Prop :=
  ∃ front last, groups = front ++ [last] ∧ (∀ b ∈ front, ¬ b < 0x80) ∧ last < 0x80

theorem encode_terminated (n : Nat) : Terminated (encode n) :=
  ⟨leadingGroups (n / 128), _, rfl, fun _ => continued_of_mem_leadingGroups, closed_group_lt n⟩

theorem encode_zero : encode 0 = [0] := by
  rw [encode, Nat.zero_div, leadingGroups_zero]
  rfl

/-! ### Cutting off groups -/

/-- The groups of the quantity in front of `bytes`, up to the one that closes it, and the
bytes behind them. -/
def groups? : Bytes → Option (Bytes × Bytes)
  | [] => none
  | b :: rest =>
    if b < 0x80 then some ([b], rest)
    else (groups? rest).map fun (groups, rest) => (b :: groups, rest)

/-- The groups of a quantity can be told from what is behind them. -/
theorem Terminated.groups?_append {groups : Bytes} (h : Terminated groups) (rest : Bytes) :
    groups? (groups ++ rest) = some (groups, rest) := by
  obtain ⟨front, last, rfl, hfront, hlast⟩ := h
  induction front with
  | nil => exact if_pos hlast
  | cons g front ih =>
    obtain ⟨hg, hgroups⟩ := List.forall_mem_cons.mp hfront
    rw [List.cons_append, List.cons_append, groups?, if_neg hg, ih hgroups]
    rfl

theorem groups?_encode (n : Nat) (rest : Bytes) :
    groups? (encode n ++ rest) = some (encode n, rest) :=
  (encode_terminated n).groups?_append rest

/-! ### Reading without a limit -/

/-- Keeping the low 64 bits of the groups so far keeps those of all groups. -/
theorem groupsFrom_mod (value : Nat) (groups : Bytes) :
    groupsFrom (value % modulus) groups % modulus = groupsFrom value groups % modulus := by
  induction groups generalizing value with
  | nil => exact Nat.mod_mod _ _
  | cons b groups ih =>
    have hstep : (value % modulus * 128 + b.toNat % 128) % modulus =
        (value * 128 + b.toNat % 128) % modulus := by
      rw [Nat.add_mod, Nat.mul_mod, Nat.mod_mod, ← Nat.mul_mod, ← Nat.add_mod]
    rw [groupsFrom_cons, groupsFrom_cons, ← ih, hstep, ih]

theorem readGroups_continued_append {groups : Bytes} (h : ∀ b ∈ groups, ¬ b < 0x80)
    (value : Nat) (b : UInt8) (hb : b < 0x80) (rest : Bytes) :
    readGroups value (groups ++ b :: rest) =
      some (groupsFrom value (groups ++ [b]) % modulus, groups.length + 1) := by
  induction groups generalizing value with
  | nil => simp [readGroups, hb]
  | cons g groups ih =>
    obtain ⟨hg, hgroups⟩ := List.forall_mem_cons.mp h
    rw [List.cons_append, readGroups, if_neg hg, ih hgroups, Option.map_some,
      List.cons_append, groupsFrom_cons, groupsFrom_mod, List.length_cons]

/-- The groups of a quantity are read wherever they stand, and nothing behind them is looked
at. -/
theorem Terminated.decode_eq {bytes groups rest : Bytes} {offset : Nat} (h : Terminated groups)
    (hdrop : bytes.drop offset = groups ++ rest) :
    decode bytes offset = .ok (groupsFrom 0 groups % modulus, groups.length) := by
  obtain ⟨front, last, rfl, hfront, hlast⟩ := h
  rw [decode, hdrop, List.append_assoc, List.singleton_append,
    readGroups_continued_append hfront 0 last hlast, List.length_append, List.length_singleton]

/-- What `encode` writes, `decode` takes off the front of any bytes, up to 64 bits. -/
theorem decode_encode (n : Nat) (rest : Bytes) :
    decode (encode n ++ rest) 0 = .ok (n % modulus, (encode n).length) := by
  rw [(encode_terminated n).decode_eq List.drop_zero, groupsFrom_encode]

end DseMidi.Quantity

namespace DseMidi.Smf

open Quantity

/-! ### Reading at most four groups -/

theorem readQuantity_continued_append {groups : Bytes} (h : ∀ b ∈ groups, ¬ b < 0x80)
    (limit value : Nat) (rest : Bytes) :
    readQuantity (groups.length + limit) value (groups ++ rest) =
      readQuantity limit (groupsFrom value groups) rest := by
  induction groups generalizing value with
  | nil => rw [List.length_nil, Nat.zero_add, List.nil_append, groupsFrom_nil]
  | cons g groups ih =>
    obtain ⟨hg, hgroups⟩ := List.forall_mem_cons.mp h
    rw [List.length_cons, Nat.add_right_comm, List.cons_append, readQuantity, groupsFrom_cons,
      ← ih hgroups]
    exact if_neg hg

/-- A quantity that fits the limit is read back, and nothing behind it is looked at. -/
theorem readQuantity_encode {n : Nat} (h : n < 2 ^ 28) (rest : Bytes) :
    readQuantity quantityLimit 0 (encode n ++ rest) = (n, rest) := by
  have hlen : (leadingGroups (n / 128)).length ≤ 3 :=
    length_leadingGroups_le_iff.mpr (by omega)
  obtain ⟨limit, hlimit⟩ :
      ∃ limit, quantityLimit = (leadingGroups (n / 128)).length + (limit + 1) :=
    ⟨3 - (leadingGroups (n / 128)).length, by unfold quantityLimit; omega⟩
  have hvalue : n / 128 * 128 + n % 128 = n := by omega
  rw [encode, List.append_assoc, List.singleton_append, hlimit,
    readQuantity_continued_append fun _ => continued_of_mem_leadingGroups,
    groupsFrom_leadingGroups, readQuantity, toNat_closed_group, Nat.mod_mod, hvalue]
  exact if_pos (closed_group_lt n)

/-- No quantity that the reader takes has more than four groups. -/
theorem readQuantity_lt (limit value : Nat) (bytes : Bytes) :
    (readQuantity limit value bytes).1 < (value + 1) * 128 ^ limit := by
  induction limit generalizing value bytes with
  | zero => simp [readQuantity]
  | succ limit ih =>
    have hpos : 0 < 128 ^ limit := Nat.pow_pos (by decide)
    rw [Nat.pow_succ', ← Nat.mul_assoc]
    cases bytes with
    | nil =>
      have hvalue : value < (value + 1) * 128 := by omega
      exact Nat.lt_of_lt_of_le hvalue (Nat.le_mul_of_pos_right _ hpos)
    | cons b rest =>
      have hvalue : value * 128 + b.toNat % 128 < (value + 1) * 128 := by omega
      rw [readQuantity]
      by_cases hb : b < 0x80
      · rw [if_pos hb]
        exact Nat.lt_of_lt_of_le hvalue (Nat.le_mul_of_pos_right _ hpos)
      · rw [if_neg hb]
        exact Nat.lt_of_lt_of_le (ih _ rest) (Nat.mul_le_mul_right _ hvalue)

end DseMidi.Smf
