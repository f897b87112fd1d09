import Mathlib.Data.Nat.Digits.Defs
import DseMidi.Proofs.Quantity.PrefixCode

/-!
# DseMidi.Proofs.Quantity.Canonical

**Which groups are written ones.** A reader takes more than is ever written: any number of zero
groups may be in front, and what the groups spell may have more than 64 bits, of which only the low
ones are kept. What is written for the value that was read is

* shorter than the groups that were read if these begin with a zero group, since nothing that is
  written does (`head?_encode`);
* the same groups otherwise (`Terminated.encode_spelled`), unless a bit was lost. Ten groups are
  70 bits, and so 64 bits leave no more than one for the first of them (`head?_of_length_eq_ten`).

It is never longer than what was read (`length_encode_le_of_decode`).
-/

namespace DseMidi.Quantity

/-! ### What groups spell -/

/-- The number that groups spell. Their low seven bits are its digits at base 128, most
significant digit first. -/
def spelled (groups : Bytes) : Nat :=
  Nat.ofDigits 128 (groups.reverse.map (·.toNat % 128))

@[simp] theorem spelled_nil : spelled [] = 0 := rfl

/-- A group in front of others is worth what these leave free. -/
theorem spelled_cons (b : UInt8) (groups : Bytes) :
    spelled (b :: groups) = b.toNat % 128 * 128 ^ groups.length + spelled groups := by
  rw [spelled, List.reverse_cons, List.map_append, Nat.ofDigits_append, List.length_map,
    List.length_reverse, List.map_singleton, Nat.ofDigits_singleton, Nat.mul_comm, Nat.add_comm]
  rfl

theorem spelled_lt (groups : Bytes) : spelled groups < 128 ^ groups.length := by
  have hdigits : ∀ digit ∈ groups.reverse.map (·.toNat % 128), digit < 128 :=
    List.forall_mem_map.mpr fun b _ => Nat.mod_lt b.toNat (by decide)
  have hlt := Nat.ofDigits_lt_base_pow_length (by decide) hdigits
  rwa [List.length_map, List.length_reverse] at hlt

/-- Nine groups and one bit hold 64 bits. -/
theorem spelled_lt_modulus {groups : Bytes}
    (h : groups.length ≤ 9 ∨ groups.length = 10 ∧ groups.head? = some 0x81) :
    spelled groups < modulus := by
  have hmodulus : modulus = 2 * 128 ^ 9 := rfl
  rcases h with hnine | ⟨hten, hfirst⟩
  · have hpow : 128 ^ groups.length ≤ 128 ^ 9 := Nat.pow_le_pow_right (by decide) hnine
    have hlt := spelled_lt groups
    omega
  · obtain ⟨rest, rfl⟩ := List.head?_eq_some_iff.mp hfirst
    have hrest : rest.length = 9 := Nat.succ.inj hten
    have hlt := spelled_lt rest
    have hone : (0x81 : UInt8).toNat % 128 = 1 := rfl
    rw [spelled_cons, hrest, hone]
    rw [hrest] at hlt
    omega

theorem groupsFrom_eq_add (value : Nat) (groups : Bytes) :
    groupsFrom value groups = value * 128 ^ groups.length + spelled groups := by
  induction groups generalizing value with
  | nil => simp
  | cons b groups ih =>
    rw [groupsFrom_cons, ih, spelled_cons, List.length_cons, Nat.pow_succ', Nat.add_mul,
      Nat.mul_assoc, Nat.add_assoc]

/-- Reading groups from the front gives what they spell. -/
theorem groupsFrom_eq_spelled (groups : Bytes) : groupsFrom 0 groups = spelled groups := by
  rw [groupsFrom_eq_add, Nat.zero_mul, Nat.zero_add]

theorem spelled_encode (n : Nat) : spelled (encode n) = n := by
  rw [← groupsFrom_eq_spelled, groupsFrom_encode]

/-! ### The first group -/

theorem leadingGroups_of_lt {n : Nat} (hpos : 0 < n) (h : n < 128) :
    leadingGroups n = [UInt8.ofNat (n % 128 + 128)] := by
  rw [leadingGroups_of_pos hpos, Nat.div_eq_of_lt h, leadingGroups_zero, List.nil_append]

/-- The leading groups of a value do not begin with a zero group. -/
theorem head?_leadingGroups (n : Nat) : (leadingGroups n).head? ≠ some 0x80 := by
  induction n using Nat.strongRecOn with
  | ind n ih =>
    by_cases hzero : n = 0
    · simp [hzero]
    have hpos : 0 < n := Nat.pos_of_ne_zero hzero
    by_cases hn : n < 128
    · rw [leadingGroups_of_lt hpos hn]
      intro h
      have hgroup := congrArg UInt8.toNat (Option.some.inj h)
      rw [toNat_continued_group] at hgroup
      change n % 128 + 128 = 128 at hgroup
      omega
    · have hmore : leadingGroups (n / 128) ≠ [] := by
        rw [leadingGroups_of_pos (by omega)]
        simp
      rw [leadingGroups_of_pos hpos, List.head?_append_of_ne_nil _ hmore]
      exact ih _ (by omega)

/-- Nothing that is written begins with a zero group. -/
theorem head?_encode (n : Nat) : (encode n).head? ≠ some 0x80 := by
  by_cases hn : leadingGroups (n / 128) = []
  · rw [encode, hn]
    intro h
    have hclosed := closed_group_lt n
    rw [Option.some.inj h] at hclosed
    exact absurd hclosed (by decide)
  · rw [encode, List.head?_append_of_ne_nil _ hn]
    exact head?_leadingGroups _

theorem toNat_of_continued {b : UInt8} (h : ¬ b < 0x80) : b.toNat = b.toNat % 128 + 128 := by
  have hlow : 128 ≤ b.toNat := Nat.not_lt.mp fun hlt => h (UInt8.lt_iff_toNat_lt.mpr hlt)
  have hbyte := b.toNat_lt
  omega

/-- In ten groups of a 64-bit value there is one bit in the first. -/
theorem head?_of_length_eq_ten {n : Nat} (h : n < modulus) (hlength : (encode n).length = 10) :
    (encode n).head? = some 0x81 := by
  obtain ⟨front, last, hencode, hfront, -⟩ := encode_terminated n
  have hzero := head?_encode n
  have hspelled := spelled_encode n
  rw [hencode] at hzero hspelled hlength ⊢
  cases front with
  | nil => simp at hlength
  | cons b front =>
    obtain ⟨hb, -⟩ := List.forall_mem_cons.mp hfront
    -- Nine groups are 63 bits, so the first of ten is 0 or 1 without its mark, and it is not 0.
    have htail : (front ++ [last]).length = 9 := Nat.succ.inj hlength
    have hmodulus : modulus = 2 * 128 ^ 9 := rfl
    rw [List.cons_append, spelled_cons, htail] at hspelled
    rw [List.cons_append, List.head?_cons] at hzero ⊢
    have hnonzero : b.toNat ≠ 128 := fun hb => hzero (congrArg some (UInt8.toNat_inj.mp hb))
    have hcontinued := toNat_of_continued hb
    have hone : b.toNat = 129 := by omega
    exact congrArg some (UInt8.toNat_inj.mp hone)

/-! ### Written groups -/

theorem leadingGroups_groupsFrom {value : Nat} (hvalue : 0 < value) {groups : Bytes}
    (h : ∀ b ∈ groups, ¬ b < 0x80) :
    leadingGroups (groupsFrom value groups) = leadingGroups value ++ groups := by
  induction groups generalizing value with
  | nil => rw [groupsFrom_nil, List.append_nil]
  | cons b groups ih =>
    obtain ⟨hb, hgroups⟩ := List.forall_mem_cons.mp h
    have hmark : UInt8.ofNat ((value * 128 + b.toNat % 128) % 128 + 128) = b := by
      rw [Nat.mul_add_mod_self_right, Nat.mod_mod, ← toNat_of_continued hb, UInt8.ofNat_toNat]
    have hleft : (value * 128 + b.toNat % 128) / 128 = value := by omega
    rw [groupsFrom_cons, ih (by omega) hgroups, leadingGroups_of_pos (by omega), hleft, hmark,
      List.append_assoc, List.singleton_append]

theorem encode_mul_add (value : Nat) {last : UInt8} (h : last < 0x80) :
    encode (value * 128 + last.toNat % 128) = leadingGroups value ++ [last] := by
  have hlast : (value * 128 + last.toNat % 128) % 128 = last.toNat := by
    have hlow := UInt8.lt_iff_toNat_lt.mp h
    change last.toNat < 128 at hlow
    omega
  have hleft : (value * 128 + last.toNat % 128) / 128 = value := by omega
  rw [encode, hleft, hlast, UInt8.ofNat_toNat]

/-- Groups that do not begin with a zero group are what is written for the number they spell. -/
theorem Terminated.encode_spelled {groups : Bytes} (h : Terminated groups)
    (hzero : groups.head? ≠ some 0x80) : encode (spelled groups) = groups := by
  obtain ⟨front, last, rfl, hfront, hlast⟩ := h
  rw [← groupsFrom_eq_spelled, groupsFrom_append, groupsFrom_cons, groupsFrom_nil,
    encode_mul_add _ hlast]
  cases front with
  | nil => rw [groupsFrom_nil, leadingGroups_zero]
  | cons b front =>
    obtain ⟨hb, hcontinued⟩ := List.forall_mem_cons.mp hfront
    have hmarked := toNat_of_continued hb
    have hnonzero : b.toNat ≠ 128 := fun hb => hzero (congrArg some (UInt8.toNat_inj.mp hb))
    rw [groupsFrom_cons, Nat.zero_mul, Nat.zero_add,
      leadingGroups_groupsFrom (by omega) hcontinued, leadingGroups_of_lt (by omega) (by omega),
      Nat.mod_mod, ← hmarked, UInt8.ofNat_toNat]
    rfl

theorem Terminated.head?_of_length_eq_one {groups : Bytes} (h : Terminated groups)
    (hone : groups.length = 1) : groups.head? ≠ some 0x80 := by
  obtain ⟨front, last, rfl, -, hlast⟩ := h
  obtain rfl : front = [] := List.length_eq_zero_iff.mp (Nat.succ.inj (by simpa using hone))
  intro hhead
  rw [Option.some.inj hhead] at hlast
  exact absurd hlast (by decide)

/-- **The written groups** are those that do not begin with a zero group and spell 64 bits. -/
theorem Terminated.encode_mod_eq_iff {groups : Bytes} (h : Terminated groups) :
    encode (spelled groups % modulus) = groups ↔
      groups.length = 1 ∨ groups.head? ≠ some 0x80 ∧
        (groups.length ≤ 9 ∨ groups.length = 10 ∧ groups.head? = some 0x81) := by
  constructor
  · intro hencode
    have hlt : spelled groups % modulus < modulus := Nat.mod_lt _ (by decide)
    have hten := length_encode_le_ten hlt
    have hfirst := head?_of_length_eq_ten hlt
    rw [hencode] at hten hfirst
    -- The groups are written ones here, so what holds of these holds of them.
    refine .inr ⟨hencode ▸ head?_encode _, ?_⟩
    rcases Nat.lt_or_eq_of_le hten with hnine | heq
    · exact .inl (Nat.le_of_lt_succ hnine)
    · exact .inr ⟨heq, hfirst heq⟩
  · intro hshape
    have hzero : groups.head? ≠ some 0x80 := by
      rcases hshape with hone | ⟨hzero, -⟩
      · exact h.head?_of_length_eq_one hone
      · exact hzero
    have hlt : spelled groups < modulus := by
      rcases hshape with hone | ⟨-, hwide⟩
      · exact spelled_lt_modulus (.inl (hone ▸ by decide))
      · exact spelled_lt_modulus hwide
    rw [Nat.mod_eq_of_lt hlt, h.encode_spelled hzero]

/-- What is written for a value is not longer than anything that it is read from. -/
theorem length_encode_le_of_decode {bytes : Bytes} {offset n count : Nat}
    (h : decode bytes offset = .ok (n, count)) : (encode n).length ≤ count := by
  obtain ⟨groups, rest, -, -, rfl, rfl⟩ := decode_inv h
  rw [groupsFrom_eq_spelled]
  by_cases hten : 10 ≤ groups.length
  · exact Nat.le_trans (length_encode_le_ten (Nat.mod_lt _ (by decide))) hten
  · have hpos := decode_count_pos h
    have hmod := Nat.mod_le (spelled groups) modulus
    exact (length_encode_le_iff hpos).mpr (Nat.lt_of_le_of_lt hmod (spelled_lt groups))

/-! ### Reading -/

/-- The bytes that a quantity is read from can have anything behind them. -/
theorem Terminated.drop_take_append {bytes groups rest : Bytes} {offset : Nat}
    (h : Terminated groups) (hdrop : bytes.drop offset = groups ++ rest) (more : Bytes) :
    (bytes.take offset ++ groups ++ more).drop offset = groups ++ more := by
  obtain ⟨front, last, rfl, -, -⟩ := h
  have hlength := congrArg List.length hdrop
  simp only [List.length_drop, List.length_append, List.length_singleton] at hlength
  have htake : (bytes.take offset).length = offset :=
    List.length_take_of_le (by omega)
  rw [List.append_assoc, List.drop_left' htake]

/-- **Reading exactly.** From an offset on there is no quantity if and only if no byte has bit 7
clear. Otherwise the bytes up to the first one that has are read, whatever follows. Their value is
what they spell, modulo `2 ^ 64`, and what is written for it is the same bytes exactly if there is
one byte, or if the first one is not a zero group and no bit is lost: there are nine groups at
most, or ten of which the first one holds the 64th bit and no other. -/
theorem decode_exact (bytes : Bytes) (offset : Nat) :
    (decode bytes offset = .error (.unterminatedQuantity offset) ↔
      ∀ b ∈ bytes.drop offset, ¬ b < 0x80) ∧
    (decode bytes offset = .error (.unterminatedQuantity offset) ∨
      ∃ groups rest, bytes.drop offset = groups ++ rest ∧ Terminated groups ∧
        decode bytes offset = .ok (spelled groups % modulus, groups.length) ∧
        (∀ more, decode (bytes.take offset ++ groups ++ more) offset = decode bytes offset) ∧
        (encode (spelled groups % modulus) = groups ↔
          groups.length = 1 ∨ groups.head? ≠ some 0x80 ∧
            (groups.length ≤ 9 ∨ groups.length = 10 ∧ groups.head? = some 0x81))) := by
  rcases continued_or_terminated (bytes.drop offset) with hall | ⟨groups, rest, hdrop, hgroups⟩
  · have herror := decode_eq_error hall
    exact ⟨iff_of_true herror hall, .inl herror⟩
  · have hread := hgroups.decode_eq hdrop
    have hmore (more : Bytes) := hgroups.decode_eq (hgroups.drop_take_append hdrop more)
    rw [groupsFrom_eq_spelled] at hread hmore
    constructor
    · obtain ⟨front, last, rfl, -, hlast⟩ := hgroups
      have hmem : last ∈ bytes.drop offset := by simp [hdrop]
      exact iff_of_false (by simp [hread]) fun hall => hall last hmem hlast
    · exact .inr ⟨groups, rest, hdrop, hgroups, hread, fun more => (hmore more).trans hread.symm,
        hgroups.encode_mod_eq_iff⟩

/-- What the first of ten groups holds above the 64th bit makes no difference. -/
example : decode [0x83, 0x80, 0x80, 0x80, 0x80, 0x80, 0x80, 0x80, 0x80, 0x00] 0 =
    decode [0x81, 0x80, 0x80, 0x80, 0x80, 0x80, 0x80, 0x80, 0x80, 0x00] 0 := rfl

end DseMidi.Quantity
