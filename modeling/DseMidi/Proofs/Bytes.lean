import Mathlib.Algebra.Group.Nat.Defs
import Mathlib.Data.List.Induction
import DseMidi.Bytes

/-!
# DseMidi.Proofs.Bytes

**Numbers of a given width.** `width` bytes spell the numbers below `256 ^ width`, and writing
a number in them keeps it modulo that. So bytes are known from their number and how many they
are.
-/

namespace DseMidi

theorem beNat_lt (bytes : Bytes) : beNat bytes < 256 ^ bytes.length := by
  induction bytes using List.reverseRecOn with
  | nil => decide
  | append_singleton bytes b ih =>
    have hb := b.toNat_lt
    rw [beNat_concat, List.length_append, List.length_singleton, Nat.pow_succ]
    omega

theorem beNat_lt_of_length_le {bytes : Bytes} {width : Nat} (h : bytes.length ≤ width) :
    beNat bytes < 256 ^ width :=
  Nat.lt_of_lt_of_le (beNat_lt bytes) (Nat.pow_le_pow_right (by decide) h)

/-- Reading back the low `width` bytes of `n` gives `n` modulo `256 ^ width`. -/
theorem beNat_beBytes (width n : Nat) : beNat (beBytes width n) = n % 256 ^ width := by
  induction width generalizing n with
  | zero => simp [beBytes, Nat.mod_one]
  | succ width ih =>
    rw [beBytes, beNat_concat, ih, Nat.pow_succ, Nat.mul_comm (256 ^ width), Nat.mod_mul,
      UInt8.toNat_ofNat', Nat.mul_comm, Nat.add_comm]

/-- Writing the number that bytes spell in as many bytes gives them back. -/
theorem beBytes_beNat (bytes : Bytes) : beBytes bytes.length (beNat bytes) = bytes := by
  induction bytes using List.reverseRecOn with
  | nil => rfl
  | append_singleton bytes b ih =>
    have hb : b.toNat < 256 := b.toNat_lt
    have hfront : (beNat bytes * 256 + b.toNat) / 256 = beNat bytes := by omega
    have hlast : UInt8.ofNat (beNat bytes * 256 + b.toNat) = b := by
      apply UInt8.toNat_inj.mp
      rw [UInt8.toNat_ofNat']
      omega
    rw [List.length_append, List.length_singleton, beBytes, beNat_concat, hfront, hlast, ih]

end DseMidi
