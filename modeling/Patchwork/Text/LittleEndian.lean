import Patchwork.Text.Basic

/-!
# Little-endian numbers

A number in a fixed count of bytes, the lowest first.  Reading undoes writing for every number that
the bytes have room for (`value_bytes`).
-/
namespace Patchwork.LittleEndian

/-- The lowest `width` bytes of a number. -/
def bytes : Nat → Nat → Bytes
  | 0, _ => []
  | width + 1, n => UInt8.ofNat (n % 256) :: bytes width (n / 256)

def value : Bytes → Nat
  | [] => 0
  | b :: bs => b.toNat + 256 * value bs

@[simp] theorem length_bytes (width n : Nat) : (bytes width n).length = width := by
  induction width generalizing n with
  | zero => rfl
  | succ width ih => simp [bytes, ih]

theorem value_bytes {width n : Nat} (h : n < 1 <<< (8 * width)) : value (bytes width n) = n := by
  induction width generalizing n with
  | zero =>
    obtain rfl : n = 0 := Nat.lt_one_iff.mp h
    rfl
  | succ width ih =>
    have hd : n / 256 < 1 <<< (8 * width) := by
      rw [Nat.mul_succ, Nat.shiftLeft_add] at h
      exact Nat.div_lt_of_lt_mul (by rwa [Nat.shiftLeft_eq, Nat.mul_comm] at h)
    have hm : (UInt8.ofNat (n % 256)).toNat = n % 256 := by simp
    simp only [bytes, value, ih hd, hm]
    omega

end Patchwork.LittleEndian
