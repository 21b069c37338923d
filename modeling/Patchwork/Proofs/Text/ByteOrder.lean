import Patchwork.Proofs.Tree.Listing
import Patchwork.Text.Utf8

/-!
# The order of texts

One text comes before another just if its bytes do, so that a sorted list of different texts ascends in the order
of their bytes.
-/
namespace Patchwork.Text

open Utf8 (encode)

variable {s t : Text} {ts : List Text}

/-- The bytes of characters are in the order of their code points, whatever follows them.  The first byte tells how
many there are, and each of them has the next digits of the code point to the base 64. -/
theorem encodeChar_lt {a b : Char} (h : a.toNat < b.toNat) (s t : Bytes) :
    String.utf8EncodeChar a ++ s < String.utf8EncodeChar b ++ t := by
  have hbound : b.val.toNat < 0x110000 := by
    have hvalid := b.valid
    simp only [UInt32.isValidChar, Nat.isValidChar] at hvalid
    omega
  change a.val.toNat < b.val.toNat at h
  unfold String.utf8EncodeChar
  generalize a.val.toNat = x at h
  generalize b.val.toNat = y at h hbound
  have hlast (n : Nat) : (n % 64 + 128) % 2 ^ 8 = n % 64 + 128 := by omega
  have hfirst {n : Nat} (hn : n < 0x110000) : (n / 262144 % 8 + 240) % 2 ^ 8 = n / 262144 + 240 := by omega
  have hx := hfirst (h.trans hbound)
  have hy := hfirst hbound
  dsimp only
  split_ifs <;>
    simp only [List.cons_append, List.nil_append, List.cons_lt_cons_iff, UInt8.lt_iff_toNat_lt,
      ← UInt8.toNat_inj, UInt8.toNat_ofNat', hlast, hx, hy] <;>
    omega

theorem encode_lt_of_before (h : before s t = true) (hne : s ≠ t) : encode s < encode t := by
  induction s generalizing t with
  | nil =>
    cases t with
    | nil => exact absurd rfl hne
    | cons b t =>
      cases hb : encode (b :: t) with
      | nil =>
        have hlen := Utf8.length_le_encode (b :: t)
        rw [hb] at hlen
        cases hlen
      | cons byte bytes => exact List.nil_lt_cons byte bytes
  | cons a s ih =>
    cases t with
    | nil => cases h
    | cons b t =>
      rw [encode, encode, List.flatMap_cons, List.flatMap_cons]
      rw [before] at h
      split at h
      · next hab =>
        subst hab
        exact List.append_left_lt (ih h fun hst => hne (congrArg (a :: ·) hst))
      · exact encodeChar_lt (of_decide_eq_true h) _ _

/-- The order of code points is the order of bytes. -/
theorem encode_lt_iff : encode s < encode t ↔ before s t = true ∧ s ≠ t := by
  refine ⟨fun hlt => ?_, fun ⟨h, hne⟩ => encode_lt_of_before h hne⟩
  have hne : s ≠ t := by
    rintro rfl
    exact List.lt_irrefl _ hlt
  refine ⟨(Bool.or_eq_true _ _ ▸ before_total s t).resolve_right fun hts => ?_, hne⟩
  exact List.lt_asymm hlt (encode_lt_of_before hts hne.symm)

end Patchwork.Text
