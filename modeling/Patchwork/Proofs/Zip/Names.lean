import Mathlib
import Patchwork.Text.CodePage
import Patchwork.Text.Utf8

/-!
# Names that are written and read

Reading that puts up with broken text loses nothing of a text that is well encoded, and ASCII is the same in
both encodings of names.
-/
namespace Patchwork.Text

variable {c : Char} {t : Text} {n v lo hi : Nat}

namespace Utf8

theorem continuation_ofNat (hn : n < 256) : continuation (UInt8.ofNat n) =
    if 0xc2 ≤ n ∧ n ≤ 0xdf then some (0x80, 0xbf, 0)
    else if n = 0xe0 then some (0xa0, 0xbf, 1)
    else if n = 0xed then some (0x80, 0x9f, 1)
    else if 0xe1 ≤ n ∧ n ≤ 0xef then some (0x80, 0xbf, 1)
    else if n = 0xf0 then some (0x90, 0xbf, 2)
    else if 0xf1 ≤ n ∧ n ≤ 0xf3 then some (0x80, 0xbf, 2)
    else if n = 0xf4 then some (0x80, 0x8f, 2)
    else none := by
  unfold continuation
  simp only [UInt8.le_iff_toNat_le, ← UInt8.toNat_inj, UInt8.toNat_ofNat', Nat.mod_eq_of_lt hn]
  rfl

theorem ofNat_le_ofNat (hlo : lo < 256) (hn : n < 256) : UInt8.ofNat lo ≤ UInt8.ofNat n ↔ lo ≤ n := by
  rw [UInt8.le_iff_toNat_le, UInt8.toNat_ofNat', UInt8.toNat_ofNat', Nat.mod_eq_of_lt hlo, Nat.mod_eq_of_lt hn]

/-- A byte behind the first two of a character. -/
def Follows (b : UInt8) : Prop := (0x80 ≤ b && b ≤ 0xbf) = true

theorem follows_ofNat (v : Nat) : Follows (UInt8.ofNat (v % 64 + 128)) := by
  have hlow : UInt8.ofNat 0x80 ≤ UInt8.ofNat (v % 64 + 128) :=
    (ofNat_le_ofNat (by omega) (by omega)).mpr (by omega)
  have hhigh : UInt8.ofNat (v % 64 + 128) ≤ UInt8.ofNat 0xbf :=
    (ofNat_le_ofNat (by omega) (by omega)).mpr (by omega)
  rw [Follows, Bool.and_eq_true, decide_eq_true_eq, decide_eq_true_eq]
  exact ⟨hlow, hhigh⟩

/-- What a first byte announces: a second one in some range, and some more. -/
def Announces (first second more : Nat) : Prop :=
  ∃ lo hi, continuation (UInt8.ofNat first) = some (UInt8.ofNat lo, UInt8.ofNat hi, more) ∧
    lo ≤ second ∧ second ≤ hi ∧ hi < 256

theorem Announces.tailLength {first second : Nat} {more : Bytes} (h : Announces first second more.length)
    (hmore : ∀ b ∈ more, Follows b) (rest : Bytes) :
    tailLength (UInt8.ofNat first) (UInt8.ofNat second :: (more ++ rest)) = more.length + 1 := by
  obtain ⟨lo, hi, hfirst, hlo, hhi, hlt⟩ := h
  have hrange : UInt8.ofNat lo ≤ UInt8.ofNat second ∧ UInt8.ofNat second ≤ UInt8.ofNat hi :=
    ⟨(ofNat_le_ofNat (by omega) (by omega)).mpr hlo, (ofNat_le_ofNat (by omega) hlt).mpr hhi⟩
  unfold Utf8.tailLength
  rw [hfirst]
  dsimp only
  rw [if_pos hrange, List.take_left, List.takeWhile_eq_self_iff.mpr hmore, Nat.add_comm]

theorem announces_two (hlow : 127 < v) (hhigh : v ≤ 2047) : Announces (v / 64 % 32 + 192) (v % 64 + 128) 0 := by
  refine ⟨0x80, 0xbf, ?_, by omega, by omega, by omega⟩
  rw [continuation_ofNat (by omega), if_pos (by omega)]
  rfl

theorem announces_three (hlow : 2047 < v) (hhigh : v ≤ 65535) (hvalid : v < 0xd800 ∨ 0xdfff < v) :
    Announces (v / 4096 % 16 + 224) (v / 64 % 64 + 128) 1 := by
  unfold Announces
  rw [continuation_ofNat (by omega), if_neg (by omega)]
  split
  · exact ⟨0xa0, 0xbf, rfl, by omega, by omega, by omega⟩
  · split
    · exact ⟨0x80, 0x9f, rfl, by omega, by omega, by omega⟩
    · rw [if_pos (by omega)]
      exact ⟨0x80, 0xbf, rfl, by omega, by omega, by omega⟩

theorem announces_four (hlow : 65535 < v) (hhigh : v < 0x110000) :
    Announces (v / 262144 % 8 + 240) (v / 4096 % 64 + 128) 2 := by
  unfold Announces
  rw [continuation_ofNat (by omega), if_neg (by omega), if_neg (by omega), if_neg (by omega), if_neg (by omega)]
  split
  · exact ⟨0x90, 0xbf, rfl, by omega, by omega, by omega⟩
  · split
    · exact ⟨0x80, 0xbf, rfl, by omega, by omega, by omega⟩
    · rw [if_pos (by omega)]
      exact ⟨0x80, 0x8f, rfl, by omega, by omega, by omega⟩

/-- The first byte of a character tells how many bytes follow it. -/
theorem tailLength_encodeChar (c : Char) (rest : Bytes) :
    ∃ b tail, String.utf8EncodeChar c = b :: tail ∧ tailLength b (tail ++ rest) = tail.length := by
  have hvalid : c.val.toNat < 0xd800 ∨ 0xdfff < c.val.toNat ∧ c.val.toNat < 0x110000 := c.valid
  unfold String.utf8EncodeChar
  dsimp only
  generalize c.val.toNat = v at hvalid ⊢
  split
  · refine ⟨_, [], rfl, ?_⟩
    have hnone : continuation (UInt8.ofNat v) = none := by
      rw [continuation_ofNat (by omega), if_neg (by omega), if_neg (by omega), if_neg (by omega),
        if_neg (by omega), if_neg (by omega), if_neg (by omega), if_neg (by omega)]
    unfold tailLength
    rw [hnone]
    rfl
  · split
    · have hfirst : Announces (v / 64 % 32 + 192) (v % 64 + 128) ([] : Bytes).length :=
        announces_two (by omega) (by omega)
      exact ⟨_, [_], rfl, hfirst.tailLength (fun b hb => absurd hb List.not_mem_nil) rest⟩
    · split
      · have hfirst : Announces (v / 4096 % 16 + 224) (v / 64 % 64 + 128) [UInt8.ofNat (v % 64 + 128)].length :=
          announces_three (by omega) (by omega) (by omega)
        refine ⟨_, [_, _], rfl, hfirst.tailLength (fun b hb => ?_) rest⟩
        rw [List.mem_singleton.mp hb]
        exact follows_ofNat v
      · have hfirst : Announces (v / 262144 % 8 + 240) (v / 4096 % 64 + 128)
            [UInt8.ofNat (v / 64 % 64 + 128), UInt8.ofNat (v % 64 + 128)].length :=
          announces_four (by omega) (by omega)
        refine ⟨_, [_, _, _], rfl, hfirst.tailLength (fun b hb => ?_) rest⟩
        rcases List.mem_cons.mp hb with rfl | hb
        · exact follows_ofNat (v / 64)
        · rw [List.mem_singleton.mp hb]
          exact follows_ofNat v

theorem decodeLossy_go_encode (t : Text) (done : Text) : decodeLossy.go (encode t) done = done.reverse ++ t := by
  induction t generalizing done with
  | nil =>
    rw [List.append_nil, encode, List.flatMap_nil, decodeLossy.go]
  | cons c t ih =>
    obtain ⟨b, tail, hc, htail⟩ := tailLength_encodeChar c (encode t)
    have hencode : encode (c :: t) = b :: (tail ++ encode t) := by
      rw [encode, List.flatMap_cons, hc]
      rfl
    have hchar : decode? (b :: tail) = some [c] := by
      have hself := decode?_encode [c]
      rwa [encode, List.flatMap_cons, List.flatMap_nil, List.append_nil, hc] at hself
    rw [hencode, decodeLossy.go, htail, List.take_left, List.drop_left, hchar, ih, List.reverse_cons, List.append_assoc]
    rfl

/-- Reading that puts up with broken text loses nothing of a text that is well encoded. -/
theorem decodeLossy_encode (t : Text) : decodeLossy (encode t) = t := decodeLossy_go_encode t []

end Utf8

/-- A text of ASCII is read back by the code page, too. -/
theorem CodePage.decode_encode (ht : ∀ c ∈ t, c.toNat < 128) : CodePage.decode (Utf8.encode t) = t := by
  induction t with
  | nil => rfl
  | cons c t ih =>
    have hc : c.toNat < 128 := ht c List.mem_cons_self
    have hencode : Utf8.encode (c :: t) = UInt8.ofNat c.toNat :: Utf8.encode t := by
      have hsingle : String.utf8EncodeChar c = [UInt8.ofNat c.toNat] := if_pos (Nat.le_of_lt_succ hc)
      rw [Utf8.encode, List.flatMap_cons, hsingle]
      rfl
    have hchar : char (UInt8.ofNat c.toNat) = c := by
      have hnat : (UInt8.ofNat c.toNat).toNat = c.toNat := by
        rw [UInt8.toNat_ofNat', Nat.mod_eq_of_lt (by omega)]
      have hlow : UInt8.ofNat c.toNat < 128 := by
        rw [UInt8.lt_iff_toNat_lt, hnat]
        exact hc
      rw [char, if_pos hlow, hnat, Char.ofNat_toNat]
    have hrest := ih fun d hd => ht d (List.mem_cons_of_mem c hd)
    rw [decode] at hrest ⊢
    rw [hencode, List.map_cons, hchar, hrest]

end Patchwork.Text
