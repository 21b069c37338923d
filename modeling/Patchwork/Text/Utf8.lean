import Patchwork.Text.Basic

/-!
# UTF-8

Strict decoding refuses ill-formed bytes.  Lossy decoding puts U+FFFD for each longest start of a
character that the bytes after it do not complete.
-/
namespace Patchwork.Text.Utf8

def encode (t : Text) : Bytes := t.flatMap String.utf8EncodeChar

def decode? (bs : Bytes) : Option Text := bs.toByteArray.utf8Decode?.map Array.toList

theorem decode?_encode (t : Text) : decode? (encode t) = some t := by
  have h : (encode t).toByteArray = t.utf8Encode := rfl
  rw [decode?, h, List.utf8Decode?_utf8Encode, Option.map_some]

theorem encode_of_decode? {c : Bytes} {t : Text} (h : decode? c = some t) : encode t = c := by
  have hvalid : c.toByteArray.utf8Decode?.isSome := by
    rw [decode?, Option.map_eq_some_iff] at h
    obtain ⟨a, ha, -⟩ := h
    rw [ha]
    rfl
  obtain ⟨s, hs⟩ := ByteArray.isSome_utf8Decode?_iff.mp hvalid
  have hc : encode s = c := by
    have hbytes : (encode s).toByteArray = c.toByteArray := hs.symm
    rw [← List.toList_data_toByteArray (l := c), ← hbytes, List.toList_data_toByteArray]
  rw [← hc, decode?_encode, Option.some.injEq] at h
  rw [← h, hc]

theorem length_le_encode (t : Text) : t.length ≤ (encode t).length := by
  induction t with
  | nil => exact Nat.le_refl _
  | cons c t ih =>
    have hpos : 0 < (String.utf8EncodeChar c).length := by
      rw [String.length_utf8EncodeChar]
      exact c.utf8Size_pos
    rw [encode, List.flatMap_cons, List.length_append, List.length_cons]
    rw [encode] at ih
    omega
/-- What may follow a first byte: the range of the second byte, and the number of bytes after it. -/
def continuation (b : UInt8) : Option (UInt8 × UInt8 × Nat) :=
  if 0xc2 ≤ b ∧ b ≤ 0xdf then some (0x80, 0xbf, 0)
  else if b = 0xe0 then some (0xa0, 0xbf, 1)
  else if b = 0xed then some (0x80, 0x9f, 1)
  else if 0xe1 ≤ b ∧ b ≤ 0xef then some (0x80, 0xbf, 1)
  else if b = 0xf0 then some (0x90, 0xbf, 2)
  else if 0xf1 ≤ b ∧ b ≤ 0xf3 then some (0x80, 0xbf, 2)
  else if b = 0xf4 then some (0x80, 0x8f, 2)
  else none

/-- How many of the bytes after `b` belong to the character or broken start that it opens. -/
def tailLength (b : UInt8) (rest : Bytes) : Nat :=
  match continuation b, rest with
  | some (lo, hi, n), c :: rest =>
    if lo ≤ c ∧ c ≤ hi then 1 + ((rest.take n).takeWhile fun d => 0x80 ≤ d && d ≤ 0xbf).length
    else 0
  | _, _ => 0

def decodeLossy (bs : Bytes) : Text := go bs []
where
  go (bs : Bytes) (done : Text) : Text :=
    match bs with
    | [] => done.reverse
    | b :: rest =>
      let n := tailLength b rest
      let c := match decode? (b :: rest.take n) with
        | some [c] => c
        | _ => '\ufffd'
      go (rest.drop n) (c :: done)
  termination_by bs.length
  decreasing_by simp only [List.length_drop, List.length_cons]; omega

end Patchwork.Text.Utf8
