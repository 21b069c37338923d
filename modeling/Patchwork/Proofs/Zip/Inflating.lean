import Mathlib
import Patchwork.Zip.Member

/-!
# Inflating what was deflated

A block that is kept as it is starts at a whole byte and is read back at once, with whatever was read before it in
front.  A new file is therefore read as it was written.
-/
namespace Patchwork

open LittleEndian (bytes)

namespace Inflate.Reader

variable {α β : Type} {a : α} {b b' : Bits} {m : Reader α}

theorem bind_eq (h : m b = .ok (a, b')) (f : α → Reader β) : (m >>= f) b = f a b' := by
  simp only [bind, StateT.bind, h, Except.bind]

/-- A bit in front of the last one of a byte. -/
theorem bit_eq {used : Nat} (hused : used < 7) (c : UInt8) (rest : Bytes) :
    bit ⟨used, c :: rest⟩ = .ok ((c.toNat >>> used) % 2, ⟨used + 1, c :: rest⟩) := by
  simp only [bit, if_pos hused]

theorem align_eq {used : Nat} (hused : used ≠ 0) (c : UInt8) (rest : Bytes) :
    align ⟨used, c :: rest⟩ = .ok ((), ⟨0, rest⟩) := by
  simp only [align, if_neg hused, List.drop_one, List.tail_cons]

theorem bytes_eq (taken rest : Bytes) : Reader.bytes taken.length ⟨0, taken ++ rest⟩ = .ok (taken, ⟨0, rest⟩) := by
  simp only [Reader.bytes, List.take_left, List.drop_left, Nat.lt_irrefl, if_false]

/-- A number of two bytes. -/
theorem number_eq {n : Nat} (rest : Bytes) :
    Reader.bytes 2 ⟨0, LittleEndian.bytes 2 n ++ rest⟩ = .ok (LittleEndian.bytes 2 n, ⟨0, rest⟩) := by
  have htaken := bytes_eq (LittleEndian.bytes 2 n) rest
  rwa [LittleEndian.length_bytes] at htaken

end Inflate.Reader

namespace Inflate

open Deflate (block blockLimit deflate)

variable {data : Bytes}

theorem length_block_pos (last : Bool) (data : Bytes) : 0 < (block last data).length := by simp [block]

theorem readStored_eq (hdata : data.length ≤ blockLimit) (out : Array UInt8) {used : Nat} (hused : used ≠ 0)
    (c : UInt8) (rest : Bytes) :
    readStored out ⟨used, c :: (bytes 2 data.length ++ (bytes 2 (0xffff - data.length) ++ (data ++ rest)))⟩ =
      .ok (out ++ data.toArray, ⟨0, rest⟩) := by
  have hlimit : blockLimit = 0xffff := rfl
  have hlength : LittleEndian.value (bytes 2 data.length) = data.length :=
    LittleEndian.value_bytes (by show _ < 0x10000; omega)
  have hcheck : LittleEndian.value (bytes 2 (0xffff - data.length)) = 0xffff - data.length :=
    LittleEndian.value_bytes (by show _ < 0x10000; omega)
  have hsum : data.length + (0xffff - data.length) = 0xffff := by omega
  unfold readStored
  rw [Reader.bind_eq (Reader.align_eq hused c _), Reader.bind_eq (Reader.number_eq _),
    Reader.bind_eq (Reader.number_eq _), hlength, hcheck, if_pos hsum, Reader.bind_eq (Reader.bytes_eq data rest)]
  rfl

/-- The block of a deflater is read at once. -/
theorem readBlocks_block (hdata : data.length ≤ blockLimit) (bitCount fuel : Nat) (last : Bool)
    (out : Array UInt8) (rest : Bytes) :
    readBlocks bitCount (fuel + 1) out ⟨0, block last data ++ rest⟩ =
      if last then .ok (out ++ data.toArray, ⟨0, rest⟩)
      else readBlocks bitCount fuel (out ++ data.toArray) ⟨0, rest⟩ := by
  generalize hc : (if last then 1 else 0 : UInt8) = c
  have hblock : block last data ++ rest =
      c :: (bytes 2 data.length ++ (bytes 2 (0xffff - data.length) ++ (data ++ rest))) := by
    rw [block, hc]
    simp only [List.cons_append, List.append_assoc]
  -- the first bit tells whether the block is the last one, and the other two that it is kept as it is
  have hlast : (c.toNat >>> 0) % 2 = if last then 1 else 0 := by subst hc; cases last <;> rfl
  have hkind : (c.toNat >>> 1) % 2 = 0 ∧ (c.toNat >>> 2) % 2 = 0 := by subst hc; cases last <;> exact ⟨rfl, rfl⟩
  have hbits (bs : Bytes) : Reader.bits 2 ⟨1, c :: bs⟩ = .ok (0, ⟨3, c :: bs⟩) := by
    have hnone : Reader.bits 0 ⟨3, c :: bs⟩ = .ok (0, ⟨3, c :: bs⟩) := rfl
    rw [Reader.bits, Reader.bind_eq (Reader.bit_eq (by decide) c bs), Reader.bits, bind_assoc,
      Reader.bind_eq (Reader.bit_eq (by decide) c bs), bind_assoc, Reader.bind_eq hnone, hkind.1, hkind.2]
    rfl
  rw [hblock, readBlocks, Reader.bind_eq (Reader.bit_eq (by decide) c _), Reader.bind_eq (hbits _), if_pos rfl,
    Reader.bind_eq (readStored_eq hdata out (by decide) c rest), hlast]
  cases last <;> rfl

theorem readBlocks_deflate (data : Bytes) (bitCount fuel : Nat) (out : Array UInt8)
    (hfuel : (deflate data).length ≤ fuel) :
    ∃ b, readBlocks bitCount fuel out ⟨0, deflate data⟩ = .ok (out ++ data.toArray, b) := by
  induction data using Deflate.deflate.induct generalizing fuel out with
  | case1 data hdata =>
    have hone : deflate data = block true data ++ [] := by rw [deflate, dif_pos hdata, List.append_nil]
    have hpos := length_block_pos true data
    rw [hone] at hfuel ⊢
    rw [List.length_append] at hfuel
    obtain ⟨n, rfl⟩ : ∃ n, fuel = n + 1 := Nat.exists_eq_succ_of_ne_zero (by omega)
    exact ⟨_, readBlocks_block hdata bitCount n true out []⟩
  | case2 data hdata ih =>
    have hmore : deflate data = block false (data.take blockLimit) ++ deflate (data.drop blockLimit) := by
      rw [deflate, dif_neg hdata]
    have htake : (data.take blockLimit).length ≤ blockLimit := List.length_take_le _ _
    have hpos := length_block_pos false (data.take blockLimit)
    rw [hmore] at hfuel ⊢
    rw [List.length_append] at hfuel
    obtain ⟨n, rfl⟩ : ∃ n, fuel = n + 1 := Nat.exists_eq_succ_of_ne_zero (by omega)
    obtain ⟨b, hb⟩ := ih n (out ++ (data.take blockLimit).toArray) (by omega)
    have hparts : (data.take blockLimit).toArray ++ (data.drop blockLimit).toArray = data.toArray := by simp
    refine ⟨b, ?_⟩
    rw [readBlocks_block htake, if_neg Bool.false_ne_true, hb, Array.append_assoc, hparts]

/-- Inflating gives back what was deflated. -/
theorem inflate_deflate (data : Bytes) : inflate (deflate data) = .ok data := by
  obtain ⟨b, hb⟩ := readBlocks_deflate data (8 * (deflate data).length + 1) (8 * (deflate data).length + 1) #[]
    (by omega)
  simp [inflate, StateT.run, hb, Except.map]

end Inflate

/-- A new file has the content that it was made of. -/
theorem Zip.Member.content_file (name : Text) (data : Bytes) : (Zip.Member.file name data).content = .ok data := by
  have hmethod : methodDeflated ≠ methodStored := by decide
  unfold Zip.Member.content Zip.Member.file
  simp [hmethod, Inflate.inflate_deflate]
  rfl

end Patchwork
