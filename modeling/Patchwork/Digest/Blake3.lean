import Patchwork.Text.LittleEndian

/-!
# BLAKE3

The digest of some content: chunks of 1024 bytes are the leaves of a binary tree, each node is
compressed to eight words, and the words of the root are the 32 bytes of the digest.
-/
namespace Patchwork.Blake3

abbrev Words (n : Nat) := Vector UInt32 n

def iv : Words 8 :=
  #v[0x6a09e667, 0xbb67ae85, 0x3c6ef372, 0xa54ff53a, 0x510e527f, 0x9b05688c, 0x1f83d9ab, 0x5be0cd19]

/-- Where each word of a message comes from in the next round. -/
def permutation : Vector (Fin 16) 16 := #v[2, 6, 3, 10, 7, 0, 4, 13, 1, 11, 12, 5, 9, 14, 15, 8]

def rotateRight (w : UInt32) (n : UInt32) : UInt32 := (w >>> n) ||| (w <<< (32 - n))

/-- Mixes two words of a message into four words of the state. -/
def mix (v : Words 16) (a b c d : Fin 16) (x y : UInt32) : Words 16 :=
  let va := v[a] + v[b] + x
  let vd := rotateRight (v[d] ^^^ va) 16
  let vc := v[c] + vd
  let vb := rotateRight (v[b] ^^^ vc) 12
  let va := va + vb + y
  let vd := rotateRight (vd ^^^ va) 8
  let vc := vc + vd
  let vb := rotateRight (vb ^^^ vc) 7
  (((v.set a va).set b vb).set c vc).set d vd

def round (v m : Words 16) : Words 16 :=
  let v := mix v 0 4 8 12 m[0] m[1]
  let v := mix v 1 5 9 13 m[2] m[3]
  let v := mix v 2 6 10 14 m[4] m[5]
  let v := mix v 3 7 11 15 m[6] m[7]
  let v := mix v 0 5 10 15 m[8] m[9]
  let v := mix v 1 6 11 12 m[10] m[11]
  let v := mix v 2 7 8 13 m[12] m[13]
  mix v 3 4 9 14 m[14] m[15]

def rounds : Nat → Words 16 → Words 16 → Words 16
  | 0, v, _ => v
  | n + 1, v, m => rounds n (round v m) (permutation.map fun i => m[i])

/-- The roles of a block, as bits. -/
def chunkStart : UInt32 := 1
def chunkEnd : UInt32 := 2
def parentNode : UInt32 := 4
def rootNode : UInt32 := 8

/-- A last block with all that its compression depends on. -/
structure Node where
  chaining : Words 8
  block : Words 16
  counter : UInt64
  length : UInt32
  flags : UInt32

/-- The first eight words of the compressed block. -/
def Node.compress (n : Node) : Words 8 :=
  let h := n.chaining
  let v : Words 16 := #v[h[0], h[1], h[2], h[3], h[4], h[5], h[6], h[7], iv[0], iv[1], iv[2], iv[3],
    n.counter.toUInt32, (n.counter >>> 32).toUInt32, n.length, n.flags]
  let w := rounds 7 v n.block
  Vector.ofFn fun i : Fin 8 => w[i.val] ^^^ w[i.val + 8]

/-- The words of at most 64 bytes, with zeros behind them. -/
def blockWords (bs : Bytes) : Words 16 :=
  let padded := (bs ++ List.replicate (64 - bs.length) 0).toArray
  Vector.ofFn fun i : Fin 16 => UInt32.ofNat (LittleEndian.value
    [padded.getD (4 * i) 0, padded.getD (4 * i + 1) 0, padded.getD (4 * i + 2) 0,
      padded.getD (4 * i + 3) 0])

/-- The last block of a chunk, chained to the blocks before it. -/
def chunkNode (index : Nat) (chaining : Words 8) (flags : UInt32) (bs : Bytes) : Node :=
  let node : Node :=
    ⟨chaining, blockWords (bs.take 64), UInt64.ofNat index, UInt32.ofNat (bs.take 64).length, flags⟩
  if _h : bs.length ≤ 64 then { node with flags := flags ||| chunkEnd }
  else chunkNode index node.compress 0 (bs.drop 64)
termination_by bs.length
decreasing_by simp only [List.length_drop]; omega

/-- Content in pieces of `n` bytes, of which only the last may be shorter. -/
def pieces (n : Nat) (bs : Bytes) : List Bytes :=
  if _h : n = 0 ∨ bs.drop n = [] then [bs] else bs.take n :: pieces n (bs.drop n)
termination_by bs.length
decreasing_by
  rw [List.drop_eq_nil_iff] at _h
  simp only [List.length_drop]
  omega

/-- The number of chunks on the left of a node: the greatest power of two below their number. -/
def leftCount (n : Nat) : Nat := 1 <<< (n - 1).log2

theorem leftCount_lt {n : Nat} (h : 1 < n) : leftCount n < n := by
  have := Nat.log2_self_le (n := n - 1) (by omega)
  rw [leftCount, Nat.one_shiftLeft]
  omega

/-- The node over some chunks, the first of which has the number `index`. -/
def tree (index : Nat) (chunks : List Bytes) : Node :=
  if _h : 1 < chunks.length then
    let k := leftCount chunks.length
    let left := (tree index (chunks.take k)).compress
    let right := (tree (index + k) (chunks.drop k)).compress
    ⟨iv, left ++ right, 0, 64, parentNode⟩
  else chunkNode index iv chunkStart (chunks.headD [])
termination_by chunks.length
decreasing_by
  · simp only [List.length_take]
    have := leftCount_lt _h
    omega
  · simp only [List.length_drop]
    have : 0 < leftCount chunks.length := by
      rw [leftCount, Nat.one_shiftLeft]
      exact Nat.two_pow_pos _
    omega

def digest (content : Bytes) : Bytes :=
  let root := tree 0 (pieces 1024 content)
  let words := { root with flags := root.flags ||| rootNode }.compress
  words.toList.flatMap fun w => LittleEndian.bytes 4 w.toNat

end Patchwork.Blake3
