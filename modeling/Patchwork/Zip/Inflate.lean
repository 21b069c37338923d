import Patchwork.Text.LittleEndian

/-!
# Inflating

The decoder for DEFLATE.  Codes are canonical and read bit by bit.  A reference to before the start
finds zeros, as in a window that starts empty.
-/
namespace Patchwork.Inflate

/-- Why data cannot be inflated. -/
inductive Flaw
  | corrupt
  | incomplete
  deriving DecidableEq, Repr

/-- Bytes of which the lowest bits of the first may have been read. -/
structure Bits where
  used : Nat
  bytes : Bytes

/-- A reader of bits. -/
abbrev Reader (α : Type) := StateT Bits (Except Flaw) α

namespace Reader

def bit : Reader Nat := fun b =>
  match b.bytes with
  | [] => .error .incomplete
  | c :: rest =>
    let value := (c.toNat >>> b.used) % 2
    .ok (value, if b.used < 7 then ⟨b.used + 1, c :: rest⟩ else ⟨0, rest⟩)

/-- A number of `n` bits, the lowest first. -/
def bits : Nat → Reader Nat
  | 0 => pure 0
  | n + 1 => do
    let low ← bit
    let high ← bits n
    pure (low + 2 * high)

/-- Skips to the next whole byte. -/
def align : Reader Unit := fun b =>
  .ok ((), if b.used = 0 then b else ⟨0, b.bytes.drop 1⟩)

/-- The next `n` bytes; the reader has to be aligned. -/
def bytes (n : Nat) : Reader Bytes := fun b =>
  let taken := b.bytes.take n
  if taken.length < n then .error .incomplete else .ok (taken, ⟨b.used, b.bytes.drop n⟩)

def fail {α : Type} (f : Flaw) : Reader α := fun _ => .error f

end Reader

/-- A canonical code: how many symbols have a code of each length, from one bit to the longest, and
the symbols in the order of their codes. -/
structure Code where
  counts : List Nat
  symbols : Array Nat

namespace Code

/-- The code in which symbol `i` has as many bits as entry `i` says; none means that it is unused.
A code without symbols still takes a bit to read. -/
def ofLengths (lengths : List Nat) : Code :=
  let longest := max 1 (lengths.foldl max 0)
  let indexed := lengths.zipIdx
  let order := (List.range longest).flatMap fun l =>
    (indexed.filter (·.1 = l + 1)).map (·.2)
  ⟨(List.range longest).map fun l => lengths.count (l + 1), order.toArray⟩

/-- Twice the share of the code space that is taken, in units of the longest code. -/
def space (c : Code) : Nat := c.counts.foldl (fun total n => (total + n) * 2) 0

def isComplete (c : Code) : Bool := c.space = 1 <<< (c.counts.length + 1)

/-- A code may leave space untaken only if it has no symbol, or one of a single bit. -/
def isUsable (c : Code) : Bool := c.isComplete || c.symbols.isEmpty || c.counts = [1]

/-- Reads on in a code: `value` is what the bits so far stand for, `first` the first code of their
length, and `index` the place of its symbol. -/
def readFrom (symbols : Array Nat) (value first index : Nat) : List Nat → Reader Nat
  | [] => Reader.fail .corrupt
  | count :: counts => do
    let value := value + (← Reader.bit)
    if value < first + count then
      match symbols[index + (value - first)]? with
      | some s => pure s
      | none => Reader.fail .corrupt
    else readFrom symbols (2 * value) (2 * (first + count)) (index + count) counts

def read (c : Code) : Reader Nat := readFrom c.symbols 0 0 0 c.counts

end Code

/-- Base values and counts of extra bits of the symbols for lengths, from 257 on. -/
def lengthBases : Array (Nat × Nat) := #[(3, 0), (4, 0), (5, 0), (6, 0), (7, 0), (8, 0), (9, 0),
  (10, 0), (11, 1), (13, 1), (15, 1), (17, 1), (19, 2), (23, 2), (27, 2), (31, 2), (35, 3), (43, 3),
  (51, 3), (59, 3), (67, 4), (83, 4), (99, 4), (115, 4), (131, 5), (163, 5), (195, 5), (227, 5),
  (258, 0)]

/-- The same for distances, from 0 on. -/
def distanceBases : Array (Nat × Nat) := #[(1, 0), (2, 0), (3, 0), (4, 0), (5, 1), (7, 1), (9, 2),
  (13, 2), (17, 3), (25, 3), (33, 4), (49, 4), (65, 5), (97, 5), (129, 6), (193, 6), (257, 7),
  (385, 7), (513, 8), (769, 8), (1025, 9), (1537, 9), (2049, 10), (3073, 10), (4097, 11),
  (6145, 11), (8193, 12), (12289, 12), (16385, 13), (24577, 13)]

/-- The value of a symbol with its extra bits. -/
def extended (bases : Array (Nat × Nat)) (symbol : Nat) : Reader Nat :=
  match bases[symbol]? with
  | some (base, extra) => do pure (base + (← Reader.bits extra))
  | none => Reader.fail .corrupt

/-- Repeats `length` bytes from `distance` bytes back. -/
def copyBack (out : Array UInt8) (distance : Nat) : Nat → Array UInt8
  | 0 => out
  | length + 1 =>
    let b := if distance ≤ out.size then out.getD (out.size - distance) 0 else 0
    copyBack (out.push b) distance length

/-- Reads symbols up to the end of a block; every symbol takes a bit at least, so that `fuel` bits
are enough. -/
def readSymbols (literals distances : Code) : Nat → Array UInt8 → Reader (Array UInt8)
  | 0, _ => Reader.fail .incomplete
  | fuel + 1, out => do
    let symbol ← literals.read
    if symbol < 256 then readSymbols literals distances fuel (out.push (UInt8.ofNat symbol))
    else if symbol = 256 then pure out
    else do
      let length ← extended lengthBases (symbol - 257)
      let distance ← extended distanceBases (← distances.read)
      readSymbols literals distances fuel (copyBack out distance length)

def fixedLiterals : Code := .ofLengths
  (List.replicate 144 8 ++ List.replicate 112 9 ++ List.replicate 24 7 ++ List.replicate 8 8)

def fixedDistances : Code := .ofLengths (List.replicate 32 5)

/-- The order in which the lengths of the codes for code lengths are given. -/
def lengthOrder : List Nat := [16, 17, 18, 0, 8, 7, 9, 6, 10, 5, 11, 4, 12, 3, 13, 2, 14, 1, 15]

/-- Reads code lengths until there are `total`; `read` holds those so far, last one first. -/
def readLengths (code : Code) (total : Nat) : Nat → List Nat → Reader (List Nat)
  | 0, read => if read.length = total then pure read.reverse else Reader.fail .corrupt
  | fuel + 1, read => do
    if total ≤ read.length then
      if read.length = total then pure read.reverse else Reader.fail .corrupt
    else
      let symbol ← code.read
      if symbol < 16 then readLengths code total fuel (symbol :: read)
      else if symbol = 16 then
        match read with
        | [] => Reader.fail .corrupt
        | last :: _ => do
          let count := 3 + (← Reader.bits 2)
          readLengths code total fuel (List.replicate count last ++ read)
      else
        let count ← if symbol = 17 then do pure (3 + (← Reader.bits 3))
          else do pure (11 + (← Reader.bits 7))
        readLengths code total fuel (List.replicate count 0 ++ read)

/-- Reads the codes of a block that brings its own. -/
def readCodes : Reader (Code × Code) := do
  let literalCount := 257 + (← Reader.bits 5)
  let distanceCount := 1 + (← Reader.bits 5)
  let lengthCount := 4 + (← Reader.bits 4)
  if 286 < literalCount ∨ 30 < distanceCount then Reader.fail .corrupt
  else
    let given ← (lengthOrder.take lengthCount).mapM fun symbol => do
      pure (symbol, ← Reader.bits 3)
    let lengths := (List.range 19).map fun symbol => (given.lookup symbol).getD 0
    let code := Code.ofLengths lengths
    if !code.isComplete then Reader.fail .corrupt
    else
      let total := literalCount + distanceCount
      let all ← readLengths code total total []
      let literals := Code.ofLengths (all.take literalCount)
      let distances := Code.ofLengths (all.drop literalCount)
      if literals.isUsable && distances.isUsable then pure (literals, distances)
      else Reader.fail .corrupt

/-- Reads a block that is kept as it is. -/
def readStored (out : Array UInt8) : Reader (Array UInt8) := do
  Reader.align
  let length := LittleEndian.value (← Reader.bytes 2)
  let check := LittleEndian.value (← Reader.bytes 2)
  if length + check = 0xffff then pure (out ++ (← Reader.bytes length).toArray)
  else Reader.fail .corrupt

/-- Reads blocks up to the last one; every block takes a bit at least. -/
def readBlocks (bitCount : Nat) : Nat → Array UInt8 → Reader (Array UInt8)
  | 0, _ => Reader.fail .incomplete
  | fuel + 1, out => do
    let last ← Reader.bit
    let kind ← Reader.bits 2
    let out ←
      if kind = 0 then readStored out
      else if kind = 1 then readSymbols fixedLiterals fixedDistances bitCount out
      else if kind = 2 then do
        let (literals, distances) ← readCodes
        readSymbols literals distances bitCount out
      else Reader.fail .corrupt
    if last = 1 then pure out else readBlocks bitCount fuel out

/-- The inflated data; bytes behind the last block are ignored. -/
def inflate (data : Bytes) : Except Flaw Bytes :=
  let bitCount := 8 * data.length + 1
  ((readBlocks bitCount bitCount #[]).run ⟨0, data⟩).map fun r => r.1.toList

end Patchwork.Inflate
