import Patchwork.Text.CodePage
import Patchwork.Zip.Writer

/-!
# Reading zip archives

The end record is searched from the end of the data and leads to the directory; each entry of the
directory leads to a local header, behind which the data of the member is stored.  Data in front of
the archive shifts all offsets.
-/
namespace Patchwork.Zip

/-- An entry of an archive's directory: a header, and the position of the local header behind which
the data is stored. -/
structure Listed extends Header where
  position : Nat
  deriving DecidableEq, Repr

/-- What an archive says about itself. -/
structure Directory where
  comment : Bytes
  entries : List Listed

/-- What an archive holds. -/
structure Archive where
  comment : Bytes
  members : List Member
  deriving DecidableEq, Repr

abbrev Result (α : Type) := Except Failure α

namespace Result

def shortRead {α : Type} : Result α := .error (.io .shortRead)

def flawed {α : Type} (f : ArchiveFlaw) : Result α := .error (.flaw f)

end Result

/-- The number in the `width` bytes from `offset` on. -/
def number (bs : Bytes) (offset width : Nat) : Nat :=
  LittleEndian.value ((bs.drop offset).take width)

/-- The first `n` bytes and the rest, if there are so many. -/
def split (n : Nat) (bs : Bytes) : Result (Bytes × Bytes) :=
  let taken := bs.take n
  if taken.length < n then Result.shortRead else .ok (taken, bs.drop n)

/-- The last position, of those before the last 21 bytes, at which the signature of an end record
stands; `best` is one that was found before. -/
def lastEnd (remaining position : Nat) (best : Option Nat) (bs : Bytes) : Option Nat :=
  match remaining, bs with
  | remaining + 1, b :: bs =>
    let here := b = 0x50 ∧ bs.take 3 = [0x4b, 5, 6]
    lastEnd remaining (position + 1) (if here then some position else best) bs
  | _, _ => best

structure EndRecord where
  disk : Nat
  directoryDisk : Nat
  countHere : Nat
  count : Nat
  size : Nat
  offset : Nat
  comment : Bytes

namespace EndRecord

def length : Nat := 22

/-- How far from the end the record is looked for, beyond its own length. -/
def searchLimit : Nat := 65535

/-- Whether a number did not fit, so that a wider record holds the numbers. -/
def isSaturated (r : EndRecord) : Bool :=
  r.disk = 0xffff || r.directoryDisk = 0xffff || r.countHere = 0xffff || r.count = 0xffff ||
    r.size = saturated || r.offset = saturated

def read (bs : Bytes) : Result EndRecord := do
  let (h, rest) ← split length bs
  let (comment, _) ← split (number h 20 2) rest
  pure ⟨number h 4 2, number h 6 2, number h 8 2, number h 10 2, number h 12 4, number h 16 4,
    comment⟩

/-- The end record and its position. -/
def find (bs : Bytes) : Result (EndRecord × Nat) :=
  let total := bs.length
  if total < length then Result.flawed .tooShort
  else
    let first := total - (length + searchLimit)
    match lastEnd (total - length + 1 - first) first none (bs.drop first) with
    | none => Result.flawed .noEndRecord
    | some position => (read (bs.drop position)).map fun r => (r, position)

end EndRecord

/-- Where the directory is. -/
structure Place where
  /-- How far all offsets are shifted. -/
  shift : Nat
  start : Nat
  count : Nat

/-- The position of the wider end record, from its nominal position on. -/
def findWide (bs : Bytes) (nominal bound : Nat) : Option Nat :=
  go (bound + 1 - nominal) nominal (bs.drop nominal)
where
  go (remaining position : Nat) (bs : Bytes) : Option Nat :=
    match remaining, bs with
    | remaining + 1, b :: bs =>
      if b = 0x50 ∧ bs.take 3 = [0x4b, 6, 6] then some position
      else go remaining (position + 1) bs
    | _, _ => none

/-- The directory's place by the end record alone. -/
def narrowPlace (r : EndRecord) (position : Nat) : Result Place :=
  if position < r.size + r.offset then Result.flawed .directoryMisplaced
  else .ok ⟨position - r.size - r.offset, position - r.size, r.countHere⟩

/-- The directory's place by the wider record that a locator leads to. -/
def widePlace (bs locator : Bytes) (r : EndRecord) (position : Nat) : Result Place :=
  if !r.isSaturated ∧ r.disk ≠ number locator 4 4 then Result.flawed .severalDisks
  else if position < 60 then Result.flawed .noRoomForWideEndRecord
  else
    let nominal := number locator 8 8
    match findWide bs nominal (position - 60) with
    | none => Result.flawed .noWideEndRecord
    | some found =>
      let w := (bs.drop found).take 56
      let shift := found - nominal
      let start := number w 48 8 + shift
      if number w 16 4 ≠ number w 20 4 then Result.flawed .severalDisks
      else if UInt64.size ≤ start then Result.flawed .directoryMisplaced
      else .ok ⟨shift, start, number w 32 8⟩

def locatorLength : Nat := 20

def findPlace (bs : Bytes) (r : EndRecord) (position : Nat) : Result Place :=
  let back := locatorLength + EndRecord.length + r.comment.length
  let total := bs.length
  if total < back then narrowPlace r position
  else
    let locator := (bs.drop (total - back)).take locatorLength
    if number locator 0 4 = wideLocatorSignature then widePlace bs locator r position
    else narrowPlace r position

/-- What the extra fields of a directory entry may change. -/
structure Extra where
  size : Nat
  packedSize : Nat
  offset : Nat
  method : Nat
  aes : Bool

namespace Extra

/-- Takes a wide number for one that is saturated, as far as there are bytes.  Answers how many bytes
were taken, and whether there were enough. -/
def widen (current : Nat) (bs : Bytes) : Nat × Nat × Bool :=
  if current ≠ saturated then (current, 0, true)
  else
    let taken := bs.take 8
    if taken.length < 8 then (current, 0, false) else (LittleEndian.value taken, 8, true)

/-- Reads a field of wide numbers.  Answers how many bytes were taken, unless there were too few. -/
def wide (x : Extra) (bs : Bytes) : Extra × Option Nat :=
  match widen x.size bs with
  | (_, _, false) => (x, none)
  | (size, a, true) =>
    let x := { x with size }
    match widen x.packedSize (bs.drop a) with
    | (_, _, false) => (x, none)
    | (packedSize, b, true) =>
      let x := { x with packedSize }
      match widen x.offset (bs.drop (a + b)) with
      | (_, _, false) => (x, none)
      | (offset, c, true) => ({ x with offset }, some (a + b + c))

/-- Reads a field of AES encryption, all of whose bytes are there. -/
def encryption (x : Extra) (field : Bytes) : Result Extra :=
  if number field 2 2 ≠ 0x4541 then Result.flawed .aesVendor
  else if number field 0 2 ≠ 1 ∧ number field 0 2 ≠ 2 then Result.flawed .aesVersion
  else if number field 4 1 < 1 ∨ 3 < number field 4 1 then Result.flawed .aesStrength
  else .ok { x with method := number field 5 2, aes := true }

/-- Reads fields until too few bytes are left. -/
def read (x : Extra) (bs : Bytes) : Result Extra :=
  if _h : bs.length < 4 then .ok x
  else
    let len := number bs 2 2
    let rest := bs.drop 4
    if number bs 0 2 = 1 then
      match x.wide rest with
      | (x, some taken) => read x (rest.drop (max taken len))
      | (x, none) => .ok x
    else if number bs 0 2 = 0x9901 then
      if len ≠ 7 then Result.flawed .aesLength
      else if (rest.take 7).length < 7 then .ok x
      else match x.encryption (rest.take 7) with
        | .ok x => read x (rest.drop (7 + len))
        | .error e => .error e
    else read x (rest.drop len)
termination_by bs.length
decreasing_by all_goals simp only [List.length_drop]; omega

end Extra

/-- The entry at the start of a directory, and what is behind it. -/
def readEntry (shift : Nat) (bs : Bytes) : Result (Listed × Bytes) := do
  let (sig, _) ← split 4 bs
  if number sig 0 4 ≠ directorySignature then Result.flawed .notDirectoryHeader
  let (h, rest) ← split 46 bs
  let (name, rest) ← split (number h 28 2) rest
  let (extra, rest) ← split (number h 30 2) rest
  let (_, rest) ← split (number h 32 2) rest
  let flags := number h 8 2
  let x ← Extra.read ⟨number h 24 4, number h 20 4, number h 42 4, number h 10 2, false⟩ extra
  if x.method = methodAes ∧ !x.aes then Result.flawed .aesMissing
  let position := x.offset + shift
  if UInt64.size ≤ position then Result.flawed .headerTooFar
  let entry : Listed :=
    { name := if flags.testBit 11 then Text.Utf8.decodeLossy name else Text.CodePage.decode name
      method := x.method
      crc := number h 16 4
      size := x.size
      packedSize := x.packedSize
      stamp := ⟨number h 14 2, number h 12 2⟩
      system := number h 5 1
      attributes := number h 38 4
      encrypted := flags.testBit 0
      position }
  pure (entry, rest)

def readEntries (shift : Nat) : Nat → Bytes → Result (List Listed)
  | 0, _ => .ok []
  | count + 1, bs => do
    let (entry, rest) ← readEntry shift bs
    let entries ← readEntries shift count rest
    pure (entry :: entries)

/-- The directory of an archive. -/
def Directory.read (bs : Bytes) : Result Directory := do
  let (r, position) ← EndRecord.find bs
  if !r.isSaturated ∧ r.disk ≠ r.directoryDisk then Result.flawed .severalDisks
  let place ← findPlace bs r position
  if 1 <<< 63 ≤ place.start then Result.flawed .directoryTooFar
  let entries ← readEntries place.shift place.count (bs.drop place.start)
  pure ⟨r.comment, entries⟩

namespace Listed

/-- The member with the bytes that are stored behind its local header, as far as they are there. -/
def member (bs : Bytes) (entry : Listed) : Result Member :=
  if 1 <<< 63 ≤ entry.position then .error (.io (.os .invalidArgument))
  else do
    let bs := bs.drop entry.position
    let (sig, _) ← split 4 bs
    if number sig 0 4 ≠ localSignature then Result.flawed .notLocalHeader
    let (h, rest) ← split 30 bs
    pure { entry.toHeader with
      stored := (rest.drop (number h 26 2 + number h 28 2)).take entry.packedSize }

/-- The content of an entry; what is encrypted is not looked for. -/
def content (bs : Bytes) (entry : Listed) : Result Bytes :=
  if entry.encrypted then Result.flawed .passwordRequired
  else do (← entry.member bs).content

end Listed

def read (bs : Bytes) : Result Archive := do
  let d ← Directory.read bs
  let members ← d.entries.mapM (·.member bs)
  pure ⟨d.comment, members⟩

/-- The entries of an archive, each of which leads to a member. -/
def index (bs : Bytes) : Result (List Listed) := do
  let d ← Directory.read bs
  let _ ← d.entries.mapM (·.member bs)
  pure d.entries

end Patchwork.Zip
