import Patchwork.Fault
import Patchwork.Zip.Crc32
import Patchwork.Zip.Deflate
import Patchwork.Zip.Inflate

/-!
# Members of a zip archive

The directory of an archive has a header for each member; a member is the header with the bytes that
are stored for it.
-/
namespace Patchwork.Zip

/-- Why an archive or a member cannot be read. -/
inductive Failure
  | flaw (flaw : ArchiveFlaw)
  | io (cause : IoError)
  deriving DecidableEq, Repr

/-- A failure as a fault of the archive at a path. -/
def Failure.fault (path : Text) : Failure → Fault
  | flaw f => .malformedArchive path f
  | io e => .io e

def methodStored : Nat := 0
def methodDeflated : Nat := 8
def methodAes : Nat := 99

/-- Systems whose attributes are understood, by their numbers. -/
def systemDos : Nat := 0
def systemUnix : Nat := 3

/-- Date and time as MS-DOS packs them. -/
structure Stamp where
  date : Nat
  time : Nat
  deriving DecidableEq, Repr

namespace Stamp

/-- The first day that can be told. -/
def epoch : Stamp := ⟨0x21, 0⟩

/-- Year, month, day, hour, minute and second. -/
def fields (s : Stamp) : List Nat :=
  [s.date / 512 + 1980, s.date / 32 % 16, s.date % 32, s.time / 2048, s.time / 32 % 64,
    s.time % 32 * 2]

end Stamp

structure Header where
  name : Text
  method : Nat
  crc : Nat
  /-- The declared length of the content. -/
  size : Nat
  /-- The declared length of what is stored. -/
  packedSize : Nat
  stamp : Stamp
  /-- The system that the attributes belong to. -/
  system : Nat
  attributes : Nat
  encrypted : Bool
  deriving DecidableEq, Repr

namespace Header

def isDir (m : Header) : Bool := m.name.getLast? = some '/' || m.name.getLast? = some '\\'

/-- Permissions and kind of the file, if the attributes tell them. -/
def mode? (m : Header) : Option Nat :=
  if m.attributes = 0 then none
  else if m.system = systemUnix then some (m.attributes >>> 16)
  else if m.system = systemDos then
    let mode := if m.attributes.testBit 4 then 0o40775 else 0o100664
    some (if m.attributes.testBit 0 then mode &&& 0o555 else mode)
  else none

end Header

structure Member extends Header where
  stored : Bytes
  deriving DecidableEq, Repr

namespace Member

/-- The content, checked against the checksum. -/
def content (m : Member) : Except Failure Bytes := do
  if m.encrypted then throw (.flaw .passwordRequired)
  let data ←
    if m.method = methodStored then pure m.stored
    else if m.method = methodDeflated then
      match Inflate.inflate m.stored with
      | .ok data => pure data
      | .error .corrupt => throw (.io .corruptDeflate)
      | .error .incomplete => throw (.io .incompleteDeflate)
    else throw (.flaw .unknownMethod)
  if (Crc32.checksum data).toNat = m.crc then pure data else throw (.io .wrongChecksum)

def ofMode (mode : Nat) : Nat := mode <<< 16

/-- A new file, deflated. -/
def file (name : Text) (data : Bytes) : Member :=
  let stored := Deflate.deflate data
  { name, stored, method := methodDeflated, crc := (Crc32.checksum data).toNat, size := data.length
    packedSize := stored.length, stamp := .epoch, system := systemUnix
    attributes := ofMode 0o100644, encrypted := false }

/-- A new directory; the name ends with a slash. -/
def directory (name : Text) : Member :=
  { name, stored := [], method := methodStored, crc := 0, size := 0, packedSize := 0
    stamp := .epoch, system := systemUnix, attributes := ofMode 0o40755, encrypted := false }

/-- The member as it is copied without touching what is stored: permissions stay, everything else
that the attributes and flags tell is left out. -/
def copied (m : Member) : Member :=
  { m with
    system := systemUnix
    attributes := ofMode ((m.mode?.map (· &&& 0o777)).getD 0o100644)
    encrypted := false }

end Member

end Patchwork.Zip
