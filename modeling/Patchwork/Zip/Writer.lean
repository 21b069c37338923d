import Patchwork.Text.LittleEndian
import Patchwork.Text.Utf8
import Patchwork.Zip.Member

/-!
# Writing zip archives

Each member is a local header and what is stored; behind them stand the directory and the end record.
-/
namespace Patchwork.Zip

/-- Numbers with their widths in bytes, one after the other. -/
def fields (fs : List (Nat × Nat)) : Bytes := fs.flatMap fun f => LittleEndian.bytes f.1 f.2

def localSignature : Nat := 0x04034b50
def directorySignature : Nat := 0x02014b50
def endSignature : Nat := 0x06054b50
def wideEndSignature : Nat := 0x06064b50
def wideLocatorSignature : Nat := 0x07064b50

/-- The greatest number in four bytes; it stands for a number that is kept elsewhere. -/
def saturated : Nat := 0xffffffff

/-- The flag of names in UTF-8. -/
def utf8Flag : Nat := 0x800

namespace Member

def flags (m : Member) : Nat := if m.name.all (·.toNat < 128) then 0 else utf8Flag

/-- The numbers that a local header and a directory entry share, from the version needed on. -/
def shared (m : Member) : List (Nat × Nat) :=
  [(2, 20), (2, m.flags), (2, m.method), (2, m.stamp.time), (2, m.stamp.date), (4, m.crc),
    (4, min m.packedSize saturated), (4, min m.size saturated),
    (2, (Text.Utf8.encode m.name).length)]

/-- Sizes that do not fit into four bytes. -/
def wideSizes (m : Member) : Bytes :=
  let sizes := [m.size, m.packedSize].filter (saturated < ·)
  if sizes = [] then []
  else fields ([(2, 1), (2, 8 * sizes.length)] ++ sizes.map ((8, ·)))

def localRecord (m : Member) : Bytes :=
  fields ((4, localSignature) :: m.shared ++ [(2, m.wideSizes.length)]) ++
    Text.Utf8.encode m.name ++ m.wideSizes ++ m.stored

/-- The directory entry of a member whose local header stands at `offset`. -/
def directoryRecord (offset : Nat) (m : Member) : Bytes :=
  fields ([(4, directorySignature), (2, m.system * 256 + 46)] ++ m.shared ++
      [(2, m.wideSizes.length), (2, 0), (2, 0), (2, 0), (4, m.attributes), (4, offset)]) ++
    Text.Utf8.encode m.name ++ m.wideSizes

end Member

/-- The directory of members whose local headers follow one another from `offset` on. -/
def directory (offset : Nat) : List Member → Bytes
  | [] => []
  | m :: ms => m.directoryRecord offset ++ directory (offset + m.localRecord.length) ms

def endRecord (count size offset : Nat) : Bytes :=
  fields [(4, endSignature), (2, 0), (2, 0), (2, count), (2, count), (4, size), (4, offset), (2, 0)]

def write (ms : List Member) : Bytes :=
  let records := ms.flatMap Member.localRecord
  let dir := directory 0 ms
  records ++ dir ++ endRecord ms.length dir.length records.length

/-- The archive without members. -/
def emptyArchive : Bytes := endRecord 0 0 0

theorem write_nil : write [] = emptyArchive := rfl

end Patchwork.Zip
