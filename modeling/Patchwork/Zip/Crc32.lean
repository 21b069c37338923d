import Patchwork.Text.Basic

/-!
# CRC-32

The checksum of zip archives: the remainder by the reflected polynomial `0xedb88320`.
-/
namespace Patchwork.Crc32

/-- One bit of the division. -/
def shift (r : UInt32) : UInt32 := if r &&& 1 = 1 then (r >>> 1) ^^^ 0xedb88320 else r >>> 1

def shifts : Nat → UInt32 → UInt32
  | 0, r => r
  | n + 1, r => shifts n (shift r)

/-- What one byte does to a register of zeros. -/
def table : Vector UInt32 256 := Vector.ofFn fun i => shifts 8 (UInt32.ofNat i.val)

def add (r : UInt32) (b : UInt8) : UInt32 :=
  table.get (Fin.ofNat 256 (r ^^^ b.toUInt32).toNat) ^^^ (r >>> 8)

def checksum (bs : Bytes) : UInt32 := bs.foldl add 0xffffffff ^^^ 0xffffffff

end Patchwork.Crc32
