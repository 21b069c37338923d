import Patchwork.Text.LittleEndian

/-!
# Deflating

Data is kept as it is, in blocks of at most 65535 bytes.
-/
namespace Patchwork.Deflate

def blockLimit : Nat := 65535

def block (last : Bool) (data : Bytes) : Bytes :=
  (if last then 1 else 0) :: LittleEndian.bytes 2 data.length ++
    LittleEndian.bytes 2 (0xffff - data.length) ++ data

def deflate (data : Bytes) : Bytes :=
  if _h : data.length ≤ blockLimit then block true data
  else block false (data.take blockLimit) ++ deflate (data.drop blockLimit)
termination_by data.length
decreasing_by simp only [List.length_drop, blockLimit] at *; omega

end Patchwork.Deflate
