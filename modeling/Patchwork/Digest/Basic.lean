import Patchwork.Digest.Blake3

/-!
# Content digests
-/
namespace Patchwork

/-- The 32 bytes that stand for some content. -/
structure Digest where
  bytes : Bytes
  length_eq : bytes.length = 32
  deriving DecidableEq

namespace Blake3

theorem length_digest (content : Bytes) : (digest content).length = 32 := by
  simp only [digest, List.length_flatMap, LittleEndian.length_bytes, List.map_const',
    List.sum_replicate_nat, Vector.length_toList]

end Blake3

namespace Digest

def ofContent (content : Bytes) : Digest := ⟨Blake3.digest content, Blake3.length_digest content⟩

/-- Anything but 32 bytes is no digest. -/
def ofBytes? (bytes : Bytes) : Option Digest :=
  if h : bytes.length = 32 then some ⟨bytes, h⟩ else none

theorem ofBytes?_bytes (d : Digest) : ofBytes? d.bytes = some d := by simp [ofBytes?, d.length_eq]

/-- Two hexadecimal digits for each byte. -/
def hex (bs : Bytes) : Text :=
  bs.flatMap fun b => [Nat.digitChar (b.toNat / 16), Nat.digitChar (b.toNat % 16)]

end Digest

end Patchwork
