import Patchwork.Digest.Basic
import Patchwork.Volume.Disk

/-!
# The checksum gate

A record holds the digest of some content as it was last seen.  The gate says whether the content is
the same still, and brings the record up to date.
-/
namespace Patchwork.Gate

/-- Where the record of a file is kept when nothing else is said. -/
def recordPath (content : Text) : Text := content ++ ".blake3".toList

def digestAt (v : Volume) (path : Text) : Except Fault Digest :=
  match v.read path with
  | .ok bytes => .ok (.ofContent bytes)
  | .error e => .error (.ofIo path e)

def digestFile (path : Text) : Disk Fault Digest := Disk.ask (digestAt · path)

/-- The digest in a record; a record that cannot be read or has another length holds none. -/
def recorded? (v : Volume) (record : Text) : Option Digest :=
  match v.read record with
  | .ok bytes => Digest.ofBytes? bytes
  | .error _ => none

/-- Writes the digest of some content to a record. -/
def refresh (content record : Text) : Disk Fault Digest := do
  let d ← digestFile content
  Disk.writeAtomic record d.bytes
  pure d

/-- Takes a record away, if there is one. -/
def forget (record : Text) : Disk Fault Unit := fun v =>
  match v.removeFile record with
  | .ok w => (.ok (), w)
  | .error e => if e.kind = .notFound then (.ok (), v) else (.error (.ofIo record e), v)

/-- Whether the record holds the digest of the content.  If it does not, it will; if the content
cannot be read, the record is taken away. -/
def isUnchanged (content record : Text) : Disk Fault Bool := fun v =>
  match digestAt v content with
  | .error _ => (forget record *> pure false : Disk Fault Bool) v
  | .ok d =>
    if recorded? v record = some d then (.ok true, v)
    else (Disk.writeAtomic record d.bytes *> pure false : Disk Fault Bool) v

/-- Whether all contents have the digests in their records; every record is brought up to date. -/
def allUnchanged : List (Text × Text) → Disk Fault Bool
  | [] => pure true
  | (content, record) :: rest => do
    let same ← isUnchanged content record
    let others ← allUnchanged rest
    pure (same && others)

end Patchwork.Gate
