import Patchwork.Proofs.Archive.Merging
import Patchwork.Proofs.Text.ByteOrder

/-!
# Walking an archive

A walk yields an item for each entry in the order of the directory of the archive, and then, in the order of their
bytes, the directories that no entry records although entries lie below them.  With a path it therefore yields every
directory above it.  What is called on the handle in between changes nothing about the next walk.
-/
namespace Patchwork

open Handle Volume
open Zip (Listed Member)

/-- What a walk yields for an entry: a directory, a regular file with its content, or a failure if that cannot be
read. -/
inductive Zip.Listed.Yields (bytes : Bytes) (archive : Text) (e : Listed) : Except Fault Entry → Prop
  | dir (hkind : e.kind = .dir) : Yields bytes archive e (.ok (.directory e.path))
  | file {data : Bytes} (hkind : e.kind = .file) (hread : e.content bytes = .ok data) :
      Yields bytes archive e (.ok (.file e.path data))
  | unreadable {failure : Zip.Failure} (hkind : e.kind = .file) (hread : e.content bytes = .error failure) :
      Yields bytes archive e (.error (failure.fault archive))

/-- Two handles are for one archive, whatever is staged through them. -/
structure Handle.SameArchive (h h' : Handle) : Prop where
  path : h'.path = h.path
  file? : h'.file? = h.file?
  opened : h'.opened = h.opened

variable {v v' w : Volume} {h h' h'' : Handle} {e : Listed} {path p q : Text} {bytes : Bytes} {adds : List Addition}
  {α : Type}

/-! ### The items -/

namespace Handle

theorem SameArchive.refl (h : Handle) : SameArchive h h := ⟨rfl, rfl, rfl⟩

theorem SameArchive.trans (hs : SameArchive h h') (hs' : SameArchive h' h'') : SameArchive h h'' :=
  ⟨hs'.path.trans hs.path, hs'.file?.trans hs.file?, hs'.opened.trans hs.opened⟩

theorem SameArchive.walk (hs : SameArchive h h') (hg : Grows v w) : h'.walk w = h.walk v := by
  have hbytes : h'.bytes w = h.bytes v := by
    rw [bytes_grow hg, bytes, bytes, hs.file?]
  have hentry : h'.entryOf w = h.entryOf v := by
    funext e
    rw [entryOf, entryOf, hbytes, hs.path]
  have himplied : h'.implied = h.implied := by
    unfold implied entries
    rw [hs.opened]
  rw [Handle.walk, Handle.walk, hs.opened, hentry, himplied]

end Handle

end Patchwork
