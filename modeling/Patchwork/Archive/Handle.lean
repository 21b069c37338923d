import Patchwork.Archive.Entry
import Patchwork.Volume.Disk
import Patchwork.Zip.Reader

/-!
# Archive handles

A handle knows the entries of an archive from the time when it was opened, and reads their content
from the file that was opened then, even if another file has taken its place.  What is written through
it is staged beside the archive; until the handle is closed, the archive stays as it is.
-/
namespace Patchwork

/-- A new archive in the making: its temporary file and its members. -/
structure Stage where
  temp : Text
  members : List Zip.Member

structure Handle where
  path : Text
  /-- The file that the entries are in; a handle that starts a new archive has none. -/
  file? : Option Opened
  /-- The entries of the archive when it was opened. -/
  opened : List Zip.Listed
  /-- The paths that will be there once everything is committed. -/
  present : List Text
  stage : Option Stage

namespace Zip.Header

def path (m : Header) : Text := Entry.normalize m.name

def kind (m : Header) : EntryKind := if m.isDir then .dir else .file

end Zip.Header

namespace Handle

open Zip (Listed Member)

/-- A handle with nothing staged for an archive with some entries. -/
def ofEntries (path : Text) (file? : Option Opened) (es : List Listed) : Handle :=
  ⟨path, file?, es, es.map (·.path), none⟩

/-- Reads the archive at a path. -/
def load (v : Volume) (path : Text) : Except Fault Handle :=
  match v.openFile path with
  | .error e => .error (.ofIo path e)
  | .ok (file, bytes) => match Zip.index bytes with
    | .ok es => .ok (ofEntries path (some file) es)
    | .error f => .error (f.fault path)

/-- Opens the archive at a path.  If there is no file and `create` holds, an archive without members
is put there first. -/
def openAt (path : Text) (create : Bool) : Disk Fault Handle := do
  if !(← get).isFile path then
    if create then
      match (Path.parent? path).filter (· ≠ []) with
      | some dir => Disk.io (Disk.createDirAll dir)
      | none => pure ()
      Disk.io (Disk.write path Zip.emptyArchive)
    else throw (.notFound path)
  Disk.ask (load · path)

def size (h : Handle) : Nat := h.opened.length

/-- Whether there will be an entry at a path. -/
def contains (h : Handle) (path : Text) : Bool := Entry.normalize path ∈ h.present

def entries (h : Handle) : List (Text × EntryKind) := h.opened.map fun e => (e.path, e.kind)

/-- The paths of the regular files, in the order of the archive. -/
def files (h : Handle) : List Text :=
  (h.entries.filter (·.2 = .file)).map (·.1)

/-- The entry at a path; of several, the last one. -/
def entry? (h : Handle) (path : Text) : Option Listed :=
  h.opened.reverse.find? (·.path = path)

/-- What the file of the archive holds. -/
def bytes (h : Handle) (v : Volume) : Bytes := (h.file?.map v.contentOf).getD []

/-- An entry with what is stored for it. -/
def memberOf (h : Handle) (v : Volume) (e : Listed) : Except Fault Member :=
  (e.member (h.bytes v)).mapError (·.fault h.path)

/-- An entry with its content. -/
def entryOf (h : Handle) (v : Volume) (e : Listed) : Except Fault Entry :=
  match e.kind with
  | .dir => .ok (.directory e.path)
  | .file => match e.content (h.bytes v) with
    | .ok data => .ok (.file e.path data)
    | .error f => .error (f.fault h.path)

/-- The directories that are there only because something lies below them. -/
def implied (h : Handle) : List Text :=
  let recorded := (h.entries.filter (·.2 = .dir)).map (·.1)
  Text.sort (((h.entries.flatMap fun e => Entry.ancestors e.1).filter (· ∉ recorded)).eraseDups)

/-- Every entry in the order of the archive, and then the implied directories. -/
def walk (h : Handle) (v : Volume) : List (Except Fault Entry) :=
  h.opened.map (h.entryOf v) ++ h.implied.map fun path => .ok (.directory path)

/-- The content of the regular file at a path. -/
def read (h : Handle) (v : Volume) (path : Text) : Except Fault Bytes :=
  let path := Entry.normalize path
  match h.entry? path with
  | none => .error (.notFound path)
  | some e => match e.kind with
    | .dir => .error (.io (.entryIsDirectory path))
    | .file => (h.entryOf v e).map Entry.data

end Handle

end Patchwork
