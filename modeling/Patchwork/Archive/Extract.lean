import Patchwork.Archive.Copy
import Patchwork.Tree.Basic

/-!
# Extracting archives

The regular files of an archive that a filter accepts become files below a directory, which holds
nothing else afterwards.  No name leads out of the directory.
-/
namespace Patchwork.Archive

/-- Writes the files at some paths of an archive below a directory. -/
def extractEach (h : Handle) (dir : Text) : List Text → Disk Fault Unit
  | [] => pure ()
  | path :: paths => do
    match Path.resolve? dir path with
    | none => throw (.malformedArchive h.path (.entryEscapes path))
    | some target =>
      let data ← Disk.ask fun v => h.read v path
      match Path.parent? target with
      | some above => Disk.io (Disk.createDirAll above)
      | none => pure ()
      Disk.io (Disk.write target data)
      extractEach h dir paths

/-- Clears a directory and extracts what a filter accepts. -/
def extract (h : Handle) (dir : Text) (f : FilterSet) : Disk Fault CopyReport := do
  Tree.clearDir dir
  extractEach h dir (h.selected f)
  pure (h.report f)

def extractAt (source dir : Text) (f : FilterSet) : Disk Fault CopyReport := do
  let h ← Handle.openAt source false
  extract h dir f

end Patchwork.Archive
