import Patchwork.Config.Basic
import Patchwork.Patch.Printer
import Patchwork.Patch.Target
import Patchwork.Tree.Basic

/-!
# Patches between two trees

Every file of the baseline that reads differently in the modified tree gets a patch file.  All patches
are made before the patch directory is cleared.
-/
namespace Patchwork.Tree

structure DiffReport where
  /-- The patch files, by their paths in the patch directory. -/
  written : List Text
  /-- How many files of the baseline are the same in both trees. -/
  unchanged : Nat
  deriving DecidableEq, Repr

/-- Fails at the first file whose patch would have the name of an earlier one's. -/
def checkNames (fileExtension : Text) (seen : List Text) : List Text → Except Fault Unit
  | [] => .ok ()
  | file :: files =>
    let name := patchFileName fileExtension file
    match seen.find? (patchFileName fileExtension · = name) with
    | some first => .error (.patchCollision name first file)
    | none => checkNames fileExtension (file :: seen) files

/-- The patch of one file, if it differs. -/
def diffFile (c : Config) (v : Volume) (baseline modified file : Text) :
    Except Fault (Option FilePatch) :=
  let oldPath := Path.join baseline file
  match Path.resolve? modified file with
  | none => .error (.notFound (Path.join modified file))
  | some newPath =>
    match v.readText oldPath with
    | .error e => .error (.ofIo oldPath e)
    | .ok old => match v.readText newPath with
      | .error e => .error (.ofIo newPath e)
      | .ok new => .ok (FilePatch.ofTexts? c.patchLabel file old new)

/-- The patches of some files, each with its file's path. -/
def diffFiles (c : Config) (v : Volume) (baseline modified : Text) :
    List Text → Except Fault (List (Text × FilePatch))
  | [] => .ok []
  | file :: files =>
    match diffFile c v baseline modified file with
    | .error e => .error e
    | .ok p => (diffFiles c v baseline modified files).map fun ps =>
        match p with
        | some p => (file, p) :: ps
        | none => ps

/-- Writes files below a directory, making the directories on the way. -/
def writeFiles (dir : Text) : List (Text × Text) → Disk Fault Unit
  | [] => pure ()
  | (name, text) :: rest => do
    let path := Path.join dir name
    match Path.parent? path with
    | some above => Disk.naming above (Disk.createDirAll above)
    | none => pure ()
    Disk.naming path (Disk.write path (Text.Utf8.encode text))
    writeFiles dir rest

/-- Puts the patches from the tree at `baseline` to the one at `modified` into `patchDir`, instead of
what it holds. -/
def diff (c : Config) (baseline modified patchDir : Text) : Disk Fault DiffReport := do
  Disk.requireDir modified
  let files ← listFiles baseline
  ensureDisjoint patchDir [baseline, modified]
  Disk.ofExcept (checkNames c.patchExtension [] files)
  let patches ← Disk.ask fun v => diffFiles c v baseline modified files
  clearDir patchDir
  let named := patches.map fun p =>
    (patchFileName c.patchExtension p.1, FilePatch.print [p.2])
  writeFiles patchDir named
  pure ⟨named.map (·.1), files.length - patches.length⟩

end Patchwork.Tree
