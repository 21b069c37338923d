import Patchwork.Config.Basic
import Patchwork.Patch.Apply
import Patchwork.Patch.Parser
import Patchwork.Patch.Target
import Patchwork.Tree.Basic

/-!
# Patching a tree

The output is the baseline with every patch of a directory applied.  All patches are read before the
output is cleared.
-/
namespace Patchwork.Tree

structure PatchReport where
  copied : Nat
  patched : Nat
  deriving DecidableEq, Repr

/-- The sections of the patch file at a path. -/
def parseFile (path : Text) : Disk Fault (List FilePatch) :=
  Disk.ask fun v =>
    match v.readText path with
    | .ok text => FilePatch.parse path text
    | .error e => .error (.ofIo path e)

/-- Patches by the paths of their files, sorted. -/
abbrev PatchSet := List (Text × FilePatch)

def PatchSet.insert (target : Text) (p : FilePatch) : PatchSet → PatchSet
  | [] => [(target, p)]
  | q :: ps =>
    if Text.before target q.1 then (target, p) :: q :: ps else q :: PatchSet.insert target p ps

/-- Adds sections in turn; no two may have the same file. -/
def PatchSet.addAll (beginnings : List Text) (ps : PatchSet) :
    List FilePatch → Except Fault PatchSet
  | [] => .ok ps
  | p :: rest =>
    let target := targetPath beginnings p.source
    if ps.any (·.1 = target) then .error (.duplicateTarget target)
    else PatchSet.addAll beginnings (ps.insert target p) rest

/-- Adds the sections of some patch files, each of which must have one. -/
def loadFiles (c : Config) (patchDir : Text) (ps : PatchSet) : List Text → Disk Fault PatchSet
  | [] => pure ps
  | file :: files => do
    let sections ← parseFile (Path.join patchDir file)
    if sections = [] then throw (.malformedPatch file .noHeader)
    let ps ← Disk.ofExcept (ps.addAll c.beginnings sections)
    loadFiles c patchDir ps files

def loadPatches (c : Config) (patchDir : Text) : Disk Fault PatchSet := do
  let files ← listFiles patchDir
  loadFiles c patchDir [] files

/-- Applies one patch to the baseline's file and writes the result to the output. -/
def patchFile (baseline output target : Text) (p : FilePatch) : Disk Fault Unit := do
  match Path.resolve? baseline target, Path.resolve? output target with
  | some source, some dest =>
    let unpatched ← Disk.naming source (Disk.readText source)
    let patched ← Disk.ofExcept (p.apply target unpatched)
    Disk.naming dest (Disk.write dest (Text.Utf8.encode patched))
  | _, _ => throw (.malformedPatch target .leavesTree)

def patchFiles (baseline output : Text) : PatchSet → Disk Fault Unit
  | [] => pure ()
  | (target, p) :: ps => do
    patchFile baseline output target p
    patchFiles baseline output ps

/-- Makes the tree at `output` the one at `baseline` with the patches in `patchDir` applied. -/
def patch (c : Config) (baseline patchDir output : Text) : Disk Fault PatchReport := do
  Disk.requireDir baseline
  ensureDisjoint output [baseline, patchDir]
  let patches ← loadPatches c patchDir
  clearDir output
  let copied ← copyTree baseline output
  patchFiles baseline output patches
  pure ⟨copied.length, patches.length⟩

end Patchwork.Tree
