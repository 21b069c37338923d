import Patchwork.Edit.Groups
import Patchwork.Patch.Basic

/-!
# Patches from two texts

Each group of an edit script becomes a hunk.
-/
namespace Patchwork

open Text (Line)

/-- The number of kept lines around each change. -/
def contextLines : Nat := 3

namespace Hunk

/-- The lines that an edit shows, removed lines before added ones. -/
def linesOf (old new : Array Line) (e : Edit) : List HunkLine :=
  match e with
  | .keep .. => (e.oldLines old).map (⟨.context, ·⟩)
  | .delete .. => (e.oldLines old).map (⟨.delete, ·⟩)
  | .insert .. => (e.newLines new).map (⟨.insert, ·⟩)
  | .replace .. =>
    (e.oldLines old).map (⟨.delete, ·⟩) ++ (e.newLines new).map (⟨.insert, ·⟩)

/-- The number of the first line of a range, or of the line before it if it is empty. -/
def startOf (index count : Nat) : Nat := if count = 0 then index else index + 1

/-- The hunk of a group, placed by the group's first edit. -/
def ofGroup? (old new : Array Line) : List Edit → Option Hunk
  | [] => none
  | e :: es =>
    let h := (Hunk.mk 0 0 0 0 ((e :: es).flatMap (linesOf old new))).recounted
    some { h with
      sourceStart := startOf e.oldStart h.sourceCount
      destStart := startOf e.newStart h.destCount }

end Hunk

/-- The hunks of an edit script. -/
def hunksOf (old new : Array Line) (es : List Edit) : List Hunk :=
  (Edit.groups contextLines es).filterMap (Hunk.ofGroup? old new)

/-- The patch from `old` to `new` for the file at `path`, if there is a difference; `label` goes in
front of the path on the side of the new text. -/
def FilePatch.ofTexts? (label path old new : Text) : Option FilePatch :=
  let old := (Text.lines old).toArray
  let new := (Text.lines new).toArray
  match hunksOf old new (Edit.script old new) with
  | [] => none
  | hunks => some ⟨path, label ++ path, hunks⟩

end Patchwork
