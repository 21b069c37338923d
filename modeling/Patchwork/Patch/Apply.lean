import Patchwork.Fault
import Patchwork.Patch.Basic

/-!
# Applying patches

A patch is applied strictly: each hunk at the place that it names, behind the one before it, and only
where the lines that it shows are the lines of the file.
-/
namespace Patchwork

open Text (Line)

/-- The first of some expected lines that does not stand behind the first `pos` lines of a file, by
its number, counted from one. -/
def firstConflict? (pos : Nat) : List Line → List Line → Option (Nat × Conflict)
  | [], _ => none
  | _ :: _, [] => some (pos + 1, .fileEnds)
  | expected :: es, found :: fs =>
    if expected = found then firstConflict? (pos + 1) es fs
    else some (pos + 1, .differs expected found)

namespace Hunk

/-- Applies hunks to the lines behind the first `cursor` of `total`; `number` hunks came before. -/
def applyAll (label : Text) (total number cursor : Nat) :
    List Hunk → List Line → Except Fault (List Line)
  | [], rest => .ok rest
  | h :: hs, rest =>
    let start := h.sourceIndex
    if start < cursor ∨ total < start then
      .error (.patchConflict label (number + 1) h.sourceStart (.startsOutside total))
    else
      let rest' := rest.drop (start - cursor)
      match firstConflict? start h.sourceLines rest' with
      | some (line, reason) => .error (.patchConflict label (number + 1) line reason)
      | none =>
        let seen := h.sourceLines.length
        (applyAll label total (number + 1) (start + seen) hs (rest'.drop seen)).map fun more =>
          rest.take (start - cursor) ++ h.destLines ++ more

end Hunk

/-- The text with every hunk of the patch applied; `label` names it in faults. -/
def FilePatch.apply (p : FilePatch) (label text : Text) : Except Fault Text :=
  let ls := Text.lines text
  (Hunk.applyAll label ls.length 0 0 p.hunks ls).map List.flatten

end Patchwork
