import Patchwork.Patch.Apply
import Patchwork.Patch.Diff

/-!
# Reversed patches

A patch that is read backwards removes what it adds and adds what it removes; the places of its hunks
in the old and in the new text change sides.
-/
namespace Patchwork

open Text (Line)

/-- The kind of a line when the old and the new text change places. -/
def LineKind.reverse : LineKind → LineKind
  | context => context
  | delete => insert
  | insert => delete

namespace HunkLine

def reverse (l : HunkLine) : HunkLine := { l with kind := l.kind.reverse }

theorem text_reverse (l : HunkLine) : l.reverse.text = l.text := rfl

theorem inSource_reverse (l : HunkLine) : l.reverse.inSource = l.inDest := by
  obtain ⟨kind, text⟩ := l
  cases kind <;> rfl

theorem inDest_reverse (l : HunkLine) : l.reverse.inDest = l.inSource := by
  obtain ⟨kind, text⟩ := l
  cases kind <;> rfl

end HunkLine

namespace Hunk

/-- The hunk from the new text to the old one. -/
def reverse (h : Hunk) : Hunk :=
  ⟨h.destStart, h.destCount, h.sourceStart, h.sourceCount, h.lines.map HunkLine.reverse⟩

theorem sourceLines_reverse (h : Hunk) : h.reverse.sourceLines = h.destLines := by
  simp only [sourceLines, destLines, reverse, List.filter_map, List.map_map, Function.comp_def,
    HunkLine.inSource_reverse, HunkLine.text_reverse]

theorem destLines_reverse (h : Hunk) : h.reverse.destLines = h.sourceLines := by
  simp only [sourceLines, destLines, reverse, List.filter_map, List.map_map, Function.comp_def,
    HunkLine.inDest_reverse, HunkLine.text_reverse]

/-- How many lines of the new text stand before the hunk. -/
def destIndex (h : Hunk) : Nat := h.reverse.sourceIndex

/-- The hunk with its place in the new text behind `n` lines. -/
def destAt (n : Nat) (h : Hunk) : Hunk := { h with destStart := startOf n h.destCount }

/-- The number of the first line of a range tells how many lines stand before it. -/
theorem index_startOf (n count : Nat) :
    (if count = 0 then startOf n count else startOf n count - 1) = n := by
  unfold startOf
  split
  · rfl
  · exact Nat.add_sub_cancel ..

theorem destIndex_destAt (n : Nat) (h : Hunk) : (h.destAt n).destIndex = n :=
  index_startOf n h.destCount

/-- Where a hunk stands in the new text does not matter to its application. -/
theorem applyAll_modifyHead_destAt (label : Text) (total number cursor : Nat) (place : Hunk → Nat)
    (hs : List Hunk) (rest : List Line) :
    applyAll label total number cursor (hs.modifyHead fun h => h.destAt (place h)) rest =
      applyAll label total number cursor hs rest := by
  cases hs <;> rfl

end Hunk

namespace FilePatch

/-- The patch from the new text to the old one. -/
def reverse (p : FilePatch) : FilePatch := { p with hunks := p.hunks.map Hunk.reverse }

/-- The patch with the same number of lines in front of its first hunk on both sides. -/
def grounded (p : FilePatch) : FilePatch :=
  { p with hunks := p.hunks.modifyHead fun h => h.destAt h.sourceIndex }

end FilePatch

end Patchwork
