import Patchwork.Text.Lines

/-!
# Patches

A patch describes the change of one file as hunks: stretches of lines that are kept, removed or
added, each hunk with its place in both versions.
-/
namespace Patchwork

open Text (Line)

inductive LineKind
  | context
  | delete
  | insert
  deriving DecidableEq, Repr

namespace LineKind

/-- The character in front of a line of this kind. -/
def mark : LineKind → Char
  | context => ' '
  | delete => '-'
  | insert => '+'

def ofMark? (c : Char) : Option LineKind :=
  if c = ' ' then some context else if c = '-' then some delete
  else if c = '+' then some insert else none

@[simp] theorem ofMark?_mark (k : LineKind) : ofMark? k.mark = some k := by cases k <;> rfl

end LineKind

structure HunkLine where
  kind : LineKind
  text : Line
  deriving DecidableEq, Repr

namespace HunkLine

def inSource (l : HunkLine) : Bool := l.kind != .insert

def inDest (l : HunkLine) : Bool := l.kind != .delete

end HunkLine

/-- Lines are numbered from one; a range of no lines is placed by the line before it. -/
structure Hunk where
  sourceStart : Nat
  sourceCount : Nat
  destStart : Nat
  destCount : Nat
  lines : List HunkLine
  deriving DecidableEq, Repr

namespace Hunk

/-- The lines that the hunk shows of the file it applies to. -/
def sourceLines (h : Hunk) : List Line := (h.lines.filter HunkLine.inSource).map HunkLine.text

/-- The lines that the hunk leaves in their place. -/
def destLines (h : Hunk) : List Line := (h.lines.filter HunkLine.inDest).map HunkLine.text

/-- The counts that the lines of the hunk call for. -/
def counted (h : Hunk) : Nat × Nat := (h.sourceLines.length, h.destLines.length)

def recounted (h : Hunk) : Hunk :=
  { h with sourceCount := h.counted.1, destCount := h.counted.2 }

/-- How many lines of the file stand before the hunk. -/
def sourceIndex (h : Hunk) : Nat := if h.sourceCount = 0 then h.sourceStart else h.sourceStart - 1

def changeCount (h : Hunk) : Nat := h.lines.countP (·.kind != .context)

end Hunk

structure FilePatch where
  source : Text
  destination : Text
  hunks : List Hunk
  deriving DecidableEq, Repr

def FilePatch.changeCount (p : FilePatch) : Nat := p.hunks.foldr (·.changeCount + ·) 0

end Patchwork
