import Patchwork.Patch.Basic
import Patchwork.Patch.Header
import Patchwork.Text.Decimal

/-!
# Printing patches

The unified format: two header lines for the file, a header line for each hunk, and the lines of the
hunk behind their marks.  A line that lacks its line feed is followed by a line that says so.
-/
namespace Patchwork

open Text (Line)

/-- What follows a line that has no line feed. -/
def noNewline : Text := "\\ No newline at end of file".toList

def HunkLine.render (l : HunkLine) : List Line :=
  (l.kind.mark :: Text.unterminated l.text ++ ['\n']) ::
    if Text.terminated l.text then [] else [noNewline ++ ['\n']]

namespace Hunk

def headerLine (h : Hunk) : Line :=
  "@@ -".toList ++ Text.Decimal.digits h.sourceStart ++ [','] ++ Text.Decimal.digits h.sourceCount ++
    " +".toList ++ Text.Decimal.digits h.destStart ++ [','] ++ Text.Decimal.digits h.destCount ++
    " @@\n".toList

def render (h : Hunk) : List Line := h.headerLine :: h.lines.flatMap HunkLine.render

end Hunk

namespace FilePatch

def render (p : FilePatch) : List Line :=
  ("--- ".toList ++ Header.escape p.source ++ ['\n']) ::
    ("+++ ".toList ++ Header.escape p.destination ++ ['\n']) :: p.hunks.flatMap Hunk.render

/-- The text of some patches, one after the other. -/
def print (ps : List FilePatch) : Text := (ps.flatMap render).flatten

end FilePatch

end Patchwork
