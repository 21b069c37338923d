import Patchwork.Fault
import Patchwork.Patch.Printer
import Patchwork.Text.DecimalDigit

/-!
# Reading patches

A section begins with two header lines.  The body of a hunk is read by the counts in its header, so a
removed line that looks like a header is not taken for one; between hunks, lines that are no header
are passed over.
-/
namespace Patchwork

open Text (Line)

/-- The path in a header line, up to the first tab. -/
def Header.path? (mark : Text) (l : Line) : Option Text :=
  match mark.isPrefixOf? (Text.body l) with
  | some rest =>
    let path := rest.takeWhile (· ≠ '\t')
    if path = [] then none else some path
  | none => none

def Header.source? : Line → Option Text := Header.path? "--- ".toList

def Header.destination? : Line → Option Text := Header.path? "+++ ".toList

namespace Hunk

/-- The four numbers of a hunk header as they are written. -/
structure Range where
  start : Text
  count : Option Text

/-- A run of digits, and a second one behind a comma if there is one. -/
def Range.read? (t : Text) : Option (Range × Text) :=
  let start := t.takeWhile Text.isDecimalDigit
  if start = [] then none
  else match t.dropWhile Text.isDecimalDigit with
    | ',' :: rest =>
      let count := rest.takeWhile Text.isDecimalDigit
      if count = [] then none
      else some (⟨start, some count⟩, rest.dropWhile Text.isDecimalDigit)
    | rest => some (⟨start, none⟩, rest)

/-- The ranges of both sides in a line `@@ -a,b +c,d @@`, whatever follows. -/
def ranges? (l : Line) : Option (Range × Range) := do
  let rest ← "@@ -".toList.isPrefixOf? (Text.body l)
  let (source, rest) ← Range.read? rest
  let rest ← " +".toList.isPrefixOf? rest
  let (dest, rest) ← Range.read? rest
  let _ ← " @@".toList.isPrefixOf? rest
  some (source, dest)

/-- A hunk without lines from its ranges; a count that is left out is one. -/
def ofRanges? (source dest : Range) : Option Hunk := do
  let sourceStart ← Text.Decimal.word? source.start
  let destStart ← Text.Decimal.word? dest.start
  let sourceCount ← source.count.elim (some 1) Text.Decimal.word?
  let destCount ← dest.count.elim (some 1) Text.Decimal.word?
  some ⟨sourceStart, sourceCount, destStart, destCount, []⟩

end Hunk

/-- A line in the body of a hunk: a blank one is context without its mark, and one that starts with
a backslash speaks of the line before it. -/
inductive BodyLine
  | shown (line : HunkLine)
  | marker
  | stray

def BodyLine.ofLine (l : Line) : BodyLine :=
  match l with
  | '\n' :: _ | '\r' :: _ => shown ⟨.context, l⟩
  | '\\' :: _ => marker
  | c :: text => match LineKind.ofMark? c with
    | some kind => shown ⟨kind, text⟩
    | none => stray
  | [] => stray

/-- The lines read so far, last one first, when the last one has no line feed after all. -/
def unterminateLast : List HunkLine → List HunkLine
  | [] => []
  | l :: ls => { l with text := Text.unterminated l.text } :: ls

/-- Whether a line that starts with a backslash is of the form that is understood. -/
def isMarker (l : Line) : Bool := "\\ ".toList.isPrefixOf (Text.body l)

namespace Hunk

/-- Reads the body of `h` until `source` and `dest` more lines have been seen on either side, and a
marker behind it.  Answers the lines, and how many lines of the text are read by then; `number` is how
many are read before, and `read` holds the lines of the body so far, last one first. -/
def readBody (h : Hunk) (number : Nat) (source dest : Nat) (read : List HunkLine) :
    List Line → Except PatchFlaw (List HunkLine × Nat)
  | [] =>
    if source = 0 ∧ dest = 0 then .ok (read.reverse, number)
    else .error (.endsEarly h.sourceStart h.sourceCount)
  | l :: ls =>
    if source = 0 ∧ dest = 0 then
      match BodyLine.ofLine l with
      | .marker =>
        if isMarker l then .ok ((unterminateLast read).reverse, number + 1)
        else .error (.strayMarker (Text.body l))
      | _ => .ok (read.reverse, number)
    else match BodyLine.ofLine l with
      | .shown line =>
        if (line.inSource → 0 < source) ∧ (line.inDest → 0 < dest) then
          readBody h (number + 1) (if line.inSource then source - 1 else source)
            (if line.inDest then dest - 1 else dest) (line :: read) ls
        else .error (.overfull h.sourceStart h.sourceCount)
      | .marker =>
        if isMarker l then readBody h (number + 1) source dest (unterminateLast read) ls
        else .error (.strayMarker (Text.body l))
      | .stray => .error (.strayLine (number + 1) (Text.body l))

end Hunk

namespace FilePatch

/-- Reads the sections of the lines behind the first `number`; `current` is the section that is being
read, if its header has been seen. -/
def readSections (number : Nat) (current : Option FilePatch) (ls : List Line) :
    Except PatchFlaw (List FilePatch) :=
  match current, ls with
  | none, [] => .ok []
  | some p, [] => .ok [p]
  | none, l :: ls =>
    match Header.source? l, ls.head?.bind Header.destination? with
    | some source, some destination =>
      readSections (number + 2)
        (some ⟨Header.unescape source, Header.unescape destination, []⟩) (ls.drop 1)
    | _, _ => readSections (number + 1) none ls
  | some p, l :: ls =>
    match Hunk.ranges? l with
    | some (source, dest) =>
      match Hunk.ofRanges? source dest with
      | some h =>
        match h.readBody (number + 1) h.sourceCount h.destCount [] ls with
        | .ok (lines, reached) =>
          readSections reached (some { p with hunks := p.hunks ++ [{ h with lines := lines }] })
            (ls.drop (reached - (number + 1)))
        | .error flaw => .error flaw
      | none => .error (.badNumber (Text.body l))
    | none =>
      match Header.source? l with
      | some _ => (readSections number none (l :: ls)).map (p :: ·)
      | none => readSections (number + 1) (some p) ls
termination_by (ls.length, if current.isSome then 1 else 0)
decreasing_by all_goals simp [Prod.lex_def]; try omega

/-- The sections of a text; `origin` names the text in faults. -/
def parse (origin text : Text) : Except Fault (List FilePatch) :=
  match readSections 0 none (Text.lines text) with
  | .ok ps => .ok ps
  | .error flaw => .error (.malformedPatch origin flaw)

end FilePatch

end Patchwork
