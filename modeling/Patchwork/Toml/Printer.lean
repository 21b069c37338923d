import Patchwork.Text.Basic

/-!
# Writing TOML

A text is written in the plainest of four forms that shows every character as itself: on one line
between double or single quotes, or on several lines between three of them.  Only a text for which
none of them will do is written with escapes.
-/
namespace Patchwork.Toml

/-- How a text is put in quotes. -/
structure Form where
  quote : Char
  /-- Three quotes on either side, between which lines may end. -/
  wide : Bool
  deriving DecidableEq, Repr

/-- Characters that no form shows as themselves. -/
def isControl (c : Char) : Bool := (c.toNat < 0x20 && c ≠ '\t' && c ≠ '\n') || c.toNat = 0x7f

/-- The length of the longest run of a character. -/
def longestRun (q : Char) (t : Text) : Nat :=
  (t.foldl (fun (now, most) c => if c = q then (now + 1, max most (now + 1)) else (0, most))
    (0, 0)).2

namespace Form

/-- Whether a form can hold a text without escapes, but for tabs between double quotes. -/
def holds (f : Form) (t : Text) : Bool :=
  !t.any isControl && (f.wide || '\n' ∉ t) && (f.quote = '\'' || '\\' ∉ t) &&
    longestRun f.quote t ≤ if f.wide then 2 else 0

/-- From the plainest form to the last resort. -/
def all : List Form := [⟨'"', false⟩, ⟨'\'', false⟩, ⟨'"', true⟩, ⟨'\'', true⟩]

def choose (t : Text) : Form := (all.find? (·.holds t)).getD ⟨'"', '\n' ∈ t⟩

def delimiter (f : Form) : Text := List.replicate (if f.wide then 3 else 1) f.quote

end Form

def codeEscape (c : Char) : Text :=
  let ds := (Nat.toDigits 16 c.toNat).map Char.toUpper
  ['\\', 'u'] ++ List.replicate (4 - ds.length) '0' ++ ds

/-- The escape of a character between double quotes, if it needs one there. -/
def escape? (wide : Bool) (c : Char) : Option Text :=
  if c = '\x08' then some ['\\', 'b']
  else if c = '\t' then some ['\\', 't']
  else if c = '\n' then if wide then none else some ['\\', 'n']
  else if c = '\x0c' then some ['\\', 'f']
  else if c = '\r' then some ['\\', 'r']
  else if c = '\\' then some ['\\', '\\']
  else if isControl c then some (codeEscape c)
  else none

/-- A text between double quotes.  Of a run of quotes, those that would end the text are escaped;
`quotes` counts those that were not, since the last other character. -/
def escapeAll (wide : Bool) (quotes : Nat) : Text → Text
  | [] => []
  | c :: t =>
    if c = '"' then
      if quotes = (if wide then 2 else 0) then ['\\', '"'] ++ escapeAll wide 0 t
      else '"' :: escapeAll wide (quotes + 1) t
    else (escape? wide c).getD [c] ++ escapeAll wide 0 t

/-- The written form of a text. -/
def quoted (t : Text) : Text :=
  let f := Form.choose t
  f.delimiter ++ (if f.wide ∧ '\n' ∈ t then ['\n'] else []) ++
    (if f.quote = '"' then escapeAll f.wide 0 t else t) ++ f.delimiter

/-- A list of texts; from two on, each has a line of its own. -/
def quotedList : List Text → Text
  | [] => ['[', ']']
  | [t] => ['['] ++ quoted t ++ [']']
  | ts => ['[', '\n'] ++ ts.flatMap (fun t => "    ".toList ++ quoted t ++ [',', '\n']) ++ [']']

/-- A line that gives a key its value. -/
def assignment (key value : Text) : Text := key ++ [' ', '=', ' '] ++ value ++ ['\n']

end Patchwork.Toml
