import Patchwork.Text.Blank

/-!
# Paths in patch headers

A path with a space is written in double quotes, with a backslash in front of quotes and
backslashes.  Reading trims white space, and takes off the quotes if both stand there.
-/
namespace Patchwork.Header

def escapeChar (c : Char) : Text := if c = '\\' ∨ c = '"' then ['\\', c] else [c]

def escape (path : Text) : Text :=
  if ' ' ∈ path then '"' :: path.flatMap escapeChar ++ ['"'] else path

/-- Puts `c` for every `a` that a `b` follows, from the left. -/
def replacePair (a b c : Char) : Text → Text
  | x :: y :: t => if x = a ∧ y = b then c :: replacePair a b c t else x :: replacePair a b c (y :: t)
  | t => t

/-- Inside the quotes: quotes lose their backslash first, and then backslashes do. -/
def unescapeQuoted (t : Text) : Text := replacePair '\\' '\\' '\\' (replacePair '\\' '"' '"' t)

def unescape (t : Text) : Text :=
  let t := Text.trim t
  if t.head? = some '"' ∧ t.getLast? = some '"' ∧ 2 ≤ t.length then
    unescapeQuoted (t.drop 1).dropLast
  else t

end Patchwork.Header
