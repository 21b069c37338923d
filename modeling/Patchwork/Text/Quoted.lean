import Patchwork.Text.Unprintable
import Patchwork.Text.Basic

/-!
# Quoted text

A text in double quotes for a message: quotes, backslashes and the common controls are escaped by a
backslash, and what has no printed form is named by its code point.
-/
namespace Patchwork.Text.Quoted

def escape (c : Char) : Text :=
  if c = '"' ∨ c = '\\' then ['\\', c]
  else if c = '\n' then ['\\', 'n']
  else if c = '\r' then ['\\', 'r']
  else if c = '\t' then ['\\', 't']
  else if c = '\x00' then ['\\', '0']
  else if isUnprintable c then ['\\', 'u', '{'] ++ Nat.toDigits 16 c.toNat ++ ['}']
  else [c]

def render (t : Text) : Text := '"' :: t.flatMap escape ++ ['"']

end Patchwork.Text.Quoted
