import Patchwork.Text.Basic

/-!
# Globs

A pattern is read from left to right: two stars stand for any run of characters other than the line
feed, one star for any run of characters other than the slash, and every other character for itself.
`Matches` says which texts a pattern stands for.
-/
namespace Patchwork.Glob

inductive Token
  | anyDeep
  | any
  | char (c : Char)
  deriving DecidableEq, Repr

/-- The tokens of a pattern; stars pair up from the left. -/
def tokens : Text → List Token
  | '*' :: '*' :: t => .anyDeep :: tokens t
  | '*' :: t => .any :: tokens t
  | c :: t => .char c :: tokens t
  | [] => []

/-- The texts that a token stands for. -/
def Token.Covers : Token → Text → Prop
  | anyDeep, t => '\n' ∉ t
  | any, t => '/' ∉ t
  | char c, t => t = [c]

inductive Matches : List Token → Text → Prop
  | nil : Matches [] []
  | cons {k : Token} {ks : List Token} {s t : Text} :
      k.Covers s → Matches ks t → Matches (k :: ks) (s ++ t)

/-- The path from the root, with a slash in front. -/
def rooted (path : Text) : Text := if path.head? = some '/' then path else '/' :: path

end Patchwork.Glob
