import Patchwork.Glob.Basic

/-!
# Glob patterns as regular expressions

A pattern stands for the text of an anchored regular expression, in which every character that
has a meaning of its own is escaped.  The text is read back as a sequence of character classes, each
perhaps repeated, and matched against the whole path.
-/
namespace Patchwork.Glob

inductive CharClass
  | only (c : Char)
  | notLineFeed
  | except (c : Char)
  deriving DecidableEq, Repr

def CharClass.has : CharClass → Char → Bool
  | only c, d => d == c
  | notLineFeed, d => d != '\n'
  | except c, d => d != c

/-- A class that stands for one character, or for any number of them. -/
structure Item where
  members : CharClass
  many : Bool
  deriving DecidableEq, Repr

/-- The characters that mean themselves only behind a backslash. -/
def isSpecial (c : Char) : Bool := c ∈ "\\.+*?()|[]\x7b\x7d^$#&-~".toList

def Token.source : Token → Text
  | anyDeep => ".*".toList
  | any => "[^/]*".toList
  | char c => if isSpecial c then ['\\', c] else [c]

/-- The regular expression for a pattern. -/
def source (pattern : Text) : Text := "^/".toList ++ (tokens pattern).flatMap Token.source ++ ['$']

/-- A class, or an end of the text. -/
inductive Atom
  | one (members : CharClass)
  | finish

/-- One atom from the front of an expression. -/
def readAtom? : Text → Option (Atom × Text)
  | '\\' :: c :: t => if isSpecial c then some (.one (.only c), t) else none
  | '.' :: t => some (.one .notLineFeed, t)
  | '[' :: '^' :: c :: ']' :: t => some (.one (.except c), t)
  | '$' :: t => some (.finish, t)
  | c :: t => if isSpecial c then none else some (.one (.only c), t)
  | [] => none

theorem readAtom?_length {t rest : Text} {a : Atom} (h : readAtom? t = some (a, rest)) :
    rest.length < t.length := by
  fun_cases readAtom? t <;> grind [readAtom?]

/-- The items of an expression up to the end of the text, which has to come last. -/
def readItems? (t : Text) : Option (List Item) :=
  match h : readAtom? t with
  | none => none
  | some (.finish, rest) => if rest = [] then some [] else none
  | some (.one members, rest) =>
    have := readAtom?_length h
    if rest.head? = some '*' then (readItems? rest.tail).map (⟨members, true⟩ :: ·)
    else (readItems? rest).map (⟨members, false⟩ :: ·)
termination_by t.length
decreasing_by
  · rw [List.length_tail]
    omega
  · exact this

/-- The items of an expression that is anchored at both ends. -/
def parse? : Text → Option (List Item)
  | '^' :: t => readItems? t
  | _ => none

/-- For each end of a text, the longest first, whether an item and the items behind it match it,
given the same for the items behind it alone. -/
def Item.row (i : Item) : Text → List Bool → List Bool
  | c :: t, b :: bs =>
    let more := i.row t bs
    (if i.many then b || (i.members.has c && more.headD false)
      else i.members.has c && bs.headD false) :: more
  | _, bs => if i.many then bs else bs.map fun _ => false

/-- The same for a list of items. -/
def rows (t : Text) : List Item → List Bool
  | [] => t.map (fun _ => false) ++ [true]
  | i :: is => i.row t (rows t is)

def accepts (is : List Item) (t : Text) : Bool := (rows t is).headD false

end Patchwork.Glob
