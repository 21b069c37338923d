import Patchwork.Text.Decimal
import Patchwork.Toml.Value

/-!
# Reading TOML values

A scanner takes a part from the front of a text and answers the rest with it, or fails.
-/
namespace Patchwork.Toml

abbrev Scan (α : Type) := StateT Text Option α

namespace Scan

variable {α : Type}

def fail : Scan α := fun _ => none

def peek : Scan (Option Char) := fun t => some (t.head?, t)

/-- The next character. -/
def next : Scan Char
  | c :: t => some (c, t)
  | [] => none

def next? (p : Char → Bool) : Scan Char
  | c :: t => if p c then some (c, t) else none
  | [] => none

/-- The characters up to the first one that does not satisfy `p`. -/
def run (p : Char → Bool) : Scan Text := fun t => some (t.takeWhile p, t.dropWhile p)

def word (w : Text) : Scan Unit := fun t => (w.isPrefixOf? t).map ((), ·)

/-- Exactly `n` characters that satisfy `p`. -/
def exactly (n : Nat) (p : Char → Bool) : Scan Text := fun t =>
  let taken := t.take n
  if taken.length = n ∧ taken.all p then some (taken, t.drop n) else none

/-- What `s` reads, or nothing if it fails. -/
def maybe (s : Scan α) : Scan (Option α) := fun t =>
  match s t with
  | some (a, t) => some (some a, t)
  | none => some (none, t)

/-- What `s` reads until it fails; `s` has to take a character at least, so that it succeeds at most
once for every character. -/
def many (s : Scan α) : Scan (List α) := fun t => go t [] t
where
  go : Text → List α → Text → Option (List α × Text)
    | [], done, t => some (done.reverse, t)
    | _ :: fuel, done, t =>
      match s t with
      | some (a, rest) => go fuel (a :: done) rest
      | none => some (done.reverse, t)

end Scan

open Scan

def isSpace (c : Char) : Bool := c = ' ' || c = '\t'

/-- Characters of comments, and of literal strings other than their quote. -/
def isPlain (c : Char) : Bool := c = '\t' || (0x20 ≤ c.toNat && c.toNat ≠ 0x7f)

def spaces : Scan Unit := do let _ ← run isSpace

def newline : Scan Unit := word ['\n'] <|> word ['\r', '\n']

def comment : Scan Unit := do
  word ['#']
  let _ ← run isPlain

def atEnd : Scan Unit := fun t => if t = [] then some ((), t) else none

/-- The rest of a line without a value. -/
def endOfLine : Scan Unit := do
  spaces
  let _ ← maybe comment
  newline <|> atEnd

/-- White space, comments and line breaks. -/
def blank : Scan Unit := do
  let _ ← many ((do let _ ← next? isSpace) <|> newline <|> (do comment; newline))

/-! ### Strings -/

def hexValue (c : Char) : Nat :=
  if c.isDigit then c.toNat - 48 else if c.toNat < 97 then c.toNat - 55 else c.toNat - 87

def isHexDigit (c : Char) : Bool :=
  c.isDigit || ('a' ≤ c && c ≤ 'f') || ('A' ≤ c && c ≤ 'F')

/-- A character by its code point in `n` hexadecimal digits. -/
def codePoint (n : Nat) : Scan Char := do
  let ds ← exactly n isHexDigit
  let k := ds.foldl (fun k c => 16 * k + hexValue c) 0
  if k.isValidChar then pure (Char.ofNat k) else fail

/-- The character that an escape stands for; its backslash has been read. -/
def escaped : Scan Char := do
  match ← next with
  | 'b' => pure '\x08'
  | 't' => pure '\t'
  | 'n' => pure '\n'
  | 'f' => pure '\x0c'
  | 'r' => pure '\r'
  | '"' => pure '"'
  | '\\' => pure '\\'
  | 'u' => codePoint 4
  | 'U' => codePoint 8
  | _ => fail

def isBasic (c : Char) : Bool := isPlain c && c ≠ '"' && c ≠ '\\'

def isLiteral (c : Char) : Bool := isPlain c && c ≠ '\''

def basicString : Scan Text := do
  word ['"']
  let cs ← many (next? isBasic <|> (do word ['\\']; escaped))
  word ['"']
  pure cs

def literalString : Scan Text := do
  word ['\'']
  let cs ← run isLiteral
  word ['\'']
  pure cs

/-- One or two quotes that do not end a string of several lines. -/
def innerQuotes (q : Char) : Scan Text := fun t =>
  let quotes := t.takeWhile (· = q)
  if 0 < quotes.length ∧ quotes.length < 3 then some (quotes, t.drop quotes.length) else none

/-- The three quotes at the end, with at most two that belong to the string. -/
def closingQuotes (q : Char) : Scan Text := fun t =>
  let count := (t.takeWhile (· = q)).length
  if count < 3 then none
  else
    let inner := min (count - 3) 2
    some (List.replicate inner q, t.drop (inner + 3))

def lineBreak : Scan Text := do
  newline
  pure ['\n']

/-- A backslash at the end of a line, with all white space behind it. -/
def foldedLine : Scan Text := do
  word ['\\']
  spaces
  newline
  let _ ← many ((do let _ ← next? isSpace) <|> newline)
  pure []

def one (s : Scan Char) : Scan Text := do pure [← s]

def basicLines : Scan Text := do
  word ['"', '"', '"']
  let _ ← maybe newline
  let parts ← many (one (next? isBasic) <|> lineBreak <|> foldedLine <|>
    one (do word ['\\']; escaped) <|> innerQuotes '"')
  pure (parts.flatten ++ (← closingQuotes '"'))

def literalLines : Scan Text := do
  word ['\'', '\'', '\'']
  let _ ← maybe newline
  let parts ← many (one (next? isLiteral) <|> lineBreak <|> innerQuotes '\'')
  pure (parts.flatten ++ (← closingQuotes '\''))

def string : Scan Text := basicLines <|> basicString <|> literalLines <|> literalString

/-! ### Keys -/

def isBare (c : Char) : Bool := c.isAlphanum || c = '_' || c = '-'

def simpleKey : Scan Text := basicString <|> literalString <|> do
  let cs ← run isBare
  if cs = [] then fail else pure cs

/-- How many arrays and tables may be inside each other, and how many parts a key may have. -/
def depthLimit : Nat := 79

/-- The parts of a key, separated by dots. -/
def key : Scan (List Text) := do
  let part : Scan Text := do
    spaces
    let k ← simpleKey
    spaces
    pure k
  let first ← part
  let more ← many (do word ['.']; part)
  if more.length < depthLimit then pure (first :: more) else fail

/-! ### Numbers -/

/-- Digits that may be parted by single underscores, without these. -/
def digitRun (p : Char → Bool) : Scan Text := do
  let first ← next? p
  let more ← many (next? p <|> (do word ['_']; next? p))
  pure (first :: more)

def sign : Scan Bool := do
  match ← maybe (next? fun c => c = '+' || c = '-') with
  | some c => pure (c = '-')
  | none => pure false

/-- A whole number without needless zeros: whether it is negative, and its digits. -/
def decimal : Scan (Bool × Text) := do
  let negative ← sign
  match ← peek with
  | some '0' => do
    let _ ← next
    pure (negative, ['0'])
  | _ => do pure (negative, ← digitRun Char.isDigit)

def fitsWord (n : Int) : Bool := -0x8000000000000000 ≤ n && n < 0x8000000000000000

def ofDigits (base : Nat) (ds : Text) : Nat := ds.foldl (fun n c => base * n + hexValue c) 0

/-- A number behind a mark for its base. -/
def based (mark : Text) (base : Nat) (p : Char → Bool) : Scan Int := do
  word mark
  let ds ← digitRun p
  pure (ofDigits base ds)

def integer : Scan Value := do
  let n ← based ['0', 'x'] 16 isHexDigit <|> based ['0', 'o'] 8 (fun c => '0' ≤ c && c ≤ '7') <|>
    based ['0', 'b'] 2 (fun c => c = '0' || c = '1') <|> (do
      let (negative, ds) ← decimal
      let n : Int := ofDigits 10 ds
      pure (if negative then -n else n))
  if fitsWord n then pure (.integer n) else fail

def fraction : Scan Text := do
  word ['.']
  digitRun Char.isDigit

def exponent : Scan Int := do
  let _ ← next? fun c => c = 'e' || c = 'E'
  let negative ← sign
  let n : Int := ofDigits 10 (← digitRun Char.isDigit)
  pure (if negative then -n else n)

/-- Whether `digits · 10 ^ power` is too large for a float: at least half a step beyond the greatest
one. -/
def overflows (digits : Nat) (power : Int) : Bool :=
  let limit := (1 <<< 1024) - (1 <<< 970)
  if digits = 0 then false
  else if 0 ≤ power then
    if 400 < power then true else limit ≤ digits * Nat.pow 10 power.toNat
  else
    let size : Int := (Text.Decimal.digits digits).length
    if size + power < 300 then false else limit * Nat.pow 10 (-power).toNat ≤ digits

def float : Scan Value := (do
    let (negative, whole) ← decimal
    let part ← maybe fraction
    let power ← maybe exponent
    if part.isNone ∧ power.isNone then fail
    else
      let part := part.getD []
      let digits := ofDigits 10 (whole ++ part)
      if !negative ∧ overflows digits (power.getD 0 - part.length) then fail else pure .float) <|>
  do
    let _ ← sign
    word ['i', 'n', 'f'] <|> word ['n', 'a', 'n']
    pure .float

/-! ### Dates and times -/

/-- A number of two digits in a range. -/
def pair (low high : Nat) : Scan Nat := do
  let n := ofDigits 10 (← exactly 2 Char.isDigit)
  if low ≤ n ∧ n ≤ high then pure n else fail

def monthDays (year month : Nat) : Nat :=
  if month = 2 then
    if year % 4 = 0 ∧ (year % 100 ≠ 0 ∨ year % 400 = 0) then 29 else 28
  else if month = 4 ∨ month = 6 ∨ month = 9 ∨ month = 11 then 30
  else 31

def date : Scan Unit := do
  let year := ofDigits 10 (← exactly 4 Char.isDigit)
  word ['-']
  let month ← pair 1 12
  word ['-']
  let _ ← pair 1 (monthDays year month)

def time : Scan Unit := do
  let _ ← pair 0 23
  word [':']
  let _ ← pair 0 59
  word [':']
  let _ ← pair 0 60
  let _ ← maybe do
    word ['.']
    let _ ← next? Char.isDigit
    run Char.isDigit

def offset : Scan Unit := (do let _ ← next? fun c => c = 'Z' || c = 'z') <|> do
  let _ ← next? fun c => c = '+' || c = '-'
  let _ ← pair 0 23
  word [':']
  let _ ← pair 0 59

def moment : Scan Value := do
  (do
    date
    let _ ← maybe do
      let _ ← next? fun c => c = 'T' || c = 't' || c = ' '
      time
      let _ ← maybe offset) <|> time
  pure .moment

/-! ### Values -/

def items (v : Scan Value) : Scan Value := do
  let item : Scan Value := do
    blank
    let a ← v
    blank
    pure a
  word ['[']
  let first ← maybe item
  let more ← if first.isSome then many (do word [',']; item) else pure []
  if first.isSome then let _ ← maybe (word [','])
  blank
  word [']']
  pure (.array (first.toList ++ more))

def pairs (v : Scan Value) : Scan Value := do
  let pair : Scan (List Text × Value) := do
    let path ← key
    word ['=']
    spaces
    let a ← v
    spaces
    pure (path, a)
  word ['\x7b']
  spaces
  let first ← maybe pair
  let more ← if first.isSome then many (do word [',']; pair) else pure []
  word ['\x7d']
  match (first.toList ++ more).foldlM (fun es p => Entries.addAt? es p.1 p.2) [] with
  | some es => pure (.table .inline es)
  | none => fail

/-- A value that has no parts. -/
def scalar : Scan Value := do
  match ← peek with
  | some '"' | some '\'' => do pure (.string (← string))
  | some 't' => do word "true".toList; pure (.boolean true)
  | some 'f' => do word "false".toList; pure (.boolean false)
  | _ => moment <|> float <|> integer

/-- A value with arrays and tables inside each other up to a depth. -/
def value : Nat → Scan Value
  | 0 => scalar
  | depth + 1 => do
    match ← peek with
    | some '[' => items (value depth)
    | some '\x7b' => pairs (value depth)
    | _ => scalar

end Patchwork.Toml
