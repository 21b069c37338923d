import Patchwork.Text.Basic

/-!
# TOML values

Tables remember how they came about, because that decides what may be added to them later.
-/
namespace Patchwork.Toml

inductive TableForm
  /-- Written in braces; nothing can be added. -/
  | inline
  /-- Written under a header of its own. -/
  | header
  /-- Made by a key with dots. -/
  | dotted
  /-- Made by the header of a table below it. -/
  | implied
  deriving DecidableEq, Repr

inductive Value
  | string (text : Text)
  | integer (number : Int)
  | float
  | boolean (value : Bool)
  | moment
  | array (items : List Value)
  | table (form : TableForm) (entries : List (Text × Value))
  /-- Tables under double headers of one name, last one first. -/
  | tables (items : List (List (Text × Value)))

abbrev Entries := List (Text × Value)

namespace Entries

def get? (es : Entries) (key : Text) : Option Value := es.lookup key

def set (es : Entries) (key : Text) (v : Value) : Entries :=
  (key, v) :: es.filter (·.1 ≠ key)

/-- Adds a value under a key that is not there yet. -/
def add? (es : Entries) (key : Text) (v : Value) : Option Entries :=
  if (es.get? key).isSome then none else some ((key, v) :: es)

/-- Changes the table at the end of a path.  Tables that are missing on the way are made in the given
form.  A path of a key with dots goes through no table that has a header, and ends in a dotted one if
it is not empty. -/
def within? (form : TableForm) (change : Entries → Option Entries) :
    List Text → Entries → Option Entries
  | [], es => change es
  | key :: path, es =>
    match es.get? key with
    | none => (within? form change path []).map fun inner => es.set key (.table form inner)
    | some (.table old inner) =>
      if old = .inline ∨ (form = .dotted ∧ old = .header) ∨
          (form = .dotted ∧ path = [] ∧ old ≠ .dotted) then none
      else (within? form change path inner).map fun inner => es.set key (.table old inner)
    | some (.tables (inner :: others)) =>
      if form = .dotted ∧ path = [] then none
      else (within? form change path inner).map fun inner => es.set key (.tables (inner :: others))
    | some _ => none

/-- Adds the value of a key with dots. -/
def addAt? (es : Entries) (path : List Text) (v : Value) : Option Entries :=
  match path.getLast? with
  | some key => within? .dotted (·.add? key v) path.dropLast es
  | none => none

end Entries

end Patchwork.Toml
