import Patchwork.Toml.Scan

/-!
# TOML documents

A document is read line by line; headers say to which table the keys after them belong.
-/
namespace Patchwork.Toml

open Scan

inductive Line
  | blank
  | pair (path : List Text) (value : Value)
  | header (path : List Text)
  | doubleHeader (path : List Text)

def line : Scan Line := do
  spaces
  (do
    word ['[', '[']
    let path ← key
    word [']', ']']
    endOfLine
    pure (.doubleHeader path)) <|>
  (do
    word ['[']
    let path ← key
    word [']']
    endOfLine
    pure (.header path)) <|>
  (do
    let path ← key
    word ['=']
    spaces
    let v ← value depthLimit
    endOfLine
    pure (.pair path v)) <|>
  (do
    endOfLine
    pure .blank)

/-- The lines of a whole text. -/
def lines? (t : Text) : Option (List Line) := go (t.length + 1) t
where
  go : Nat → Text → Option (List Line)
    | 0, _ => none
    | fuel + 1, t =>
      if t = [] then some []
      else match line t with
        | some (l, rest) => (go fuel rest).map (l :: ·)
        | none => none

/-- What has been read: the tables that are complete, and the one that is being filled. -/
structure State where
  root : Entries
  path : List Text
  double : Bool
  current : Entries

namespace State

def start : State := ⟨[], [], false, []⟩

/-- Puts the table that is being filled to its place. -/
def finish? (s : State) : Option Entries :=
  match s.path.getLast? with
  | none => some (s.current ++ s.root)
  | some name =>
    Entries.within? .implied (fun es =>
      match es.get? name with
      | none => some (es.set name (if s.double then .tables [s.current] else .table .header s.current))
      | some (.tables items) => if s.double then some (es.set name (.tables (s.current :: items))) else none
      | some _ => none) s.path.dropLast s.root

/-- The tables on the way to a header's table are made, and a table there that is only implied is
taken out, to be filled. -/
def open? (s : State) (path : List Text) (double : Bool) : Option State := do
  let root ← s.finish?
  let name ← path.getLast?
  let parents := path.dropLast
  let found ← lookup parents root name
  match found, double with
  | none, _ => pure ⟨root, path, double, []⟩
  | some (.tables _), true => pure ⟨root, path, true, []⟩
  | some (.table .implied es), false => do
    let root ← Entries.within? .implied (fun es => some (es.filter (·.1 ≠ name))) parents root
    pure ⟨root, path, false, es⟩
  | _, _ => none
where
  /-- What stands under a name in the table at the end of a path; fails where no table can be. -/
  lookup : List Text → Entries → Text → Option (Option Value)
    | [], es, name => some (es.get? name)
    | key :: path, es, name =>
      match es.get? key with
      | none => some none
      | some (.table form inner) => if form = .inline then none else lookup path inner name
      | some (.tables (inner :: _)) => lookup path inner name
      | some _ => none

def step? (s : State) : Line → Option State
  | .blank => some s
  | .pair path v => (s.current.addAt? path v).map fun es => { s with current := es }
  | .header path => s.open? path false
  | .doubleHeader path => s.open? path true

end State

/-- The entries of a document; a byte order mark in front is passed over. -/
def parse? (t : Text) : Option Entries := do
  let lines ← lines? (if t.head? = some '\ufeff' then t.drop 1 else t)
  let s ← lines.foldlM State.step? State.start
  s.finish?

end Patchwork.Toml
