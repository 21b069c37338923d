import Patchwork.Text.Basic

/-!
# Entries

Entries of an archive are named by paths that start with a slash and do not end with one.
-/
namespace Patchwork

inductive EntryKind
  | dir
  | file
  deriving DecidableEq, Repr

/-- An entry with its content; a directory has none. -/
structure Entry where
  path : Text
  kind : EntryKind
  data : Bytes
  deriving DecidableEq, Repr

namespace Entry

def directory (path : Text) : Entry := ⟨path, .dir, []⟩

def file (path : Text) (data : Bytes) : Entry := ⟨path, .file, data⟩

/-- A path without the slashes in front. -/
def relative (path : Text) : Text := path.dropWhile (· = '/')

/-- The path of an entry, whatever slashes stand at the ends of its name. -/
def normalize (name : Text) : Text := '/' :: Text.dropBoth (· = '/') name

/-- The parts of a path in front of its slashes, the outermost first, except for the first slash. -/
def ancestors (path : Text) : List Text :=
  (List.range path.length).filterMap fun i =>
    if 0 < i ∧ path[i]? = some '/' then some (path.take i) else none

/-- The directories that lead to a path, and the path itself unless it is the root. -/
def chain (path : Text) : List Text :=
  let path := normalize path
  ancestors path ++ if path = ['/'] then [] else [path]

/-- The part of a path in front of its last slash, unless that comes first. -/
def parent? (path : Text) : Option Text :=
  match Text.cutLast? '/' path with
  | some (dir, _) => if dir = [] then none else some dir
  | none => none

end Entry

end Patchwork
