import Patchwork.Text.Basic

/-!
# Path texts

Paths are texts whose parts are separated by slashes.  Nothing here looks at a volume.
-/
namespace Patchwork.Path

def parts (path : Text) : List Text := path.splitOn '/'

def ofParts (ps : List Text) : Text := ['/'].intercalate ps

def isAbsolute (path : Text) : Bool := path.head? = some '/'

/-- The path `rest` below `base`, or `rest` alone if it is absolute. -/
def join (base rest : Text) : Text :=
  if isAbsolute rest ∨ base = [] then rest
  else if base.getLast? = some '/' then base ++ rest
  else base ++ '/' :: rest

/-- Whether the part at index `i` counts: empty parts do not, nor dots that do not come first. -/
def isReal (i : Nat) (part : Text) : Bool := part ≠ [] && (i = 0 || part ≠ ['.'])

/-- The path without what does not count at its end, then its ancestors, the nearest first.  The last
one is the root, or the empty path if the path is relative. -/
def chain (path : Text) : List Text :=
  let ps := parts path
  ((List.range ps.length).reverse.filter fun i => isReal i (ps.getD i [])).map
      (fun i => ofParts (ps.take (i + 1))) ++
    [if isAbsolute path then ['/'] else []]

def parent? (path : Text) : Option Text := (chain path)[1]?

/-- The last part that counts, unless it stands for a directory above or for the current one. -/
def fileName? (path : Text) : Option Text :=
  ((parts path).mapIdx fun i p => (i, p)).reverse.find? (fun q => isReal q.1 q.2) |>.bind fun q =>
    if q.2 = ['.', '.'] ∨ q.2 = ['.'] then none else some q.2

/-- The directory to put a file beside the one at `path`. -/
def directory (path : Text) : Text :=
  match parent? path with
  | some dir => if dir = [] then ['.'] else dir
  | none => ['.']

/-- The names in a path, joined by single slashes. -/
def slashed (path : Text) : Text :=
  ofParts ((parts path).filter fun p => p ≠ [] && p ≠ ['.'] && p ≠ ['.', '.'])

/-- The parts of a relative path that are followed. -/
def steps (relative : Text) : List Text := (parts relative).filter fun p => p ≠ [] && p ≠ ['.']

/-- Parts that lead out of a directory, or that may do so on some system. -/
def isUnsafe (part : Text) : Bool := part = ['.', '.'] || part.contains '\\' || part.contains ':'

/-- A relative path followed from `root`, if it stays strictly below. -/
def resolve? (root relative : Text) : Option Text :=
  let ps := steps relative
  if ps = [] ∨ ps.any isUnsafe then none else some (join root (ofParts ps))

end Patchwork.Path
