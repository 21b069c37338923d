import Patchwork.Fault
import Patchwork.Glob.Expression

/-!
# Sets of globs

A set matches what any of its patterns matches, and the empty set matches everything.
-/
namespace Patchwork

/-- A pattern with the expression that it stands for. -/
structure Glob where
  pattern : Text
  items : List Glob.Item

namespace Glob

/-- The greatest size of an expression, in bytes. -/
def sizeLimit : Nat := 10485760

/-- The size that an expression is taken to have: what a wildcard needs outweighs all else. -/
def size (is : List Item) : Nat := 500 * is.countP Item.many

def compile (pattern : Text) : Except Fault Glob :=
  match parse? (source pattern) with
  | some is =>
    if size is ≤ sizeLimit then .ok ⟨pattern, is⟩
    else .error (.invalidPattern pattern (.tooLarge sizeLimit))
  | none => .error (.invalidPattern pattern .unreadable)

def test (g : Glob) (path : Text) : Bool := accepts g.items (rooted path)

end Glob

/-- Globs with pairwise different patterns, sorted by them. -/
structure FilterSet where
  globs : List Glob

namespace FilterSet

/-- The set that matches every path. -/
def all : FilterSet := ⟨[]⟩

/-- Puts a glob at its place, unless its pattern is there already. -/
def insert (g : Glob) : List Glob → List Glob
  | [] => [g]
  | f :: fs =>
    if f.pattern = g.pattern then f :: fs
    else if Text.before g.pattern f.pattern then g :: f :: fs
    else f :: insert g fs

def compileAll : List Text → Except Fault (List Glob)
  | [] => .ok []
  | p :: ps =>
    match Glob.compile p with
    | .ok g => (compileAll ps).map (g :: ·)
    | .error fault => .error fault

def patterns (s : FilterSet) : List Text := s.globs.map Glob.pattern

/-- The set of some patterns, in any order and with any repetitions. -/
def ofPatterns (ps : List Text) : Except Fault FilterSet :=
  match compileAll ps with
  | .ok gs =>
    let s : FilterSet := ⟨gs.foldl (fun fs g => insert g fs) []⟩
    if s.globs.foldr (Glob.size ·.items + ·) 0 ≤ Glob.sizeLimit then .ok s
    else .error (.invalidPattern ([',', ' '].intercalate s.patterns) (.tooLarge Glob.sizeLimit))
  | .error fault => .error fault

def isEmpty (s : FilterSet) : Bool := s.globs.isEmpty

def size (s : FilterSet) : Nat := s.globs.length

def accepts (s : FilterSet) (path : Text) : Bool := s.isEmpty || s.globs.any (·.test path)

end FilterSet

end Patchwork
