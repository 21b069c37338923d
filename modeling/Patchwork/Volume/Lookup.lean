import Patchwork.Fault
import Patchwork.Text.Utf8
import Patchwork.Volume.Basic
import Patchwork.Volume.Path

/-!
# Finding what a path names

A path is followed part by part from the working directory or the root.  Symbolic links on the way
are followed, forty of them at most; what becomes of the last part depends on what the path is
followed for.
-/
namespace Patchwork

/-- One part of a path that is followed on a volume. -/
inductive Step
  | stay
  | up
  | down (name : Text)
  /-- The slash at the end of a path, which asks for a directory. -/
  | slash
  deriving DecidableEq, Repr

namespace Step

def ofPart? (part : Text) : Option Step :=
  if part = [] then none
  else if part = ['.'] then some stay
  else if part = ['.', '.'] then some up
  else some (down part)

def ofPath (path : Text) : List Step :=
  (Path.parts path).filterMap ofPart? ++ if path.getLast? = some '/' then [slash] else []

end Step

/-- What a path is followed for. -/
inductive Aim
  /-- What has the name, even if it is a link. -/
  | entry
  /-- What the name leads to, through links. -/
  | item
  /-- A file to be written, which is made if it is missing; a slash behind its name is refused, in the
  path as in a link that it leads to. -/
  | file
  deriving DecidableEq, Repr

namespace Volume

/-- The greatest length of a name, in bytes. -/
def nameLimit : Nat := 255

/-- The greatest length of a path, in bytes. -/
def pathLimit : Nat := 4095

def linkLimit : Nat := 40

/-- Follows steps from `place`; `onLink` goes on where a link is to be followed.  The last step may
lead to a place where nothing stands yet. -/
def walk (v : Volume) (onLink : Place → Text → List Step → Except OsError Place) (aim : Aim)
    (place : Place) : List Step → Except OsError Place
  | [] => .ok place
  | s :: steps =>
    match v.item? place with
    | some .dir =>
      match s with
      | .stay | .slash => walk v onLink aim place steps
      | .up => walk v onLink aim place.dropLast steps
      | .down name =>
        if aim = .file ∧ steps = [.slash] then .error .isDirectory
        else if nameLimit < (Text.Utf8.encode name).length then .error .nameTooLong
        else match v.item? (place ++ [name]) with
          | none => if steps = [] then .ok (place ++ [name]) else .error .noEntry
          | some (.link target) =>
            if steps = [] ∧ aim = .entry then .ok (place ++ [name]) else onLink place target steps
          | some _ => walk v onLink aim (place ++ [name]) steps
    | some _ => .error .notDirectory
    | none => .error .noEntry

/-- Where a path starts. -/
def start (place : Place) (path : Text) : Place := if Path.isAbsolute path then [] else place

/-- Follows steps through at most `links` links. -/
def walkLinks (v : Volume) (aim : Aim) : Nat → Place → List Step → Except OsError Place
  | 0 => walk v (fun _ _ _ => .error .linkLoop) aim
  | links + 1 => walk v (fun place target steps =>
      walkLinks v aim links (start place target) (Step.ofPath target ++ steps)) aim

/-- The place that a path names, at which something may stand or not. -/
def locate (v : Volume) (aim : Aim) (path : Text) : Except IoError Place :=
  if '\x00' ∈ path then .error .nulInName
  else if path = [] then .error (.os .noEntry)
  else if pathLimit < (Text.Utf8.encode path).length then .error (.os .nameTooLong)
  else (walkLinks v aim linkLimit (start v.here path) (Step.ofPath path)).mapError .os

/-- The place at which something stands, and what it is. -/
def find (v : Volume) (aim : Aim) (path : Text) : Except IoError (Place × Item) :=
  match v.locate aim path with
  | .ok p => match v.item? p with
    | some i => .ok (p, i)
    | none => .error (.os .noEntry)
  | .error e => .error e

def isFile (v : Volume) (path : Text) : Bool :=
  match v.find .item path with
  | .ok (_, .file _) => true
  | _ => false

def isDir (v : Volume) (path : Text) : Bool :=
  match v.find .item path with
  | .ok (_, .dir) => true
  | _ => false

def isPresent (v : Volume) (path : Text) : Bool := (v.find .item path).isOk

/-- The place of what stands at a path, free of links. -/
def canonical (v : Volume) (path : Text) : Except IoError Place :=
  (v.find .item path).map (·.1)

/-- Opens a file for reading, and answers what it holds now. -/
def openFile (v : Volume) (path : Text) : Except IoError (Opened × Bytes) :=
  match v.find .item path with
  | .ok (p, .file content) => .ok (v.opened p, content)
  | .ok _ => .error (.os .isDirectory)
  | .error e => .error e

def read (v : Volume) (path : Text) : Except IoError Bytes := (v.openFile path).map (·.2)

def readText (v : Volume) (path : Text) : Except IoError Text :=
  match v.read path with
  | .ok content => match Text.Utf8.decode? content with
    | some t => .ok t
    | none => .error .notText
  | .error e => .error e

end Volume

end Patchwork
