import Patchwork.Volume.Lookup

/-!
# Changing a volume

Each operation here succeeds as a whole or leaves the volume as it is.
-/
namespace Patchwork.Volume

def withoutSlashes (path : Text) : Text :=
  let t := Text.dropEnd (· = '/') path
  if t = [] then path else t

/-- The place of a name that may be new.  The last part has to be a name. -/
def locateName (v : Volume) (path : Text) : Except IoError Place :=
  if '\x00' ∉ path ∧ pathLimit < (Text.Utf8.encode path).length then .error (.os .nameTooLong)
  else v.locate .entry (withoutSlashes path)

def endsInSlash (path : Text) : Bool := path.getLast? = some '/'

/-- Writes a file, through links, whether it is there or not. -/
def write (v : Volume) (path : Text) (content : Bytes) : Except IoError Volume :=
  match v.locate .file path with
  | .ok p =>
    if v.item? p = some .dir then .error (.os .isDirectory)
    else .ok (v.put p (.file content))
  | .error e => .error e

/-- Makes an empty file where nothing stands, not even a link. -/
def createNew (v : Volume) (path : Text) : Except IoError Volume :=
  match v.locate .entry path with
  | .ok p => if (v.item? p).isSome then .error (.os .occupied) else .ok (v.put p (.file []))
  | .error e => .error e

def makeDir (v : Volume) (path : Text) : Except IoError Volume :=
  match v.locateName path with
  | .ok p => if (v.item? p).isSome then .error (.os .occupied) else .ok (v.put p .dir)
  | .error e => .error e

def makeLink (v : Volume) (path target : Text) : Except IoError Volume :=
  if '\x00' ∈ target then .error .nulInName
  else if target = [] then .error (.os .noEntry)
  else match v.locate .entry path with
  | .ok p => if (v.item? p).isSome then .error (.os .occupied) else .ok (v.put p (.link target))
  | .error e => .error e

/-- Takes away a file or a link. -/
def removeFile (v : Volume) (path : Text) : Except IoError Volume :=
  match v.find .entry (withoutSlashes path) with
  | .ok (_, .dir) => .error (.os .isDirectory)
  | .ok (p, _) => if endsInSlash path then .error (.os .notDirectory) else .ok (v.erase p)
  | .error e => .error e

/-- Takes away everything inside the directory at a place. -/
def clear (v : Volume) (p : Place) : Volume :=
  v.remove fun q => p.isPrefixOf q && p.length < q.length

/-- Whether the last part of a path is a name, and not the current directory or the one above. -/
def endsInName (path : Text) : Bool :=
  match (Path.parts (withoutSlashes path)).getLast? with
  | some part => part ≠ [] && part ≠ ['.'] && part ≠ ['.', '.']
  | none => false

/-- Gives the file at the first path the name of the second, instead of what had it. -/
def renameFile (v : Volume) (source target : Text) : Except IoError Volume :=
  if '\x00' ∈ source ++ target then .error (.os .invalidArgument)
  else match v.locateName source, v.locateName target with
  | .ok p, .ok q =>
    if !endsInName target then .error (.os .busy)
    else match v.item? p with
      | some (.file content) =>
        if endsInSlash target then .error (.os .notDirectory)
        else if v.item? q = some .dir then .error (.os .isDirectory)
        else .ok (((v.erase p).erase q).put q (.file content))
      | some _ => .error (.os .isDirectory)
      | none => .error (.os .noEntry)
  | .error e, _ => .error e
  | _, .error e => .error e

end Patchwork.Volume
