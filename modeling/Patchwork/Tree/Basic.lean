import Patchwork.Volume.Disk

/-!
# Directory trees

Listing, clearing and copying the regular files of a directory, and the check that a directory which
will be cleared has nothing to do with others.
-/
namespace Patchwork.Tree

/-- The regular files below a place, by their paths from there, sorted. -/
def filesAt (v : Volume) (p : Place) : List Text :=
  Text.sort ((v.below p).filterMap fun q =>
    match q.2 with
    | .file _ => some (Path.ofParts q.1)
    | _ => none)

/-- The regular files below a directory, by their paths from there, sorted. -/
def listFiles (root : Text) : Disk Fault (List Text) :=
  Disk.ask fun v =>
    match v.find .item root with
    | .ok (p, .dir) => .ok (filesAt v p)
    | _ => .error (.notFound root)

/-- Takes away everything inside a directory, or makes it. -/
def clearDir (dir : Text) : Disk Fault Unit := fun v =>
  match v.find .item dir with
  | .ok (p, .dir) => (.ok (), v.clear p)
  | .ok _ => (.error (.io (.os .notDirectory)), v)
  | .error _ => Disk.io (Disk.createDirAll dir) v

/-- The nearest of some paths that is there, and the names on the way from it to the first one. -/
def nearest (v : Volume) (missing : List Text) : List Text → Text × List Text
  | [] => ([], missing)
  | path :: above =>
    if v.isPresent path then (path, missing)
    else match Path.fileName? path, above with
      | some name, _ :: _ => nearest v (name :: missing) above
      | _, _ => (path, missing)

/-- The place that a path names, free of links, whether something stands there or not. -/
def canonical (v : Volume) (path : Text) : Except Fault Place :=
  let (there, missing) := nearest v [] (path :: (Path.chain path).drop 1)
  if there = [] then .ok (v.here ++ missing)
  else match v.canonical there with
    | .ok p => .ok (p ++ missing)
    | .error e => .error (.ofIo there e)

/-- Neither place is the other or lies inside it. -/
def apart (p q : Place) : Bool := !(p.isPrefixOf q || q.isPrefixOf p)

/-- Fails if the directory `dir`, which is to be cleared, is, holds or lies inside one of `kept`. -/
def ensureDisjoint (dir : Text) (kept : List Text) : Disk Fault Unit :=
  Disk.ask fun v =>
    match canonical v dir with
    | .error e => .error e
    | .ok p => kept.foldl (fun r other =>
        match r with
        | .error e => .error e
        | .ok () => match canonical v other with
          | .error e => .error e
          | .ok q => if apart p q then .ok () else .error (.config (.overlap dir other))) (.ok ())

/-- Empties or makes the file at `target`, and then fills it with what `source` holds. -/
def copyFile (source target : Text) : Disk IoError Unit := do
  let _ ← Disk.read source
  Disk.write target []
  let content ← Disk.read source
  Disk.write target content

def copyFiles (source target : Text) : List Text → Disk Fault Unit
  | [] => pure ()
  | file :: files => do
    let path := Path.join target file
    match Path.parent? path with
    | some dir => Disk.io (Disk.createDirAll dir)
    | none => pure ()
    Disk.io (copyFile (Path.join source file) path)
    copyFiles source target files

/-- Copies every regular file of a tree to the same path below `target`, and answers the paths. -/
def copyTree (source target : Text) : Disk Fault (List Text) := do
  let files ← listFiles source
  copyFiles source target files
  pure files

end Patchwork.Tree
