import Patchwork.Config.Document
import Patchwork.Volume.Disk

/-!
# Configuration files

A configuration is read from a file that is named, or from the user's own file, which may be missing.
-/
namespace Patchwork

/-- The directories of a user, as far as they are known. -/
structure UserDirs where
  home? : Option Text
  /-- Where settings are kept; only an absolute path counts. -/
  settings? : Option Text

namespace UserDirs

/-- The directory below which every program keeps its settings. -/
def settingsDir? (u : UserDirs) : Option Text :=
  match u.home?.filter (· ≠ []) with
  | none => none
  | some home => some ((u.settings?.filter Path.isAbsolute).getD (Path.join home ".config".toList))

end UserDirs

namespace Config

def programName : Text := "modforge".toList

def fileName : Text := programName ++ ".toml".toList

/-- The user's own configuration file. -/
def defaultPath (u : UserDirs) : Except Fault Text :=
  match u.settingsDir? with
  | some dir => .ok (Path.join (Path.join dir programName) fileName)
  | none => .error (.config .noHome)

structure Loaded where
  config : Config
  path : Text
  /-- Whether the file was there. -/
  present : Bool
  deriving DecidableEq, Repr

/-- The path of the file to read: one that is named has to be there. -/
def source (u : UserDirs) (v : Volume) : Option Text → Except Fault Text
  | some path => if v.isFile path then .ok path else .error (.notFound path)
  | none => defaultPath u

/-- The configuration in a file, or the one by default if there is no file. -/
def readAt (v : Volume) (path : Text) : Except Fault Config :=
  if v.isFile path then
    match v.readText path with
    | .ok document => parse document
    | .error e => .error (.io e)
  else .ok {}

def loadFrom (u : UserDirs) (v : Volume) (explicit? : Option Text) : Except Fault Loaded := do
  let path ← source u v explicit?
  let c ← readAt v path
  c.validate
  pure ⟨c, path, v.isFile path⟩

def load (u : UserDirs) (explicit? : Option Text) : Disk Fault Loaded :=
  Disk.ask (loadFrom u · explicit?)

/-- Writes a configuration to a file.  The directories above it are made first, and stay if the
configuration cannot be written. -/
def save (path : Text) (c : Config) : Disk Fault Unit := do
  match Path.parent? path with
  | some dir => Disk.io (Disk.createDirAll dir)
  | none => pure ()
  let document ← Disk.ofExcept c.print
  Disk.io (Disk.write path (Text.Utf8.encode document))

end Config

end Patchwork
