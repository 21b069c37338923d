import Patchwork.Command.Run
import Patchwork.Volume.Revision

/-!
# The program

A command works on the files whose paths are read from standard input, one a line; a path that ends
in a slash is a directory.  They make up the volume that the command is run on, and what it changed
there is carried out in the end.
-/
namespace Patchwork.Program

open Text (str)

partial def readLines (input : IO.FS.Stream) (lines : List String) : IO (List String) := do
  let line ← input.getLine
  if line.isEmpty then pure lines.reverse
  else readLines input ((if line.endsWith "\n" then (line.dropEnd 1).toString else line) :: lines)

/-- Puts a file with the directories above it on a volume. -/
def place (path : Text) (content : ByteArray) : Disk IoError Unit := do
  match Path.parent? path with
  | some above => Disk.createDirAll above
  | none => pure ()
  Disk.write path content.toList

/-- Takes a file or directory over onto a volume; a path that cannot be read names nothing. -/
def takeOver (v : Volume) (path : String) : IO Volume := do
  if path.endsWith "/" then pure (Disk.on v (Disk.createDirAll path.toList)).2
  else try
    let content ← IO.FS.readBinFile path
    pure (Disk.on v (place path.toList content)).2
  catch _ => pure v

def carryOut (r : Volume.Revision) : IO Unit :=
  match r with
  | .removeDir p => IO.FS.removeDir (str (Volume.pathOf p))
  | .removeFile p => IO.FS.removeFile (str (Volume.pathOf p))
  | .makeDir p => IO.FS.createDir (str (Volume.pathOf p))
  | .write p content => IO.FS.writeBinFile (str (Volume.pathOf p)) ⟨content.toArray⟩

/-- A volume with only the working directory, as an absolute path names it. -/
def bare (workingDir : Text) : Volume :=
  let v := (Disk.on Volume.empty (Disk.createDirAll workingDir : Disk IoError Unit)).2
  { v with here := Path.steps workingDir }

def tell (o : Outcome) : IO Unit :=
  match o with
  | .usage .version => IO.print versionText
  | .usage u => if u.isAsked then IO.print u.message else IO.eprint u.message
  | .done output => IO.print output
  | .failed f => IO.eprintln f.message

end Patchwork.Program

open Patchwork Program

def main (args : List String) : IO UInt32 := do
  let workingDir := (← IO.getEnv "PWD").getD "/"
  let user : UserDirs :=
    ⟨(← IO.getEnv "HOME").map String.toList, (← IO.getEnv "XDG_CONFIG_HOME").map String.toList⟩
  let paths ← readLines (← IO.getStdin) []
  let before ← paths.foldlM takeOver (bare workingDir.toList)
  let (outcome, after) := runArguments user before (args.map String.toList)
  (Volume.revisions before after).forM carryOut
  tell outcome
  pure (UInt32.ofNat outcome.exitCode)
