import Patchwork.Volume.Change

/-!
# Programs on a volume

A program reads and changes a volume and may fail; what it changed before it failed stays changed.
-/
namespace Patchwork

/-- A program that answers `α` or fails with `ε`, and leaves a volume either way. -/
abbrev Disk (ε α : Type) := ExceptT ε (StateM Volume) α

namespace Disk

variable {ε α : Type}

/-- Runs a program on a volume. -/
def on (v : Volume) (d : Disk ε α) : Except ε α × Volume := d.run v

/-- Looks at the volume. -/
def ask (f : Volume → Except ε α) : Disk ε α := fun v => (f v, v)

/-- Changes the volume, or leaves it and fails. -/
def change (f : Volume → Except ε Volume) : Disk ε Unit := fun v =>
  match f v with
  | .ok w => (.ok (), w)
  | .error e => (.error e, v)

/-- Changes the volume. -/
def update (f : Volume → Volume) : Disk ε Unit := fun v => (.ok (), f v)

def ofExcept (r : Except ε α) : Disk ε α := fun v => (r, v)

/-- The same program with its failures as faults. -/
def io (d : Disk IoError α) : Disk Fault α := ExceptT.adapt Fault.io d

/-- The same program with its failures as faults, absence being told by naming `path`. -/
def naming (path : Text) (d : Disk IoError α) : Disk Fault α := ExceptT.adapt (Fault.ofIo path) d

/-- The program's outcome as an answer; the program itself does not fail. -/
def outcome (d : Disk ε α) : Disk Fault (Except ε α) := fun v =>
  match d v with
  | (r, w) => (.ok r, w)

@[simp] theorem on_ask (v : Volume) (f : Volume → Except ε α) : on v (ask f) = (f v, v) := rfl

@[simp] theorem on_update (v : Volume) (f : Volume → Volume) :
    on v (update f : Disk ε Unit) = (.ok (), f v) := rfl

theorem on_bind {β : Type} (v : Volume) (d : Disk ε α) (f : α → Disk ε β) :
    on v (d >>= f) = match on v d with
      | (.ok a, w) => on w (f a)
      | (.error e, w) => (.error e, w) := by
  simp only [on, ExceptT.run, bind, ExceptT.bind, ExceptT.mk, ExceptT.bindCont, StateT.bind]
  cases h : d v with
  | mk r w => cases r <;> rfl

/-- Makes the first of some directories, given with the ones above it, the nearest first. -/
def makeDirs : List Text → Disk IoError Unit
  | [] => ofExcept (.error (.stated .other "failed to create whole tree".toList))
  | path :: above => fun v =>
    if path = [] then (.ok (), v)
    else match v.makeDir path with
      | .ok w => (.ok (), w)
      | .error e =>
        if e.kind = .notFound then
          match makeDirs above v with
          | (.ok _, w) => match w.makeDir path with
            | .ok w' => (.ok (), w')
            | .error e' => if w.isDir path then (.ok (), w) else (.error e', w)
          | (.error e', w) => (.error e', w)
        else if v.isDir path then (.ok (), v)
        else (.error e, v)

/-- Makes a directory and those above it, unless they are there. -/
def createDirAll (path : Text) : Disk IoError Unit := makeDirs (path :: (Path.chain path).drop 1)

def write (path : Text) (content : Bytes) : Disk IoError Unit := change (·.write path content)

def read (path : Text) : Disk IoError Bytes := ask (·.read path)

def readText (path : Text) : Disk IoError Text := ask (·.readText path)

/-- Fails unless there is a directory at the path. -/
def requireDir (path : Text) : Disk Fault Unit :=
  ask fun v => if v.isDir path then .ok () else .error (.notFound path)

/-- The name of the temporary file with some number.  It starts with a dot, and the digits are
scattered: it is not a name that is given to other files. -/
def tempName (n : Nat) : Text := ".tmp".toList ++ Nat.toDigits 16 ((n + 1) * 0x9e3779b1 % UInt32.size)

/-- The first number, from the next one on, whose name is not taken in a directory. -/
def freshSerial (v : Volume) (dir : Text) : Nat :=
  let taken (n : Nat) : Bool := (v.find .entry (Path.join dir (tempName n))).isOk
  let numbers := (List.range (v.items.length + 1)).map (v.serial + ·)
  (numbers.find? fun n => !taken n).getD v.serial

/-- Makes an empty file for the time being, and answers its path.  No path is answered twice. -/
def createTemp (dir : Text) : Disk IoError Text := fun v =>
  let n := freshSerial v dir
  let path := Path.join dir (tempName n)
  match { v with serial := n + 1 }.createNew path with
  | .ok w => (.ok path, w)
  | .error e => (.error e, v)

/-- The volume without the file at a path, if there is one. -/
def without (path : Text) (v : Volume) : Volume :=
  match v.removeFile path with
  | .ok w => w
  | .error _ => v

/-- Takes away a file if it is there. -/
def discard (path : Text) : Disk Fault Unit := update (without path)

/-- Puts content into a temporary file and gives it its name.  If that fails, the file is taken
away. -/
def persist (temp path : Text) (content : Bytes) : Disk IoError Unit := fun v =>
  let filled := match v.find .entry temp with
    | .ok (p, .file _) => v.put p (.file content)
    | _ => v
  match filled.renameFile temp path with
  | .ok w => (.ok (), w)
  | .error e => (.error e, without temp filled)

/-- Replaces a file as a whole: no reader sees a part of the content. -/
def writeAtomic (path : Text) (content : Bytes) : Disk Fault Unit := do
  let dir := Path.directory path
  io (createDirAll dir)
  let temp ← io (createTemp dir)
  io (persist temp path content)

end Disk

end Patchwork
