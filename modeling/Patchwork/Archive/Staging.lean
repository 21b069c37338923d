import Patchwork.Archive.Handle

/-!
# Staging

Members are added to an archive by writing all of it anew beside it.  The new archive takes the place
of the old one when the handle is closed, and is taken away if the handle is discarded.
-/
namespace Patchwork

/-- A program on a volume that stages members through a handle.  What it staged before it failed stays
staged. -/
abbrev Staging (α : Type) := ExceptT Fault (StateT Handle (StateM Volume)) α

namespace Staging

variable {α : Type}

/-- Runs a program on a volume through a handle. -/
def on (v : Volume) (h : Handle) (s : Staging α) : (Except Fault α × Handle) × Volume := s h v

/-- Looks at the handle and the volume. -/
def ask (f : Handle → Volume → Except Fault α) : Staging α := fun h v => ((f h v, h), v)

/-- Changes the handle, or leaves it and fails. -/
def change (f : Handle → Disk Fault Handle) : Staging Unit := fun h v =>
  match f h v with
  | (.ok h', w) => ((.ok (), h'), w)
  | (.error e, w) => ((.error e, h), w)

@[simp] theorem on_ask (v : Volume) (h : Handle) (f : Handle → Volume → Except Fault α) :
    on v h (ask f) = ((f h v, h), v) := rfl

theorem on_bind {β : Type} (v : Volume) (h : Handle) (s : Staging α) (f : α → Staging β) :
    on v h (s >>= f) = match on v h s with
      | ((.ok a, h'), w) => on w h' (f a)
      | ((.error e, h'), w) => ((.error e, h'), w) := by
  simp only [on, bind, ExceptT.bind, ExceptT.mk, ExceptT.bindCont, StateT.bind]
  cases hs : s h v with
  | mk r w =>
    cases r with
    | mk r h' => cases r <;> rfl

end Staging

namespace Handle

open Zip (Member)

/-- Starts a new archive with all members of the one that was opened, unless that has been done. -/
def begin (h : Handle) : Disk Fault Handle :=
  match h.stage with
  | some _ => pure h
  | none => do
    let dir := Path.directory h.path
    Disk.io (Disk.createDirAll dir)
    let temp ← Disk.io (Disk.createTemp dir)
    match ← Disk.outcome (Disk.ask fun v => h.opened.mapM (h.memberOf v)) with
    | .ok ms => pure { h with stage := some ⟨temp, ms.map Member.copied⟩ }
    | .error e =>
      Disk.discard temp
      throw e

/-- Starts an archive that will take the place of whatever is at a path. -/
def create (path : Text) : Disk Fault Handle := begin (ofEntries path none [])

/-- A member that is to be staged, and the path at which it will be found. -/
abbrev Addition := Text × Member

/-- Entries for those of some directories that are not there yet. -/
def dirAdditions (h : Handle) (dirs : List Text) : List Addition :=
  (dirs.filter (· ∉ h.present)).map fun dir =>
    (dir, Member.directory (Entry.relative dir ++ ['/']))

/-- Entries for the directories on the way to a path. -/
def parentAdditions (h : Handle) (path : Text) : List Addition :=
  match Entry.parent? path with
  | some dir => h.dirAdditions (Entry.chain dir)
  | none => []

/-- Adds members to what is staged. -/
def put (h : Handle) (adds : List Addition) : Handle :=
  { h with
    present := h.present ++ adds.map (·.1)
    stage := h.stage.map fun s => { s with members := s.members ++ adds.map (·.2) } }

/-- Stages members, if there are any. -/
def add (h : Handle) (adds : List Addition) : Disk Fault Handle :=
  if adds = [] then pure h else do pure ((← h.begin).put adds)

end Handle

namespace Staging

open Handle

/-- Fails if there is an entry at a path. -/
def requireAbsent (path : Text) : Staging Unit :=
  ask fun h _ => if path ∈ h.present then .error (.io (.entryExists h.path path)) else .ok ()

/-- Stages entries for a directory and those on the way to it, unless they are there. -/
def createDirAll (path : Text) : Staging Unit :=
  change fun h => h.add (h.dirAdditions (Entry.chain path))

/-- Stages entries for the directories on the way to a path, unless they are there. -/
def createParents (path : Text) : Staging Unit := change fun h => h.add (h.parentAdditions path)

/-- Stages a new regular file. -/
def write (path : Text) (data : Bytes) : Staging Unit := do
  let path := Entry.normalize path
  requireAbsent path
  createParents path
  change (·.add [(path, .file (Entry.relative path) data)])

/-- Stages the entry at a path of another handle as it is stored there; a directory that is there is
left alone. -/
def copyFrom (source : Handle) (path : Text) : Staging Unit := do
  let path := Entry.normalize path
  match source.entry? path with
  | none => throw (.notFound path)
  | some e =>
    if e.kind = .dir ∧ path ∈ (← getThe Handle).present then pure ()
    else
      requireAbsent path
      createParents path
      let m ← ask fun _ v => source.memberOf v e
      change (·.add [(path, m.copied)])

end Staging

namespace Handle

/-- Puts what is staged in the place of the archive. -/
def close (h : Handle) : Disk Fault Unit :=
  match h.stage with
  | some s => Disk.io (Disk.persist s.temp h.path (Zip.write s.members))
  | none => pure ()

/-- Gives up what is staged. -/
def discard (h : Handle) : Disk Fault Unit :=
  match h.stage with
  | some s => Disk.discard s.temp
  | none => pure ()

end Handle

end Patchwork
