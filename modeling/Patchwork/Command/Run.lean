import Patchwork.Archive.Extract
import Patchwork.Command.Arguments
import Patchwork.Config.Store
import Patchwork.Digest.Gate
import Patchwork.Tree.Diff
import Patchwork.Tree.Patch

/-!
# Running commands

A request is run on a volume and answers the text to print.
-/
namespace Patchwork

open Text (str)

/-- What a command was about when it failed. -/
inductive Task
  | configuration
  | pattern
  | selection (kind : Selection) (source : Text)
  | diff
  | patch
  | checksum (content : Text)
  deriving DecidableEq, Repr

def Task.message : Task → String
  | configuration => "Failed to load configuration"
  | pattern => "Invalid include pattern"
  | selection .copy source => s!"Copy of {str source} failed"
  | selection .extract source => s!"Extraction of {str source} failed"
  | selection .strip source => s!"Stripping {str source} failed"
  | diff => "Diff failed"
  | patch => "Patching failed"
  | checksum content => s!"Checksum of {str content} failed"

structure Failure where
  task : Task
  fault : Fault
  deriving DecidableEq, Repr

def Failure.message (f : Failure) : String := s!"{f.task.message}: {f.fault.fullMessage}"

/-- The same program with its faults told as failures of a task. -/
def Disk.during {α : Type} (task : Task) (d : Disk Fault α) : Disk Failure α :=
  ExceptT.adapt (Failure.mk task) d

def CopyReport.text (r : CopyReport) : String := s!"copied {r.copied}, skipped {r.skipped}\n"

def Tree.DiffReport.text (r : DiffReport) : String :=
  String.join (r.written.map fun name => s!"{str name}\n")

def Tree.PatchReport.text (r : PatchReport) : String :=
  s!"copied {r.copied} files, patched {r.patched}\n"

def Gate.text (unchanged : Bool) : String := if unchanged then "unchanged\n" else "changed\n"

def Selection.perform : Selection → Text → Text → FilterSet → Disk Fault CopyReport
  | copy => Archive.copyFresh
  | extract => Archive.extractAt
  | strip => Archive.strip

namespace Action

/-- The patterns of a selection; those of the configuration serve if none are given. -/
def filters (c : Config) (includes : List Text) : Except Fault FilterSet :=
  FilterSet.ofPatterns (if includes = [] then c.includes else includes)

def perform (c : Config) : Action → Disk Failure String
  | select kind source target includes => do
    let f ← Disk.during .pattern (Disk.ofExcept (filters c includes))
    let r ← Disk.during (.selection kind source) (kind.perform source target f)
    pure r.text
  | diff baseline modified patchDir =>
    return (← Disk.during .diff (Tree.diff c baseline modified patchDir)).text
  | patch baseline patchDir output =>
    return (← Disk.during .patch (Tree.patch c baseline patchDir output)).text
  | checksum content record? =>
    return Gate.text (← Disk.during (.checksum content)
      (Gate.isUnchanged content (record?.getD (Gate.recordPath content))))

end Action

namespace Request

def perform (u : UserDirs) (q : Request) : Disk Failure String := do
  let loaded ← Disk.during .configuration (Config.load u q.config?)
  q.action.perform loaded.config

end Request

/-- The answer to a question for the version. -/
def versionText : String := "modforge 0.1.0\n"

/-- What the arguments lead to. -/
inductive Outcome
  | usage (u : Usage)
  | done (output : String)
  | failed (f : Failure)

/-- Reads arguments and runs what they ask for. -/
def runArguments (u : UserDirs) (v : Volume) (args : List Text) : Outcome × Volume :=
  match Request.ofArguments args with
  | .error usage => (.usage usage, v)
  | .ok q => match Disk.on v (q.perform u) with
    | (.ok output, w) => (.done output, w)
    | (.error f, w) => (.failed f, w)

namespace Outcome

def exitCode : Outcome → Nat
  | usage u => if u.isAsked then 0 else 2
  | done _ => 0
  | failed _ => 1

end Outcome

end Patchwork
