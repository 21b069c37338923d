import Patchwork.Archive.Staging
import Patchwork.Glob.FilterSet

/-!
# Selecting entries

The regular files of an archive that a filter accepts are copied into another archive as they are
stored, or an archive is rebuilt without those that it does not accept.
-/
namespace Patchwork

structure CopyReport where
  copied : Nat
  skipped : Nat
  deriving DecidableEq, Repr

namespace Handle

/-- The regular files that a filter accepts, in the order of the archive. -/
def selected (h : Handle) (f : FilterSet) : List Text := h.files.filter f.accepts

def report (h : Handle) (f : FilterSet) : CopyReport :=
  ⟨(h.selected f).length, h.files.length - (h.selected f).length⟩

/-- Closes a handle if a program that stages through it succeeds, and gives up what is staged if
not. -/
def finish {α : Type} (h : Handle) (s : Staging α) : Disk Fault α := fun v =>
  match Staging.on v h s with
  | ((.ok a, h), w) => (h.close *> pure a : Disk Fault α) w
  | ((.error e, h), w) => (h.discard *> throw e : Disk Fault α) w

end Handle

namespace Staging

/-- Stages entries of another handle one after the other. -/
def copyEach (source : Handle) : List Text → Staging Unit
  | [] => pure ()
  | path :: paths => do
    copyFrom source path
    copyEach source paths

/-- Stages the regular files of another handle that a filter accepts. -/
def filterCopy (source : Handle) (f : FilterSet) : Staging CopyReport := do
  copyEach source (source.selected f)
  pure (source.report f)

end Staging

namespace Archive

open Handle

/-- Copies into the archive at `dest`, which is made if it is not there. -/
def copy (source dest : Text) (f : FilterSet) : Disk Fault CopyReport := do
  let input ← openAt source false
  let output ← openAt dest true
  output.finish (Staging.filterCopy input f)

/-- Copies into a new archive that takes the place of whatever is at `dest`. -/
def copyFresh (source dest : Text) (f : FilterSet) : Disk Fault CopyReport := do
  let input ← openAt source false
  let output ← create dest
  output.finish (Staging.filterCopy input f)

/-- The entries that are kept: the files that the filter accepts, and the directories that it accepts
or that lead to one of those files. -/
def keptEntries (h : Handle) (f : FilterSet) : List Text :=
  let kept := h.selected f
  let dirs := kept.flatMap Entry.ancestors
  (h.entries.filter fun e =>
    match e.2 with
    | .dir => e.1 ∈ dirs || f.accepts e.1
    | .file => e.1 ∈ kept).map (·.1)

/-- Puts a copy of the archive at `source` to `dest` that has only the entries that are kept.  Both
may be the same file. -/
def strip (source dest : Text) (f : FilterSet) : Disk Fault CopyReport := do
  let input ← openAt source false
  let output ← create dest
  output.finish do
    Staging.copyEach input (keptEntries input f)
    pure (input.report f)

end Archive

end Patchwork
