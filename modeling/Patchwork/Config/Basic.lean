import Patchwork.Fault
import Patchwork.Patch.Diff

/-!
# Configuration
-/
namespace Patchwork

/-- The settings of a run. -/
structure Config where
  /-- How many kept lines to put around a change; only one number is allowed. -/
  contextLines : Nat := Patchwork.contextLines
  /-- The extension of patch files, without its dot. -/
  patchExtension : Text := "patch".toList
  /-- What goes in front of a path on the side of the new text. -/
  patchLabel : Text := "patches/".toList
  /-- Beginnings that are taken off the paths in patches. -/
  beginnings : List Text := []
  /-- The patterns that are used when none are given. -/
  includes : List Text := []
  deriving DecidableEq, Repr

namespace Config

def validate (c : Config) : Except Fault Unit :=
  if c.contextLines ≠ Patchwork.contextLines then
    .error (.config (.contextLines Patchwork.contextLines c.contextLines))
  else if c.patchExtension = [] ∨ '/' ∈ c.patchExtension ∨ c.patchExtension.head? = some '.' then
    .error (.config (.patchExtension c.patchExtension))
  else .ok ()

end Config

end Patchwork
