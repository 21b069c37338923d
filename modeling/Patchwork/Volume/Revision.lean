import Patchwork.Volume.Path
import Patchwork.Volume.Basic

/-!
# Revisions of a volume

The steps that turn one volume into another: what is gone is taken away from the inside out, and what
is new is put from the outside in.
-/
namespace Patchwork.Volume

inductive Revision
  | removeDir (place : Place)
  | removeFile (place : Place)
  | makeDir (place : Place)
  | write (place : Place) (content : Bytes)
  deriving DecidableEq, Repr

def sameKind : Item → Item → Bool
  | .dir, .dir => true
  | .dir, _ => false
  | _, .dir => false
  | _, _ => true

/-- What has to go before the items of `new` can be put. -/
def removals (old new : Volume) : List Revision :=
  (old.listing []).reverse.filterMap fun q =>
    if (new.item? q.1).any (sameKind q.2) then none
    else match q.2 with
      | .dir => some (.removeDir q.1)
      | _ => some (.removeFile q.1)

/-- What has to be put once everything else is gone. -/
def additions (old new : Volume) : List Revision :=
  (new.listing []).filterMap fun q =>
    if old.item? q.1 = some q.2 then none
    else match q.2 with
      | .dir => some (.makeDir q.1)
      | .file content => some (.write q.1 content)
      | .link _ => none

def revisions (old new : Volume) : List Revision := removals old new ++ additions old new

/-- The absolute path of a place. -/
def pathOf (p : Place) : Text := '/' :: Path.ofParts p

end Patchwork.Volume
