import Patchwork.Text.Basic

/-!
# Names that tie patches to files

The patch of a file stands beside it in the patch directory under another extension.  The file of a
patch is the path in its header without a configured beginning.
-/
namespace Patchwork

/-- The directory part of a path, with its slash, and the name. -/
def splitName (path : Text) : Text × Text :=
  match Text.cutLast? '/' path with
  | some (dir, name) => (dir ++ ['/'], name)
  | none => ([], path)

/-- A name up to its last dot; a dot in front belongs to the stem. -/
def stemOf (name : Text) : Text :=
  match Text.cutLast? '.' name with
  | some (stem, _) => if stem = [] then name else stem
  | none => name

/-- The path of the patch for the file at `path`. -/
def patchFileName (fileExtension path : Text) : Text :=
  (splitName path).1 ++ stemOf (splitName path).2 ++ '.' :: fileExtension

/-- The path of the file that a header names: without the first of the beginnings that fits, and
without slashes in front. -/
def targetPath (beginnings : List Text) (header : Text) : Text :=
  let rest := (beginnings.filter (· ≠ [])).findSome? (·.isPrefixOf? header)
  (rest.getD header).dropWhile (· = '/')

end Patchwork
