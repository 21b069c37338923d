import Patchwork.Edit.Compaction
import Patchwork.Edit.Search

/-!
# Groups of edits

Changes that stand close to each other form a group, with some kept lines around and between them.
-/
namespace Patchwork.Edit

open Text (Line)

/-- Only the last `n` lines of a script's first stretch, if it is kept. -/
def trimStart (n : Nat) : List Edit → List Edit
  | keep old new len :: es => keep (old + (len - n)) (new + (len - n)) (len - (len - n)) :: es
  | es => es

/-- Only the first `n` lines of a script's last stretch, if it is kept. -/
def trimEnd (n : Nat) : List Edit → List Edit
  | [] => []
  | [keep old new len] => [keep old new (len - (len - n))]
  | e :: es => e :: trimEnd n es

/-- Cuts a script at every kept stretch of more than `2 * n` lines, of which both neighbours keep
`n`; `group` is the part read since the last cut. -/
def cut (n : Nat) (group : List Edit) : List Edit → List (List Edit)
  | [] => match group with
    | [] | [keep ..] => []
    | _ => [group]
  | keep old new len :: es =>
    if 2 * n < len then
      (group ++ [keep old new n]) ::
        cut n [keep (old + (len - n)) (new + (len - n)) (len - (len - n))] es
    else cut n (group ++ [keep old new len]) es
  | e :: es => cut n (group ++ [e]) es

/-- The groups of a script, with `n` lines around each change. -/
def groups (n : Nat) (es : List Edit) : List (List Edit) := cut n [] (trimEnd n (trimStart n es))

/-- The edit script from one list of lines to another. -/
def script (old new : Array Line) : List Edit :=
  fold .none (compact old new (search 0 0 old.toList new.toList))

end Patchwork.Edit
