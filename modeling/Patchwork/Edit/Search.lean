import Patchwork.Edit.Basic

/-!
# Shortest edit scripts

The search goes from both ends at once and splits the lists where the two searches meet.
-/
namespace Patchwork.Edit

open Text (Line)

/-- How far a search has come on each diagonal after some rounds.  After round `d` the diagonals are
`d`, `d - 2`, …, `-d`, in that order, and an entry is the number of old lines passed. -/
abbrev Frontier := List Nat

namespace Frontier

/-- Where the next round starts on each diagonal: one old line further than the diagonal below, or
level with the one above, whichever is further. -/
def starts : Frontier → Frontier
  | [] => [0]
  | x :: xs => (x + 1) :: go x xs
where
  go (above : Nat) : List Nat → List Nat
    | [] => [above]
    | x :: xs => (if x < above then above else x + 1) :: go x xs

/-- The new lines passed on diagonal `k` after `x` old ones. -/
def across (k : Int) (x : Nat) : Nat := (x - k).toNat

/-- The number of equal lines from positions `x` and `y` on. -/
def run (old new : Array Line) (x y : Nat) : Nat :=
  sameFrom old new x y (min (old.size - x) (new.size - y))

/-- Follows equal lines from the start on each diagonal, beginning with diagonal `k`. -/
def extend (old new : Array Line) (k : Int) : List Nat → List Nat
  | [] => []
  | x :: xs => (x + run old new x (across k x)) :: extend old new (k - 2) xs

/-- The entry for diagonal `k` after round `d`, of all the entries. -/
def reach? (d : Nat) (f : Array Nat) (k : Int) : Option Nat :=
  if k.natAbs ≤ d then f[((d - k) / 2).toNat]? else none

end Frontier

/-- The first diagonal, in the order of the search, on which it meets the search from the other end.
The lists hold where this search started from diagonal `k` on, and how far it came. -/
def meeting (d : Nat) (other : Array Nat) (n : Nat) (delta : Int) :
    Int → List Nat → List Nat → Option (Int × Nat × Nat)
  | k, start :: starts, x :: xs =>
    match Frontier.reach? d other (delta - k) with
    | some x' => if n ≤ x + x' then some (k, start, x) else meeting d other n delta (k - 2) starts xs
    | none => meeting d other n delta (k - 2) starts xs
  | _, _, _ => none

/-- A point where a shortest script can be split: old lines passed, and new lines passed. -/
def splitPoint (old new : List Line) : Option (Nat × Nat) :=
  let a := old.toArray
  let b := new.toArray
  go a b a.reverse b.reverse ((a.size + b.size + 1) / 2 + 1) 0 [] []
where
  go (a b ar br : Array Line) : Nat → Nat → Frontier → Frontier → Option (Nat × Nat)
    | 0, _, _, _ => none
    | fuel + 1, d, forward, backward =>
      let n := a.size
      let delta : Int := a.size - b.size
      let starts := forward.starts
      let forward := Frontier.extend a b d starts
      match if delta % 2 ≠ 0 ∧ 0 < d then meeting (d - 1) backward.toArray n delta d starts forward
          else none with
      | some (k, start, _) => some (start, Frontier.across k start)
      | none =>
        let starts := backward.starts
        let backward := Frontier.extend ar br d starts
        match if delta % 2 = 0 then meeting d forward.toArray n delta d starts backward
            else none with
        | some (k, _, x) => some (a.size - x, b.size - Frontier.across k x)
        | none => go a b ar br fuel (d + 1) forward backward

def kept (i j len : Nat) : List Edit := if len = 0 then [] else [keep i j len]

/-- A script from `old` to `new`, which stand at positions `i` and `j`: what both start and end with
is kept, and what is between is split where the searches meet. -/
def search (i j : Nat) (old new : List Line) : List Edit :=
  let start := commonStart old new
  let finish := commonEnd (old.drop start) (new.drop start)
  let o := (old.drop start).take (old.length - start - finish)
  let n := (new.drop start).take (new.length - start - finish)
  let i' := i + start
  let j' := j + start
  let changed := [delete i' o.length j', insert i' j' n.length]
  let middle :=
    if o = [] ∧ n = [] then []
    else if n = [] then [delete i' o.length j']
    else if o = [] then [insert i' j' n.length]
    else match splitPoint o n with
      | some (x, y) =>
        if _h : x ≤ o.length ∧ y ≤ n.length ∧ 0 < x + y ∧ x + y < o.length + n.length then
          search i' j' (o.take x) (n.take y) ++ search (i' + x) (j' + y) (o.drop x) (n.drop y)
        else changed
      | none => changed
  kept i j start ++ middle ++ kept (i' + o.length) (j' + n.length) finish
termination_by old.length + new.length
decreasing_by
  all_goals
    have ho : o.length ≤ old.length := by simp [o]; omega
    have hn : n.length ≤ new.length := by simp [n]; omega
    simp only [List.length_take, List.length_drop]
    omega

end Patchwork.Edit
