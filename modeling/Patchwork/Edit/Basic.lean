import Patchwork.Text.Lines

/-!
# Edits

An edit script turns one list of lines into another.  Each edit says where it stands in both lists
and how many lines it takes.
-/
namespace Patchwork

/-- One step of an edit script; `old` and `new` are positions, counted from zero. -/
inductive Edit
  | keep (old new len : Nat)
  | delete (old len new : Nat)
  | insert (old new len : Nat)
  | replace (old oldLen new newLen : Nat)
  deriving DecidableEq, Repr

namespace Edit

def oldStart : Edit → Nat
  | keep old _ _ | delete old _ _ | insert old _ _ | replace old _ _ _ => old

def newStart : Edit → Nat
  | keep _ new _ | delete _ _ new | insert _ new _ | replace _ _ new _ => new

def oldLen : Edit → Nat
  | keep _ _ len | delete _ len _ | replace _ len _ _ => len
  | insert _ _ _ => 0

def newLen : Edit → Nat
  | keep _ _ len | insert _ _ len | replace _ _ _ len => len
  | delete _ _ _ => 0

/-- The lines of `ls` from `start` on, `len` of them. -/
def slice {α : Type} (ls : Array α) (start len : Nat) : List α :=
  (ls.extract start (start + len)).toList

theorem slice_eq {α : Type} (ls : Array α) (start len : Nat) :
    slice ls start len = (ls.toList.drop start).take len := by
  simp [slice, List.extract_eq_take_drop]

def oldLines (old : Array Text.Line) (e : Edit) : List Text.Line := slice old e.oldStart e.oldLen

def newLines (new : Array Text.Line) (e : Edit) : List Text.Line := slice new e.newStart e.newLen

/-- The number of elements that both lists start with. -/
def commonStart {α : Type} [DecidableEq α] (as bs : List α) : Nat :=
  ((as.zip bs).takeWhile fun p => p.1 = p.2).length

/-- The number of elements that both lists end with. -/
def commonEnd {α : Type} [DecidableEq α] (as bs : List α) : Nat :=
  commonStart as.reverse bs.reverse

theorem commonStart_cons {α : Type} [DecidableEq α] (a b : α) (as bs : List α) :
    commonStart (a :: as) (b :: bs) = if a = b then commonStart as bs + 1 else 0 := by
  by_cases h : a = b <;> simp [commonStart, h]

theorem commonStart_le {α : Type} [DecidableEq α] (as bs : List α) :
    commonStart as bs ≤ as.length ∧ commonStart as bs ≤ bs.length := by
  have h := (List.takeWhile_sublist (l := as.zip bs) fun p => p.1 = p.2).length_le
  simp only [List.length_zip] at h
  exact ⟨Nat.le_trans h (Nat.min_le_left ..), Nat.le_trans h (Nat.min_le_right ..)⟩

theorem take_commonStart {α : Type} [DecidableEq α] (as bs : List α) :
    as.take (commonStart as bs) = bs.take (commonStart as bs) := by
  induction as generalizing bs with
  | nil => simp [commonStart]
  | cons a as ih =>
    cases bs with
    | nil => simp [commonStart]
    | cons b bs =>
      rw [commonStart_cons]
      split <;> simp_all

/-- Whether both arrays have the same element at some positions. -/
def sameAt (as bs : Array Text.Line) (i j : Nat) : Bool :=
  if h : i < as.size ∧ j < bs.size then as[i] == bs[j] else false

/-- The number of elements from positions `i` and `j` on that are the same, at most `limit`. -/
def sameFrom (as bs : Array Text.Line) (i j limit : Nat) : Nat := go limit 0
where
  go : Nat → Nat → Nat
    | 0, k => k
    | n + 1, k => if sameAt as bs (i + k) (j + k) then go n (k + 1) else k

/-- The number of elements before positions `i` and `j` that are the same, at most `limit`. -/
def sameBefore (as bs : Array Text.Line) (i j limit : Nat) : Nat := go limit 0
where
  go : Nat → Nat → Nat
    | 0, k => k
    | n + 1, k => if sameAt as bs (i - 1 - k) (j - 1 - k) then go n (k + 1) else k

end Edit

end Patchwork
