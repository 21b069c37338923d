import Patchwork.Edit.Basic

/-!
# Compaction

Deletions and insertions slide along the lines around them, first towards the start and then towards
the end, so that edits which meet become one.  Afterwards the changes between two kept stretches are
folded into a single edit.  Sliding moves an edit's own positions; an edit that another one passes
keeps the positions it had.
-/
namespace Patchwork.Edit

open Text (Line)

def isDelete : Edit → Bool
  | delete .. => true
  | _ => false

def isInsert : Edit → Bool
  | insert .. => true
  | _ => false

def isKeep : Edit → Bool
  | keep .. => true
  | _ => false

/-- Starts `k` lines later on both sides. -/
def later (k : Nat) : Edit → Edit
  | keep old new len => keep (old + k) (new + k) len
  | delete old len new => delete (old + k) len (new + k)
  | insert old new len => insert (old + k) (new + k) len
  | replace old oldLen new newLen => replace (old + k) oldLen (new + k) newLen

/-- Starts `k` lines earlier on both sides. -/
def earlier (k : Nat) : Edit → Edit
  | keep old new len => keep (old - k) (new - k) len
  | delete old len new => delete (old - k) len (new - k)
  | insert old new len => insert (old - k) (new - k) len
  | replace old oldLen new newLen => replace (old - k) oldLen (new - k) newLen

/-- Takes `k` lines more. -/
def longer (k : Nat) : Edit → Edit
  | keep old new len => keep old new (len + k)
  | delete old len new => delete old (len + k) new
  | insert old new len => insert old new (len + k)
  | replace old oldLen new newLen => replace old (oldLen + k) new (newLen + k)

/-- The number of lines that a deletion removes or an insertion adds. -/
def changeLen : Edit → Nat
  | delete _ len _ | insert _ _ len => len
  | _ => 0

def sameKind : Edit → Edit → Bool
  | delete .., delete .. | insert .., insert .. => true
  | _, _ => false

/-- A script seen from one of its edits; `before` runs towards the start. -/
structure Focus where
  before : List Edit
  this : Edit
  after : List Edit

namespace Focus

def weight : Edit → Nat
  | keep _ _ len => len + 1
  | _ => 1

def weights (es : List Edit) : Nat := es.foldr (weight · + ·) 0

theorem weight_pos (e : Edit) : 0 < weight e := by cases e <;> simp [weight]

@[simp] theorem weights_cons (e : Edit) (es : List Edit) :
    weights (e :: es) = weight e + weights es := rfl

/-- Makes room behind the edit by `k` lines kept at `old` and `new`. -/
def keepAfter (old new k : Nat) : List Edit → List Edit
  | keep o n len :: es => keep (o - k) (n - k) (len + k) :: es
  | es => keep old new k :: es

/-- Makes room in front of the edit by `k` lines kept at `old` and `new`. -/
def keepBefore (old new k : Nat) : List Edit → List Edit
  | keep o n len :: es => keep o n (len + k) :: es
  | es => keep old new k :: es

/-- Slides the edit towards the start as far as it goes. -/
def up (old new : Array Line) (before : List Edit) (this : Edit) (after : List Edit) : Focus :=
  match before with
  | [] => ⟨[], this, after⟩
  | keep o n len :: rest =>
    let k := sameBefore old new (o + len) (this.newStart + this.newLen) (min len this.newLen)
    if 0 < k ∧ 0 < len then
      let after := keepAfter (o + len - k) (this.newStart + this.newLen - k) k after
      if len - k = 0 then up old new rest (this.earlier k) after
      else up old new (keep o n (len - k) :: rest) (this.earlier k) after
    else if len = 0 then up old new rest this after
    else ⟨before, this, after⟩
  | e :: rest =>
    if sameKind e this then up old new rest (e.longer this.changeLen) after
    else up old new rest this (e :: after)
termination_by weights before
decreasing_by
  · simp [weight]
  · simp only [weights_cons, weight]; omega
  · simp [weight]
  · simp [weight_pos]
  · simp [weight_pos]

/-- Slides the edit towards the end as far as it goes. -/
def down (old new : Array Line) (before : List Edit) (this : Edit) (after : List Edit) : Focus :=
  match after with
  | [] => ⟨before, this, []⟩
  | keep o n len :: rest =>
    let k := sameFrom old new o this.newStart (min len this.newLen)
    if 0 < k ∧ 0 < len then
      let before := keepBefore o this.newStart k before
      if len - k = 0 then down old new before (this.later k) rest
      else down old new before (this.later k) (keep (o + k) (n + k) (len - k) :: rest)
    else if len = 0 then down old new before this rest
    else ⟨before, this, after⟩
  | e :: rest =>
    if sameKind this e then down old new before (this.longer e.changeLen) rest
    else down old new (e :: before) this rest
termination_by weights after
decreasing_by
  · simp [weight]
  · simp only [weights_cons, weight]; omega
  · simp [weight]
  · simp [weight_pos]
  · simp [weight_pos]

/-- Holds of the edits of one kind of change. -/
def Kind (p : Edit → Bool) : Prop := p = isDelete ∨ p = isInsert

theorem Kind.keep {p : Edit → Bool} (hp : Kind p) (o n l : Nat) : p (keep o n l) = false := by
  rcases hp with rfl | rfl <;> rfl

theorem Kind.sameKind {p : Edit → Bool} (hp : Kind p) {e f : Edit} (hf : p f = true) :
    sameKind e f = p e ∧ Edit.sameKind f e = p e := by
  rcases hp with rfl | rfl <;> cases e <;> cases f <;> simp_all [Edit.sameKind, isDelete, isInsert]

theorem Kind.later {p : Edit → Bool} (hp : Kind p) (k : Nat) (e : Edit) : p (e.later k) = p e := by
  rcases hp with rfl | rfl <;> cases e <;> rfl

theorem Kind.earlier {p : Edit → Bool} (hp : Kind p) (k : Nat) (e : Edit) :
    p (e.earlier k) = p e := by
  rcases hp with rfl | rfl <;> cases e <;> rfl

theorem Kind.longer {p : Edit → Bool} (hp : Kind p) (k : Nat) (e : Edit) :
    p (e.longer k) = p e := by
  rcases hp with rfl | rfl <;> cases e <;> rfl

theorem countP_keepAfter {p : Edit → Bool} (hp : Kind p) (old new k : Nat) (es : List Edit) :
    (keepAfter old new k es).countP p = es.countP p := by
  unfold keepAfter
  split <;> simp [hp.keep]

/-- Sliding towards the start passes no edit of the same kind. -/
theorem countP_up {p : Edit → Bool} (hp : Kind p) (old new : Array Line) (before : List Edit)
    (this : Edit) (after : List Edit) (h : p this = true) :
    p (up old new before this after).this = true ∧
      (up old new before this after).after.countP p = after.countP p := by
  fun_induction up old new before this after with
  | case1 => simp [h]
  | case2 this after o n len rest k _ after' _ ih =>
    simpa [after', countP_keepAfter hp] using ih (by rw [hp.earlier, h])
  | case3 this after o n len rest k _ after' _ ih =>
    simpa [after', countP_keepAfter hp] using ih (by rw [hp.earlier, h])
  | case4 this after o n rest k _ ih => exact ih h
  | case5 => simp [h]
  | case6 this after e rest _ hs ih => exact ih (by rw [hp.longer, ← (hp.sameKind h).1, hs])
  | case7 this after e rest _ hs ih =>
    have he : p e = false := by rw [← (hp.sameKind h).1]; simpa using hs
    simpa [he] using ih h

/-- Sliding towards the end passes no edit of the same kind either. -/
theorem countP_down {p : Edit → Bool} (hp : Kind p) (old new : Array Line) (before : List Edit)
    (this : Edit) (after : List Edit) (h : p this = true) :
    (down old new before this after).after.countP p ≤ after.countP p := by
  fun_induction down old new before this after with
  | case1 => simp
  | case2 before this o n len rest k _ before' _ ih =>
    simpa [hp.keep] using ih (by rw [hp.later, h])
  | case3 before this o n len rest k _ before' _ ih =>
    simpa [hp.keep] using ih (by rw [hp.later, h])
  | case4 before this o n rest k _ ih => simpa [hp.keep] using ih h
  | case5 => simp
  | case6 before this e rest _ hs ih =>
    exact Nat.le_trans (ih (by rw [hp.longer, h])) (List.sublist_cons_self ..).countP_le
  | case7 before this e rest _ hs ih =>
    exact Nat.le_trans (ih h) (List.sublist_cons_self ..).countP_le

end Focus

/-- Slides every edit of one kind, in the order of the script. -/
def slideAll (old new : Array Line) (p : Edit → Bool) (hp : Focus.Kind p) (before : List Edit) :
    List Edit → List Edit
  | [] => before.reverse
  | e :: rest =>
    if _h : p e = true then
      let f := Focus.up old new before e rest
      let g := Focus.down old new f.before f.this f.after
      slideAll old new p hp (g.this :: g.before) g.after
    else slideAll old new p hp (e :: before) rest
termination_by es => (es.countP p, es.length)
decreasing_by
  · have hu := Focus.countP_up hp old new before e rest _h
    have hd := Focus.countP_down hp old new f.before f.this f.after hu.1
    apply Prod.Lex.left
    simp only [List.countP_cons, _h, if_true]
    exact Nat.lt_succ_of_le (hu.2 ▸ hd)
  · simp only [Bool.not_eq_true] at _h
    simp only [List.countP_cons, _h]
    exact Prod.Lex.right _ (by simp)

/-- The script with deletions, and then insertions, slid together. -/
def compact (old new : Array Line) (es : List Edit) : List Edit :=
  slideAll old new isInsert (.inr rfl) [] (slideAll old new isDelete (.inl rfl) [] es)

/-- What has been read of a run of edits that will become one. -/
inductive Run
  | none
  | kept (old new len : Nat)
  | removed (old len new : Nat)
  | added (old new len : Nat)
  | both (old oldLen new newLen : Nat)

namespace Run

def edits : Run → List Edit
  | none => []
  | kept old new len => [keep old new len]
  | removed old len new => [delete old len new]
  | added old new len => [insert old new len]
  | both old oldLen new newLen => [replace old oldLen new newLen]

/-- Takes one more edit into the run; one that does not belong to it ends it. -/
def add : Run → Edit → List Edit × Run
  | kept o n l, keep _ _ len => ([], kept o n (l + len))
  | removed o l n, delete _ len _ => ([], removed o (l + len) n)
  | removed o l _, insert _ new len => ([], both o l new len)
  | added o n l, insert _ _ len => ([], added o n (l + len))
  | added _ n l, delete old len _ => ([], both old len n l)
  | both o l n m, delete _ len _ => ([], both o (l + len) n m)
  | both o l n m, insert _ _ len => ([], both o l n (m + len))
  | run, keep old new len => (run.edits, kept old new len)
  | run, delete old len new => (run.edits, removed old len new)
  | run, insert old new len => (run.edits, added old new len)
  | run, replace old oldLen new newLen => (run.edits, both old oldLen new newLen)

end Run

/-- One edit for each stretch that is kept and one for each that is changed.  A run keeps the
positions of its first deletion and of its first insertion. -/
def fold (run : Run) : List Edit → List Edit
  | [] => run.edits
  | e :: es => (run.add e).1 ++ fold (run.add e).2 es

end Patchwork.Edit
