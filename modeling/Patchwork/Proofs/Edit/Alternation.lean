import Patchwork.Proofs.Edit.Script

/-!
# Kept stretches and changes take turns

Every change that the search finds takes some lines, and still does when changes have slid.  Folding leaves no two
kept stretches beside each other.
-/
namespace Patchwork.Edit

open Text (Line)

variable {old new : Array Line} {e : Edit} {es before after : List Edit} {i j k : Nat}

/-- A change takes some lines. -/
def Full (e : Edit) : Prop := isKeep e = false → 0 < e.oldLen + e.newLen

/-- Not both edits are kept. -/
def Apart (e f : Edit) : Prop := isKeep e = true → isKeep f = false

theorem full_keep (o p len : Nat) : Full (keep o p len) := nofun

theorem Full.earlier (h : Full e) (k : Nat) : Full (e.earlier k) := by
  cases e <;> exact h

theorem Full.later (h : Full e) (k : Nat) : Full (e.later k) := by
  cases e <;> exact h

theorem Full.longer (h : Full e) (k : Nat) : Full (e.longer k) := by
  intro hk
  have hpos := h ((Focus.isKeep_longer k e).symm.trans hk)
  cases e <;> simp only [Edit.longer, oldLen, newLen] at hpos ⊢ <;> omega

/-! ### The search and the sliding of changes -/

theorem full_kept (i j len : Nat) : ∀ e ∈ kept i j len, Full e := by
  intro e he
  unfold kept at he
  split at he
  · cases he
  · rw [List.mem_singleton.mp he]
    exact full_keep i j len

theorem full_between (i j : Nat) (o n : List Line)
    (ih : ∀ (i j : Nat) (xs ys : List Line), xs.length + ys.length < o.length + n.length →
      ∀ e ∈ search i j xs ys, Full e) : ∀ e ∈ between i j o n, Full e := by
  have hdelete (ho : o ≠ []) : Full (delete i o.length j) := fun _ =>
    Nat.add_pos_left (List.length_pos_iff.mpr ho) _
  have hinsert (hn : n ≠ []) : Full (insert i j n.length) := fun _ =>
    Nat.add_pos_right _ (List.length_pos_iff.mpr hn)
  unfold between
  split
  · nofun
  split
  · next hnil h =>
    exact List.forall_mem_singleton.mpr (hdelete fun ho => hnil ⟨ho, h⟩)
  split
  · next h _ => exact List.forall_mem_singleton.mpr (hinsert h)
  next hn ho =>
  have hchanged : ∀ e ∈ [delete i o.length j, insert i j n.length], Full e :=
    List.forall_mem_cons.mpr ⟨hdelete ho, List.forall_mem_singleton.mpr (hinsert hn)⟩
  split
  · split
    · next x y _ h =>
      refine List.forall_mem_append.mpr ⟨ih _ _ _ _ ?_, ih _ _ _ _ ?_⟩
      · rw [List.length_take_of_le h.1, List.length_take_of_le h.2.1]
        exact h.2.2.2
      · rw [List.length_drop, List.length_drop]
        omega
    · exact hchanged
  · exact hchanged

/-- Every change that the search finds takes some lines. -/
theorem full_search (i j : Nat) (os ns : List Line) : ∀ e ∈ search i j os ns, Full e := by
  induction i, j, os, ns using search_induction with
  | h i j p o n q heq ih =>
    have hmiddle := full_between (i + p.length) (j + p.length) o n ih
    rw [heq]
    exact List.forall_mem_append.mpr
      ⟨List.forall_mem_append.mpr ⟨full_kept _ _ _, hmiddle⟩, full_kept _ _ _⟩

namespace Focus

/-- Every change of a script takes some lines while one of its edits slides. -/
structure Filled (f : Focus) : Prop where
  before : ∀ e ∈ f.before, Full e
  this : Full f.this
  after : ∀ e ∈ f.after, Full e

theorem full_keepAfter (h : ∀ e ∈ es, Full e) : ∀ e ∈ keepAfter i j k es, Full e := by
  unfold keepAfter
  split
  · exact List.forall_mem_cons.mpr ⟨full_keep _ _ _, (List.forall_mem_cons.mp h).2⟩
  · exact List.forall_mem_cons.mpr ⟨full_keep _ _ _, h⟩

theorem full_keepBefore (h : ∀ e ∈ es, Full e) : ∀ e ∈ keepBefore i j k es, Full e := by
  unfold keepBefore
  split
  · exact List.forall_mem_cons.mpr ⟨full_keep _ _ _, (List.forall_mem_cons.mp h).2⟩
  · exact List.forall_mem_cons.mpr ⟨full_keep _ _ _, h⟩

theorem Filled.up {this : Edit} (h : Filled ⟨before, this, after⟩) : Filled (Focus.up old new before this after) := by
  fun_induction Focus.up old new before this after with
  | case1 => exact h
  | case2 this after o n len rest k hk after' h0 ih =>
    exact ih ⟨(List.forall_mem_cons.mp h.before).2, h.this.earlier k, full_keepAfter h.after⟩
  | case3 this after o n len rest k hk after' h0 ih =>
    exact ih ⟨List.forall_mem_cons.mpr ⟨full_keep _ _ _, (List.forall_mem_cons.mp h.before).2⟩,
      h.this.earlier k, full_keepAfter h.after⟩
  | case4 this after o n rest k hk ih => exact ih ⟨(List.forall_mem_cons.mp h.before).2, h.this, h.after⟩
  | case5 => exact h
  | case6 this after e rest hk hs ih =>
    obtain ⟨he, hrest⟩ := List.forall_mem_cons.mp h.before
    exact ih ⟨hrest, he.longer _, h.after⟩
  | case7 this after e rest hk hs ih =>
    obtain ⟨he, hrest⟩ := List.forall_mem_cons.mp h.before
    exact ih ⟨hrest, h.this, List.forall_mem_cons.mpr ⟨he, h.after⟩⟩

theorem Filled.down {this : Edit} (h : Filled ⟨before, this, after⟩) :
    Filled (Focus.down old new before this after) := by
  fun_induction Focus.down old new before this after with
  | case1 => exact h
  | case2 before this o n len rest k hk before' h0 ih =>
    exact ih ⟨full_keepBefore h.before, h.this.later k, (List.forall_mem_cons.mp h.after).2⟩
  | case3 before this o n len rest k hk before' h0 ih =>
    exact ih ⟨full_keepBefore h.before, h.this.later k,
      List.forall_mem_cons.mpr ⟨full_keep _ _ _, (List.forall_mem_cons.mp h.after).2⟩⟩
  | case4 before this o n rest k hk ih => exact ih ⟨h.before, h.this, (List.forall_mem_cons.mp h.after).2⟩
  | case5 => exact h
  | case6 before this e rest hk hs ih =>
    exact ih ⟨h.before, h.this.longer _, (List.forall_mem_cons.mp h.after).2⟩
  | case7 before this e rest hk hs ih =>
    obtain ⟨he, hrest⟩ := List.forall_mem_cons.mp h.after
    exact ih ⟨List.forall_mem_cons.mpr ⟨he, h.before⟩, h.this, hrest⟩

end Focus

theorem full_slideAll {p : Edit → Bool} (hp : Focus.Kind p) (hbefore : ∀ e ∈ before, Full e)
    (h : ∀ e ∈ es, Full e) : ∀ e ∈ slideAll old new p hp before es, Full e := by
  fun_induction slideAll old new p hp before es with
  | case1 before => exact fun e he => hbefore e (List.mem_reverse.mp he)
  | case2 before e rest he f g ih =>
    obtain ⟨hthis, hrest⟩ := List.forall_mem_cons.mp h
    have hg : Focus.Filled g := (Focus.Filled.up ⟨hbefore, hthis, hrest⟩).down
    exact ih (List.forall_mem_cons.mpr ⟨hg.this, hg.before⟩) hg.after
  | case3 before e rest he ih =>
    obtain ⟨hthis, hrest⟩ := List.forall_mem_cons.mp h
    exact ih (List.forall_mem_cons.mpr ⟨hthis, hbefore⟩) hrest

/-! ### Folding -/

namespace Run

/-- Whether the run will become a change. -/
def changes : Run → Bool
  | none | kept .. => false
  | removed .. | added .. | both .. => true

theorem isKeep_of_changes {run : Run} (h : run.changes = true) : ∀ e ∈ run.edits, isKeep e = false := by
  cases run with
  | none | kept => cases h
  | removed | added | both => exact List.forall_mem_singleton.mpr rfl

/-- An edit is taken into the run, which stays a change if it is one, or it ends the run, and one of both is a
change. -/
theorem changes_add (run : Run) (e : Edit) :
    (run.add e).1 = [] ∧ (run.changes = true → (run.add e).2.changes = true) ∨
      (run.add e).1 = run.edits ∧ (run.changes = true ∨ (run.add e).2.changes = true) := by
  cases run <;> cases e <;> simp [add, edits, changes]

theorem full_add {run : Run} (hrun : ∀ f ∈ run.edits, Full f) (he : Full e) :
    ∀ f ∈ (run.add e).1 ++ (run.add e).2.edits, Full f := by
  cases run <;> cases e <;> simp [add, edits, Full, isKeep, oldLen, newLen] at hrun he ⊢ <;> omega

end Run

theorem full_fold {run : Run} (hrun : ∀ e ∈ run.edits, Full e) (h : ∀ e ∈ es, Full e) :
    ∀ e ∈ fold run es, Full e := by
  induction es generalizing run with
  | nil => exact hrun
  | cons e es ih =>
    obtain ⟨he, hes⟩ := List.forall_mem_cons.mp h
    obtain ⟨hdone, hopen⟩ := List.forall_mem_append.mp (Run.full_add hrun he)
    exact List.forall_mem_append.mpr ⟨hdone, ih hopen hes⟩

/-- What has begun as a change becomes one. -/
theorem head?_fold {run : Run} (hrun : run.changes = true) (es : List Edit) :
    ∀ e ∈ (fold run es).head?, isKeep e = false := by
  induction es generalizing run with
  | nil => exact fun e he => Run.isKeep_of_changes hrun e (List.mem_of_mem_head? he)
  | cons e es ih =>
    rw [fold]
    rcases run.changes_add e with ⟨hnil, hstays⟩ | ⟨hedits, -⟩
    · rw [hnil]
      exact ih (hstays hrun)
    · rw [hedits]
      intro f hf
      refine Run.isKeep_of_changes hrun f ?_
      cases run with
      | none | kept => cases hrun
      | removed | added | both => exact List.mem_singleton.mpr (Option.some.inj hf).symm

theorem isChain_fold (run : Run) (es : List Edit) : (fold run es).IsChain Apart := by
  have hedits (run : Run) : run.edits.IsChain Apart := by
    cases run with
    | none => exact .nil
    | kept | removed | added | both => exact .singleton _
  induction es generalizing run with
  | nil => exact hedits run
  | cons e es ih =>
    rw [fold]
    rcases run.changes_add e with ⟨hnil, -⟩ | ⟨hdone, hone⟩
    · rw [hnil]
      exact ih _
    · rw [hdone]
      refine List.isChain_append.mpr ⟨hedits run, ih _, fun x hx y hy hkeep => ?_⟩
      rcases hone with hrun | hnext
      · exact absurd (Run.isKeep_of_changes hrun x (List.mem_of_mem_getLast? hx)) (by simp [hkeep])
      · exact head?_fold hnext es y hy

theorem full_script (old new : Array Line) : ∀ e ∈ script old new, Full e :=
  full_fold nofun (full_slideAll _ nofun (full_slideAll _ nofun (full_search 0 0 old.toList new.toList)))

/-- The kept stretches of a script stand apart. -/
theorem isChain_script (old new : Array Line) : (script old new).IsChain Apart := isChain_fold .none _

end Patchwork.Edit
