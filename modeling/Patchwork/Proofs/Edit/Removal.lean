import Patchwork.Proofs.Edit.Script

/-!
# Scripts that remove lines first

The search keeps what both lists start with, and no deletion gets in front of it when changes slide.  So a
script removes lines first only if both lists start with different lines.
-/
namespace Patchwork.Edit

open Text (Line)

variable {old new : Array Line}

namespace Focus

variable {before rest after : List Edit} {this e : Edit} {o n len s a b c d : Nat}

/-- An insertion takes some lines that were kept in front of it behind it. -/
theorem removesFirst_pass_up (h : Sliding old new ⟨keep o n len :: rest, this, after⟩) (i j : Nat)
    (hs : 0 < s) (hnew : s ≤ this.newLen) :
    removesFirst (this.earlier s :: keepAfter i j s after) = false := by
  have hsp := h.spans
  rw [edits_cons] at hsp
  obtain ⟨a, b, _, _, hthis, _⟩ := spans_append.mp hsp
  have hchange : isKeep this = false := h.change
  obtain ⟨o', m, rfl⟩ := Loose.insert_of_newLen_pos hchange hthis (by omega)
  rw [earlier, removesFirst]
  unfold keepAfter
  split <;> rfl

/-- An insertion has lines that are kept behind it, and others are put in front of it. -/
theorem removesFirst_pass_down (zs : List Edit) (i j s : Nat)
    (h : removesFirst ((keepBefore i j s before).reverse ++ zs) = true) (ys : List Edit) :
    removesFirst (before.reverse ++ ys) = true := by
  unfold keepBefore at h
  split at h
  · rw [List.reverse_cons, List.append_assoc] at h ⊢
    exact removesFirst_append (fun hkeep => Bool.noConfusion hkeep) h
  · rw [List.reverse_cons, List.append_assoc] at h
    exact removesFirst_append (fun hkeep => Bool.noConfusion hkeep) h

/-- What is removed first after two changes became one was removed first before. -/
theorem removesFirst_of_merge (hs : sameKind e this = true)
    (h : removesFirst (e.longer this.changeLen :: after) = true) :
    removesFirst (e :: this :: after) = true := by
  cases e <;> cases this <;> simp only [sameKind, reduceCtorEq] at hs
  · rfl
  · exact h

/-- What is removed first after two changes changed places was removed first before. -/
theorem removesFirst_of_swap (he : isKeep e = false) (hplace : Loose old new a b e)
    (hthis : isKeep this = false) (hplace' : Loose old new c d this)
    (h : removesFirst (this :: e :: after) = true) : removesFirst (e :: this :: after) = true := by
  cases e with
  | keep => simp [isKeep] at he
  | replace => exact hplace.elim
  | delete => rfl
  | insert =>
    cases this with
    | keep => simp [isKeep] at hthis
    | replace => exact hplace'.elim
    | delete => rfl
    | insert => exact h

theorem removesFirst_of_up (h : Sliding old new ⟨before, this, after⟩)
    (hr : removesFirst (up old new before this after).edits = true) :
    removesFirst (Focus.mk before this after).edits = true := by
  fun_induction up old new before this after with
  | case1 => exact hr
  | case2 this after o n len rest k hk after' h0 ih =>
    have hmoved := ih ((h.pass_up rfl hk.1).1 h0) hr
    rw [edits_cons]
    refine removesFirst_append (fun hfirst => ?_) hmoved
    have hlater := removesFirst_pass_up h (o + len - k) (this.newStart + this.newLen - k) hk.1
      ((sameBefore_le ..).trans (Nat.min_le_right ..))
    exact absurd hfirst (by rw [hlater]; exact Bool.false_ne_true)
  | case3 this after o n len rest k hk after' h0 ih =>
    have hmoved := ih ((h.pass_up rfl hk.1).2 (Nat.pos_of_ne_zero h0)) hr
    rw [edits_cons] at hmoved ⊢
    exact removesFirst_append (fun hkeep => Bool.noConfusion hkeep) hmoved
  | case4 this after o n rest k hk ih => exact absurd h.len_pos (Nat.lt_irrefl 0)
  | case5 => exact hr
  | case6 this after e rest hk hs ih =>
    have hmoved := ih (h.merge_up hs) hr
    rw [edits_cons]
    exact removesFirst_append (removesFirst_of_merge hs) hmoved
  | case7 this after e rest hk hs ih =>
    have hmoved := ih (h.swap_up (isKeep_of_ne_keep hk) (by simpa using hs)) hr
    have hsp := h.spans
    rw [edits_cons] at hsp ⊢
    obtain ⟨a, b, _, he, hthis, _⟩ := spans_append.mp hsp
    exact removesFirst_append (removesFirst_of_swap (isKeep_of_ne_keep hk) he h.change hthis) hmoved

theorem removesFirst_of_down (h : Sliding old new ⟨before, this, after⟩)
    (hr : removesFirst (down old new before this after).edits = true) :
    removesFirst (Focus.mk before this after).edits = true := by
  fun_induction down old new before this after with
  | case1 => exact hr
  | case2 before this o n len rest k hk before' h0 ih =>
    exact removesFirst_pass_down _ _ _ _ (ih ((h.pass_down rfl hk.1).1 h0) hr) _
  | case3 before this o n len rest k hk before' h0 ih =>
    exact removesFirst_pass_down _ _ _ _ (ih ((h.pass_down rfl hk.1).2 (Nat.pos_of_ne_zero h0)) hr) _
  | case4 before this o n rest k hk ih => exact absurd h.len_pos_after (Nat.lt_irrefl 0)
  | case5 => exact hr
  | case6 before this e rest hk hs ih =>
    have hmoved := ih (h.merge_down hs) hr
    exact removesFirst_append (removesFirst_of_merge hs) hmoved
  | case7 before this e rest hk hs ih =>
    have hmoved := ih (h.swap_down (isKeep_of_ne_keep hk) (by simpa using hs)) hr
    rw [edits_cons] at hmoved
    obtain ⟨a, b, _, hthis, he, _⟩ := spans_append.mp h.spans
    exact removesFirst_append (removesFirst_of_swap h.change hthis (isKeep_of_ne_keep hk) he) hmoved

end Focus

theorem removesFirst_of_slideAll {p : Edit → Bool} (hp : Focus.Kind p) (before : List Edit)
    {es : List Edit} (h : Placed old new (before.reverse ++ es))
    (hr : removesFirst (slideAll old new p hp before es) = true) :
    removesFirst (before.reverse ++ es) = true := by
  fun_induction slideAll old new p hp before es with
  | case1 before => simpa using hr
  | case2 before e rest he f g ih =>
    have hs : Focus.Sliding old new ⟨before, e, rest⟩ := ⟨hp.isKeep he, h.spans, Or.inl h.anchored⟩
    have hf : Focus.Sliding old new f := hs.up before e rest
    have hg : Focus.Settled old new g := hf.down
    have hl : (g.this :: g.before).reverse ++ g.after = g.edits := by simp [Focus.edits]
    rw [hl] at ih
    exact Focus.removesFirst_of_up hs (Focus.removesFirst_of_down hf (ih ⟨hg.spans, hg.anchored⟩ hr))
  | case3 before e rest he ih =>
    rw [List.reverse_cons, List.append_assoc] at ih
    exact ih h hr

theorem removesFirst_of_compact {es : List Edit} (h : Placed old new es)
    (hr : removesFirst (compact old new es) = true) : removesFirst es = true :=
  removesFirst_of_slideAll (.inl rfl) [] h
    (removesFirst_of_slideAll (.inr rfl) [] (placed_slideAll _ [] _ h) hr)

/-- A run that has begun with something else does not become a deletion. -/
theorem fold_ne_delete (run : Run) (hrun : ∀ o len n, run ≠ .removed o len n) (hnone : run ≠ .none)
    (es : List Edit) (o len n : Nat) (more : List Edit) : fold run es ≠ delete o len n :: more := by
  induction es generalizing run with
  | nil =>
    cases run with
    | none => exact absurd rfl hnone
    | removed o len n => exact absurd rfl (hrun o len n)
    | kept | added | both => exact fun h => Edit.noConfusion (List.cons.inj h).1
  | cons e es ih =>
    cases run with
    | none => exact absurd rfl hnone
    | removed o len n => exact absurd rfl (hrun o len n)
    | kept =>
      cases e with
      | keep => exact ih _ nofun nofun
      | delete | insert | replace => exact fun h => Edit.noConfusion (List.cons.inj h).1
    | added =>
      cases e with
      | insert | delete => exact ih _ nofun nofun
      | keep | replace => exact fun h => Edit.noConfusion (List.cons.inj h).1
    | both =>
      cases e with
      | insert | delete => exact ih _ nofun nofun
      | keep | replace => exact fun h => Edit.noConfusion (List.cons.inj h).1

/-- Only what removes lines first removes lines at once. -/
theorem removesFirst_of_fold {es more : List Edit} {o len n : Nat}
    (h : fold .none es = delete o len n :: more) : removesFirst es = true := by
  cases es with
  | nil => cases h
  | cons e es =>
    cases e with
    | delete => rfl
    | keep i j m => exact absurd h (fold_ne_delete (.kept i j m) nofun nofun es o len n more)
    | insert i j m => exact absurd h (fold_ne_delete (.added i j m) nofun nofun es o len n more)
    | replace i m j m' => exact absurd h (fold_ne_delete (.both i m j m') nofun nofun es o len n more)

/-- A search that removes lines first has been given lists that start with different lines. -/
theorem head?_ne_of_search {os ns : List Line} (h : removesFirst (search 0 0 os ns) = true)
    (hns : ns ≠ []) : ∃ a b, os.head? = some a ∧ ns.head? = some b ∧ a ≠ b := by
  obtain ⟨b, ns, rfl⟩ := List.exists_cons_of_ne_nil hns
  cases os with
  | nil =>
    rw [search] at h
    simp [commonStart, commonEnd, kept, removesFirst] at h
  | cons a os =>
    refine ⟨a, b, rfl, rfl, fun hab => ?_⟩
    rw [search, commonStart_cons, if_pos hab, kept, if_neg (Nat.succ_ne_zero _)] at h
    cases h

/-- A script that removes lines at once has been made from lists that start with different lines, if there
are new lines. -/
theorem head?_ne_of_script {o len n : Nat} {more : List Edit} (h : script old new = delete o len n :: more)
    (hnew : new.toList ≠ []) :
    ∃ a b, old.toList.head? = some a ∧ new.toList.head? = some b ∧ a ≠ b :=
  head?_ne_of_search (removesFirst_of_compact (placed_search old new) (removesFirst_of_fold h)) hnew

end Patchwork.Edit
