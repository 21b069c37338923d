import Patchwork.Proofs.Edit.Grouping
import Patchwork.Proofs.Edit.Script
import Patchwork.Proofs.Patch.Reverse

/-!
# Hunks of a script

The hunk of a group shows the old and the new lines that the group spans.  Applied one after the
other, the hunks of a script that leads through both lists turn the old list into the new one.
-/
namespace Patchwork

open Text (Line)
open Edit

variable {old new : Array Line}

theorem Edit.sameAt_getElem? {i j : Nat} (h : sameAt old new i j = true) : old[i]? = new[j]? := by
  unfold sameAt at h
  split at h
  · next hij =>
    rw [Array.getElem?_eq_getElem hij.1, Array.getElem?_eq_getElem hij.2, beq_iff_eq.mp h]
  · simp at h

theorem Edit.Agree.slice_eq {i j len : Nat} (h : Agree old new i j len) :
    slice old i len = slice new j len := by
  rw [Edit.slice_eq, Edit.slice_eq]
  apply List.ext_getElem?
  intro t
  by_cases ht : t < len
  · rw [List.getElem?_take_of_lt ht, List.getElem?_take_of_lt ht, List.getElem?_drop,
      List.getElem?_drop, Array.getElem?_toList, Array.getElem?_toList]
    exact sameAt_getElem? (h t ht)
  · rw [List.getElem?_take_eq_none (by omega), List.getElem?_take_eq_none (by omega)]

theorem Edit.slice_add {α : Type} (ls : Array α) (i m n : Nat) :
    slice ls i (m + n) = slice ls i m ++ slice ls (i + m) n := by
  simp only [Edit.slice_eq, List.take_add, List.drop_drop]

theorem Edit.slice_append_drop {α : Type} (ls : Array α) (i n : Nat) :
    slice ls i n ++ ls.toList.drop (i + n) = ls.toList.drop i := by
  rw [Edit.slice_eq, ← List.drop_drop, List.take_append_drop]

namespace Hunk

theorem source_of_kind (k : LineKind) (ls : List Line) :
    ((ls.map fun t => HunkLine.mk k t).filter HunkLine.inSource).map HunkLine.text =
      if k = .insert then [] else ls := by
  induction ls with
  | nil => simp
  | cons l ls ih =>
    rw [List.map_cons, List.filter_cons]
    cases k <;> simp_all [HunkLine.inSource]

theorem dest_of_kind (k : LineKind) (ls : List Line) :
    ((ls.map fun t => HunkLine.mk k t).filter HunkLine.inDest).map HunkLine.text =
      if k = .delete then [] else ls := by
  induction ls with
  | nil => simp
  | cons l ls ih =>
    rw [List.map_cons, List.filter_cons]
    cases k <;> simp_all [HunkLine.inDest]

theorem source_linesOf {i j : Nat} {e : Edit} (h : Own old new i j e) :
    ((linesOf old new e).filter HunkLine.inSource).map HunkLine.text = slice old i e.oldLen := by
  cases e with
  | keep =>
    obtain ⟨rfl, rfl, _⟩ := h
    simp [linesOf, source_of_kind, oldLines, oldStart]
  | delete =>
    obtain ⟨rfl, _⟩ := h
    simp [linesOf, source_of_kind, oldLines, oldStart]
  | insert => simp [linesOf, source_of_kind, oldLen, Edit.slice_eq]
  | replace =>
    obtain ⟨rfl, rfl⟩ := h
    simp [linesOf, source_of_kind, oldLines, oldStart]

theorem dest_linesOf {i j : Nat} {e : Edit} (h : Own old new i j e) :
    ((linesOf old new e).filter HunkLine.inDest).map HunkLine.text = slice new j e.newLen := by
  cases e with
  | keep =>
    obtain ⟨rfl, rfl, ha⟩ := h
    simp [linesOf, dest_of_kind, oldLines, oldStart, oldLen, newLen, ha.slice_eq]
  | delete => simp [linesOf, dest_of_kind, newLen, Edit.slice_eq]
  | insert =>
    obtain rfl := h
    simp [linesOf, dest_of_kind, newLines, newStart]
  | replace =>
    obtain ⟨rfl, rfl⟩ := h
    simp [linesOf, dest_of_kind, newLines, newStart]

/-- The lines of a group are those that it spans, on both sides. -/
theorem lines_of_spans {i j k l : Nat} {es : List Edit} (h : Spans (Own old new) i j es k l) :
    ((es.flatMap (linesOf old new)).filter HunkLine.inSource).map HunkLine.text =
        slice old i (k - i) ∧
      ((es.flatMap (linesOf old new)).filter HunkLine.inDest).map HunkLine.text =
        slice new j (l - j) := by
  induction es generalizing i j with
  | nil =>
    obtain ⟨rfl, rfl⟩ := h
    simp [Edit.slice_eq]
  | cons e es ih =>
    obtain ⟨hk, hl⟩ := h.2.le
    obtain ⟨hs, hd⟩ := ih h.2
    simp only [List.flatMap_cons, List.filter_append, List.map_append, source_linesOf h.1,
      dest_linesOf h.1, hs, hd, ← Edit.slice_add]
    rw [show e.oldLen + (k - (i + e.oldLen)) = k - i by omega,
      show e.newLen + (l - (j + e.newLen)) = l - j by omega]
    exact ⟨rfl, rfl⟩

/-- A hunk that stands behind `a` old lines and `b` new ones and shows the lines of both sides up to `k`
and `l`. -/
structure Shows (old new : Array Line) (h : Hunk) (a b k l : Nat) : Prop where
  index : h.sourceIndex = a
  destIndex : h.destIndex = b
  source : h.sourceLines = slice old a (k - a)
  dest : h.destLines = slice new b (l - b)

/-- Hunks that follow each other, from the lines `c` and `d` on, and what they leave out is the same on
both sides. -/
inductive Covers (old new : Array Line) : Nat → Nat → List Hunk → Prop
  | done {c d : Nat} (h : old.toList.drop c = new.toList.drop d) : Covers old new c d []
  | hunk {c d g k l : Nat} {h : Hunk} {hs : List Hunk} (hgap : Agree old new c d g)
      (hshow : Shows old new h (c + g) (d + g) k l) (hak : c + g ≤ k) (hbl : d + g ≤ l)
      (hk : k ≤ old.size) (hl : l ≤ new.size) (hrest : Covers old new k l hs) :
      Covers old new c d (h :: hs)

/-- The hunk of a group stands at the group's first edit. -/
theorem ofGroup_cons (old new : Array Line) (e : Edit) (es : List Edit) :
    ∃ h, ofGroup? old new (e :: es) = some h ∧ h.sourceIndex = e.oldStart ∧
      h.destIndex = e.newStart ∧ h.destStart = startOf e.newStart h.destCount :=
  ⟨_, rfl, index_startOf .., index_startOf .., rfl⟩

theorem shows_ofGroup {a b k l : Nat} {es : List Edit} (hne : es ≠ [])
    (h : Spans (Own old new) a b es k l) (ha : StartsAt a es) :
    ∃ hunk, ofGroup? old new es = some hunk ∧ Shows old new (hunk.destAt b) a b k l := by
  cases es with
  | nil => exact absurd rfl hne
  | cons e es =>
    obtain ⟨hs, hd⟩ := lines_of_spans h
    obtain ⟨hunk, hof, hindex, _⟩ := ofGroup_cons old new e es
    have heq := hof
    rw [ofGroup?, Option.some.injEq] at heq
    refine ⟨hunk, hof, ?_, destIndex_destAt b hunk, ?_, ?_⟩
    · exact hindex.trans (ha e rfl)
    · rw [← heq]
      exact hs
    · rw [← heq]
      exact hd

theorem firstConflict?_append (pos : Nat) (xs ys : List Line) :
    firstConflict? pos xs (xs ++ ys) = none := by
  induction xs generalizing pos with
  | nil => rfl
  | cons x xs ih => simp [firstConflict?, ih]

theorem length_slice {ls : Array Line} {i k : Nat} (hik : i ≤ k) (hk : k ≤ ls.size) :
    (slice ls i (k - i)).length = k - i := by
  rw [Edit.slice_eq, List.length_take_of_le]
  rw [List.length_drop, Array.length_toList]
  omega

/-- Applying a hunk that shows lines of the text passes the lines in front of it, puts the new lines,
and goes on behind the old ones. -/
theorem applyAll_shows {label : Text} {number c a b k l : Nat} {h : Hunk} (hs : List Hunk)
    (hshow : Shows old new h a b k l) (hca : c ≤ a) (hak : a ≤ k) (hk : k ≤ old.size) :
    applyAll label old.size number c (h :: hs) (old.toList.drop c) =
      (applyAll label old.size (number + 1) k hs (old.toList.drop k)).map fun more =>
        slice old c (a - c) ++ slice new b (l - b) ++ more := by
  have hdrop : (old.toList.drop c).drop (a - c) = old.toList.drop a := by
    rw [List.drop_drop, Nat.add_sub_of_le hca]
  have hrest : slice old a (k - a) ++ old.toList.drop k = old.toList.drop a := by
    have := slice_append_drop old a (k - a)
    rwa [Nat.add_sub_of_le hak] at this
  have hfirst : firstConflict? a h.sourceLines (old.toList.drop a) = none := by
    rw [hshow.source, ← hrest]
    exact firstConflict?_append ..
  rw [applyAll]
  simp only [hshow.index, hdrop, hfirst]
  rw [if_neg (by omega), hshow.source, hshow.dest, length_slice hak hk, Nat.add_sub_of_le hak,
    List.drop_drop, Nat.add_sub_of_le hak, Edit.slice_eq old c]

theorem applyAll_nil (label : Text) (total number c : Nat) (rest : List Line) :
    applyAll label total number c [] rest = .ok rest := rfl

/-- Lines on which both sides agree, in front of what they end with. -/
theorem drop_of_agree {c d g : Nat} (h : Agree old new c d g)
    (hend : old.toList.drop (c + g) = new.toList.drop (d + g)) :
    old.toList.drop c = new.toList.drop d := by
  rw [← slice_append_drop old c g, ← slice_append_drop new d g, h.slice_eq, hend]

/-- Hunks that follow each other turn the old lines from `c` on into the new ones from `d` on. -/
theorem Covers.applyAll {c d : Nat} {hs : List Hunk} (h : Covers old new c d hs) (label : Text)
    (number : Nat) :
    applyAll label old.size number c hs (old.toList.drop c) = .ok (new.toList.drop d) := by
  induction h generalizing number with
  | done h => rw [applyAll_nil, h]
  | @hunk c d g k l h hs hgap hshow hak hbl hk hl hrest ih =>
    rw [applyAll_shows hs hshow (Nat.le_add_right c g) hak hk, ih]
    have hline : slice old c (c + g - c) = slice new d g := by
      rw [Nat.add_sub_cancel_left, hgap.slice_eq]
    have hdest := slice_append_drop new (d + g) (l - (d + g))
    rw [Nat.add_sub_of_le hbl] at hdest
    simp only [Except.map, hline, List.append_assoc, hdest, slice_append_drop]

/-- A group that is closed behind `k` and `l` becomes a hunk, and the hunks of the rest follow it. -/
theorem covers_group {c d g k l : Nat} {group : List Edit} {groups : List (List Edit)}
    (hne : group ≠ []) (hgap : Agree old new c d g)
    (hspan : Spans (Own old new) (c + g) (d + g) group k l) (hstart : StartsAt (c + g) group)
    (hk : k ≤ old.size) (hl : l ≤ new.size)
    (hrest : Covers old new k l (groups.filterMap (ofGroup? old new))) :
    Covers old new c d
      (((group :: groups).filterMap (ofGroup? old new)).modifyHead (destAt (d + g))) := by
  obtain ⟨h, hof, hshow⟩ := shows_ofGroup hne hspan hstart
  obtain ⟨hak, hbl⟩ := hspan.le
  rw [List.filterMap_cons_some hof]
  exact .hunk hgap hshow hak hbl hk hl hrest

/-- If the first group starts with an edit, so does the first hunk, and it stands where the edit does in
the new lines. -/
theorem modifyHead_destAt_cut (old new : Array Line) (n : Nat) (e : Edit) (group es : List Edit) :
    ((cut n (e :: group) es).filterMap (ofGroup? old new)).modifyHead (destAt e.newStart) =
      (cut n (e :: group) es).filterMap (ofGroup? old new) := by
  cases hcut : cut n (e :: group) es with
  | nil => rfl
  | cons first groups =>
    obtain ⟨more, rfl⟩ := head?_cut (congrArg List.head? hcut)
    obtain ⟨h, hof, _, _, hstart⟩ := ofGroup_cons old new e more
    rw [List.filterMap_cons_some hof, List.modifyHead_cons, destAt, ← hstart]

/-- Cutting a script into groups, with `group` read and the lines from `c` and `d` to it agreed on,
gives hunks that follow each other, once the first one stands where its group does in the new lines. -/
theorem covers_cut {n c d g i j k l : Nat} {group es : List Edit}
    (hgap : Agree old new c d g)
    (hgroup : Spans (Own old new) (c + g) (d + g) group i j)
    (hes : Spans (Own old new) i j es k l)
    (hstart : StartsAt (c + g) (group ++ es)) (hk : k ≤ old.size) (hl : l ≤ new.size)
    (hend : old.toList.drop k = new.toList.drop l) :
    Covers old new c d
      (((cut n group es).filterMap (ofGroup? old new)).modifyHead (destAt (d + g))) := by
  induction es generalizing group c d g i j with
  | nil =>
    obtain ⟨rfl, rfl⟩ := hes
    rw [List.append_nil] at hstart
    unfold cut
    split
    · obtain ⟨rfl, rfl⟩ := hgroup
      exact .done (drop_of_agree hgap hend)
    · obtain ⟨⟨rfl, rfl, ha⟩, rfl, rfl⟩ := hgroup
      refine .done (drop_of_agree (agree_add.mpr ⟨hgap, ha⟩) ?_)
      simpa only [oldLen, newLen, Nat.add_assoc] using hend
    · next hne _ => exact covers_group hne hgap hgroup hstart hk hl (.done hend)
  | cons e es ih =>
    obtain ⟨he, hes⟩ := hes
    have hmore : Spans (Own old new) (c + g) (d + g) (group ++ [e]) (i + e.oldLen)
        (j + e.newLen) := spans_append.mpr ⟨i, j, hgroup, he, rfl, rfl⟩
    have hjoin : Covers old new c d
        (((cut n (group ++ [e]) es).filterMap (ofGroup? old new)).modifyHead (destAt (d + g))) := by
      refine ih hgap hmore hes ?_
      rwa [List.append_assoc]
    cases e with
    | keep o p len =>
      rw [cut]
      split
      · next hlen =>
        obtain ⟨rfl, rfl, ha⟩ := he
        obtain ⟨r, rfl⟩ : ∃ r, len = n + r + n := ⟨len - 2 * n, by omega⟩
        obtain ⟨hfirst, hlast⟩ := agree_add.mp ha
        obtain ⟨hhead, hskip⟩ := agree_add.mp hfirst
        obtain ⟨hko, hlp⟩ := hes.le
        simp only [oldLen, newLen, ← Nat.add_assoc] at hes hko hlp hlast
        rw [Nat.add_sub_cancel, Nat.add_sub_cancel_left, ← Nat.add_assoc, ← Nat.add_assoc]
        have hnext : Covers old new (o + n) (p + n)
            ((cut n [keep (o + n + r) (p + n + r) n] es).filterMap (ofGroup? old new)) := by
          -- the next group starts with a kept stretch, which stands right on both sides
          rw [← modifyHead_destAt_cut old new n (keep (o + n + r) (p + n + r) n) [] es]
          refine ih hskip ⟨⟨rfl, rfl, hlast⟩, rfl, rfl⟩ hes ?_
          rintro e ⟨⟩
          rfl
        refine covers_group (by simp) hgap (spans_append.mpr
          ⟨o, p, hgroup, ⟨rfl, rfl, hhead⟩, rfl, rfl⟩) ?_ (show o + n ≤ old.size by omega)
          (show p + n ≤ new.size by omega) hnext
        exact hstart.replace_end fun _ ho => by
          rintro e ⟨⟩
          exact ho
      · exact hjoin
    | delete => exact hjoin
    | insert => exact hjoin
    | replace => exact hjoin

theorem spans_trimStart (n : Nat) {i j k l : Nat} {es : List Edit}
    (h : Spans (Own old new) i j es k l) (hs : StartsAt i es) :
    ∃ g, Agree old new i j g ∧ Spans (Own old new) (i + g) (j + g) (trimStart n es) k l ∧
      StartsAt (i + g) (trimStart n es) := by
  unfold trimStart
  split
  · next o p len es =>
    obtain ⟨⟨rfl, rfl, ha⟩, hes⟩ := h
    rw [show len = len - n + (len - (len - n)) by omega] at ha
    obtain ⟨hskip, hkeep⟩ := agree_add.mp ha
    refine ⟨len - n, hskip, ⟨⟨rfl, rfl, hkeep⟩, ?_⟩, by rintro e ⟨⟩; rfl⟩
    simp only [oldLen, newLen] at hes ⊢
    rwa [Nat.add_assoc, Nat.add_assoc, show len - n + (len - (len - n)) = len by omega]
  · exact ⟨0, Agree.zero i j, h, hs⟩

theorem spans_trimEnd (n : Nat) {i j k l : Nat} {es : List Edit}
    (h : Spans (Own old new) i j es k l) :
    ∃ a b g, Spans (Own old new) i j (trimEnd n es) a b ∧ Agree old new a b g ∧ a + g = k ∧
      b + g = l := by
  fun_induction trimEnd n es generalizing i j with
  | case1 => exact ⟨k, l, 0, h, Agree.zero k l, rfl, rfl⟩
  | case2 o p len =>
    obtain ⟨⟨rfl, rfl, ha⟩, rfl, rfl⟩ := h
    rw [show len = len - (len - n) + (len - n) by omega] at ha
    obtain ⟨hkeep, hskip⟩ := agree_add.mp ha
    refine ⟨_, _, len - n, ⟨⟨rfl, rfl, hkeep⟩, rfl, rfl⟩, hskip, ?_, ?_⟩
    · simp only [oldLen]
      omega
    · simp only [newLen]
      omega
  | case3 e es _ ih =>
    obtain ⟨a, b, g, hspan, hrest⟩ := ih h.2
    exact ⟨a, b, g, ⟨h.1, hspan⟩, hrest⟩

theorem startsAt_trimEnd (n : Nat) {i : Nat} {es : List Edit} (h : StartsAt i es) :
    StartsAt i (trimEnd n es) := by
  unfold trimEnd
  split
  · exact h
  · have ho := h _ rfl
    rintro e ⟨⟩
    exact ho
  · rintro e ⟨⟩
    exact h _ rfl

/-- The lines in front of the first hunk are the same on both sides. -/
theorem Covers.destIndex_eq {h : Hunk} {hs : List Hunk} (hc : Covers old new 0 0 (h :: hs)) :
    h.destIndex = h.sourceIndex := by
  cases hc with
  | hunk hgap hshow => exact hshow.destIndex.trans hshow.index.symm

/-- The hunks of a script follow each other, if the first one stands behind as many new lines as old ones. -/
theorem covers_of_spans {es : List Edit} (hspan : Spans (Own old new) 0 0 es old.size new.size)
    (hstart : StartsAt 0 es) :
    Covers old new 0 0 ((hunksOf old new es).modifyHead fun h => h.destAt h.sourceIndex) := by
  obtain ⟨g, hfirst, hspan, hstart⟩ := spans_trimStart contextLines hspan hstart
  obtain ⟨k, l, r, hspan, hlast, hk, hl⟩ := spans_trimEnd contextLines hspan
  have hend : old.toList.drop k = new.toList.drop l := by
    refine drop_of_agree hlast ?_
    rw [hk, hl, ← Array.length_toList, ← Array.length_toList, List.drop_length, List.drop_length]
  have hcovers : Covers old new 0 0 ((hunksOf old new es).modifyHead (destAt (0 + g))) :=
    covers_cut hfirst ⟨rfl, rfl⟩ hspan (startsAt_trimEnd contextLines hstart) (by omega) (by omega) hend
  cases hhunks : hunksOf old new es with
  | nil =>
    rw [hhunks] at hcovers
    exact hcovers
  | cons h hs =>
    rw [hhunks, List.modifyHead_cons] at hcovers
    have hplace : 0 + g = h.sourceIndex := (destIndex_destAt _ h).symm.trans hcovers.destIndex_eq
    rw [hplace] at hcovers
    exact hcovers

/-- The hunks between two lists follow each other, if the first one stands behind as many new lines as
old ones. -/
theorem covers_hunksOf (old new : Array Line) :
    Covers old new 0 0
      ((hunksOf old new (script old new)).modifyHead fun h => h.destAt h.sourceIndex) := by
  obtain ⟨hspan, hstart⟩ := spans_script old new
  exact covers_of_spans hspan hstart

/-- The hunks between two lists turn the first one into the second one. -/
theorem applyAll_hunksOf (label : Text) (old new : Array Line) :
    applyAll label old.size 0 0 (hunksOf old new (script old new)) old.toList =
      .ok new.toList :=
  (applyAll_modifyHead_destAt label old.size 0 0 sourceIndex _ old.toList).symm.trans
    ((covers_hunksOf old new).applyAll label 0)

end Hunk

end Patchwork
