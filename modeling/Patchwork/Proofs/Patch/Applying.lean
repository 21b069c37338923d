import Mathlib.Data.List.Basic
import Patchwork.Patch.Apply

/-!
# Where patches apply

A patch applies just where each hunk starts in the file, not in front of where the one before it ends, and the
lines that it shows stand there.  Then its lines take their place; otherwise the first hunk that does not fit
is named, and the line where it does not.
-/
namespace Patchwork

open Text (Line)

section Mapped

variable {α β ε : Type} {r : Except ε α} {g : α → β} {b : β} {e : ε}

theorem map_eq_ok_iff : r.map g = .ok b ↔ ∃ a, r = .ok a ∧ g a = b := by
  cases r <;> simp [Except.map]

theorem map_eq_error_iff : r.map g = .error e ↔ r = .error e := by
  cases r <;> simp [Except.map]

end Mapped

/-- The lines of a file from one index to another one, if both lie in the file and in this order. -/
def between? (ls : List Line) (i j : Nat) : Option (List Line) :=
  if i ≤ j ∧ j ≤ ls.length then some ((ls.take j).drop i) else none

/-- Why a line that a file has at an index, or does not have, is not the expected one. -/
def Conflict.of (expected : Line) : Option Line → Conflict
  | none => .fileEnds
  | some found => .differs expected found

namespace Hunk

/-- How many lines of the file stand before the end of the hunk. -/
def sourceEnd (h : Hunk) : Nat := h.sourceIndex + h.sourceLines.length

/-- Each hunk with the number of lines that are done with when it is its turn. -/
def chained (cursor : Nat) (hs : List Hunk) : List (Nat × Hunk) := (cursor :: hs.map sourceEnd).zip hs

/-- A hunk starts in the file behind the lines that are done with, and its lines stand there. -/
structure Applies (ls : List Line) (cursor : Nat) (h : Hunk) : Prop where
  start : cursor ≤ h.sourceIndex ∧ h.sourceIndex ≤ ls.length
  lines : between? ls h.sourceIndex h.sourceEnd = some h.sourceLines

/-- Where a hunk does not fit, and why: it starts outside, or it starts right and there is a first line that is
not the one that it shows. -/
inductive Misfits (ls : List Line) (cursor : Nat) (h : Hunk) : Nat → Conflict → Prop
  | start (hstart : ¬ (cursor ≤ h.sourceIndex ∧ h.sourceIndex ≤ ls.length)) :
      Misfits ls cursor h h.sourceStart (.startsOutside ls.length)
  | line {i : Nat} {expected : Line} (hstart : cursor ≤ h.sourceIndex ∧ h.sourceIndex ≤ ls.length)
      (hbefore : ∀ j < i, ls[h.sourceIndex + j]? = h.sourceLines[j]?)
      (hexpected : h.sourceLines[i]? = some expected) (hdiffers : ls[h.sourceIndex + i]? ≠ some expected) :
      Misfits ls cursor h (h.sourceIndex + i + 1) (.of expected ls[h.sourceIndex + i]?)

/-- The lines of a file behind the first `cursor`, with the lines of each hunk in the place of those that it
shows. -/
def spliced (ls : List Line) (cursor : Nat) (hs : List Hunk) : List Line :=
  (chained cursor hs).flatMap (fun q => (ls.take q.2.sourceIndex).drop q.1 ++ q.2.destLines) ++
    ls.drop ((hs.map sourceEnd).getLastD cursor)

variable {label : Text} {ls es fs out : List Line} {number cursor pos line i j : Nat} {h : Hunk}
  {hs : List Hunk} {reason : Conflict} {f : Fault}

@[simp] theorem chained_nil : chained cursor [] = [] := rfl

@[simp] theorem chained_cons : chained cursor (h :: hs) = (cursor, h) :: chained h.sourceEnd hs := rfl

@[simp] theorem spliced_nil : spliced ls cursor [] = ls.drop cursor := rfl

@[simp] theorem spliced_cons : spliced ls cursor (h :: hs) =
    (ls.take h.sourceIndex).drop cursor ++ h.destLines ++ spliced ls h.sourceEnd hs := by
  simp only [spliced, chained_cons, List.flatMap_cons, List.map_cons, List.getLastD_cons, List.append_assoc]

/-! ### The lines of one hunk -/

theorem firstConflict?_eq_none_iff : firstConflict? pos es fs = none ↔ es <+: fs := by
  induction es generalizing pos fs with
  | nil => simp [firstConflict?]
  | cons expected es ih =>
    cases fs with
    | nil => simp [firstConflict?]
    | cons found fs => by_cases he : expected = found <;> simp [firstConflict?, he, ih]

/-- A conflict is at the first line that is not the expected one. -/
theorem firstConflict?_eq_some (hc : firstConflict? pos es fs = some (line, reason)) :
    ∃ i expected, es[i]? = some expected ∧ (∀ j < i, fs[j]? = es[j]?) ∧ fs[i]? ≠ some expected ∧
      line = pos + i + 1 ∧ reason = .of expected fs[i]? := by
  induction es generalizing pos fs with
  | nil => simp [firstConflict?] at hc
  | cons expected es ih =>
    cases fs with
    | nil =>
      simp only [firstConflict?, Option.some.injEq, Prod.mk.injEq] at hc
      exact ⟨0, expected, rfl, by simp, by simp, hc.1.symm, hc.2.symm⟩
    | cons found fs =>
      rw [firstConflict?] at hc
      split at hc
      · next he =>
        obtain ⟨i, e, hexp, hbefore, hne, hline, hreason⟩ := ih hc
        refine ⟨i + 1, e, hexp, fun j hj => ?_, hne, by omega, hreason⟩
        cases j with
        | zero => simp [he]
        | succ j => exact hbefore j (by omega)
      · next he =>
        simp only [Option.some.injEq, Prod.mk.injEq] at hc
        exact ⟨0, expected, rfl, by simp, by simpa using Ne.symm he, hc.1.symm, hc.2.symm⟩

theorem between?_eq_some_iff (hi : i ≤ ls.length) :
    between? ls i (i + es.length) = some es ↔ es <+: ls.drop i := by
  simp only [between?, Nat.le_add_right, true_and, Option.ite_none_right_eq_some, Option.some.injEq,
    List.drop_take, Nat.add_sub_cancel_left, List.prefix_iff_eq_take]
  refine ⟨fun h => h.2.symm, fun h => ⟨?_, h.symm⟩⟩
  have hlen := congrArg List.length h
  simp only [List.length_take, List.length_drop] at hlen
  omega

theorem sourceEnd_le (hstart : h.sourceIndex ≤ ls.length) (hstands : h.sourceLines <+: ls.drop h.sourceIndex) :
    h.sourceEnd ≤ ls.length := by
  have hlen := hstands.length_le
  rw [List.length_drop] at hlen
  rw [sourceEnd]
  omega

theorem Applies.stands (hfit : Applies ls cursor h) : h.sourceLines <+: ls.drop h.sourceIndex :=
  (between?_eq_some_iff hfit.start.2).mp hfit.lines

theorem Applies.not_misfits (hfit : Applies ls cursor h) : ¬ Misfits ls cursor h line reason := by
  intro hmis
  cases hmis with
  | start hstart => exact hstart hfit.start
  | line hstart hbefore hexpected hdiffers =>
    obtain ⟨rest, hrest⟩ := hfit.stands
    apply hdiffers
    rw [← List.getElem?_drop, ← hrest, List.getElem?_append_left (List.getElem?_eq_some_iff.mp hexpected).1]
    exact hexpected

theorem Misfits.unique {line' : Nat} {reason' : Conflict} (hmis : Misfits ls cursor h line reason)
    (hmis' : Misfits ls cursor h line' reason') : line' = line ∧ reason' = reason := by
  cases hmis with
  | start hstart =>
    cases hmis' with
    | start => exact ⟨rfl, rfl⟩
    | line hstart' => exact absurd hstart' hstart
  | @line i expected hstart hbefore hexpected hdiffers =>
    cases hmis' with
    | start hstart' => exact absurd hstart hstart'
    | @line i' expected' _ hbefore' hexpected' hdiffers' =>
      rcases Nat.lt_trichotomy i i' with hlt | rfl | hlt
      · exact absurd ((hbefore' i hlt).trans hexpected) hdiffers
      · obtain rfl : expected' = expected := Option.some.inj (hexpected'.symm.trans hexpected)
        exact ⟨rfl, rfl⟩
      · exact absurd ((hbefore i' hlt).trans hexpected') hdiffers'

/-! ### Hunks one after the other -/

theorem applyAll_cons : applyAll label ls.length number cursor (h :: hs) (ls.drop cursor) =
    if h.sourceIndex < cursor ∨ ls.length < h.sourceIndex then
      .error (.patchConflict label (number + 1) h.sourceStart (.startsOutside ls.length))
    else match firstConflict? h.sourceIndex h.sourceLines (ls.drop h.sourceIndex) with
      | some (line, reason) => .error (.patchConflict label (number + 1) line reason)
      | none => (applyAll label ls.length (number + 1) h.sourceEnd hs (ls.drop h.sourceEnd)).map fun more =>
        (ls.take h.sourceIndex).drop cursor ++ h.destLines ++ more := by
  rw [applyAll]
  dsimp only
  split
  · rfl
  · next hstart =>
    have hcursor : cursor + (h.sourceIndex - cursor) = h.sourceIndex := by omega
    have hrest : (ls.drop cursor).drop (h.sourceIndex - cursor) = ls.drop h.sourceIndex := by
      rw [List.drop_drop, hcursor]
    cases hc : firstConflict? h.sourceIndex h.sourceLines (ls.drop h.sourceIndex) <;>
      simp only [hrest, hc, List.drop_drop, List.drop_take, sourceEnd]

theorem applyAll_applies (hfit : Applies ls cursor h) :
    applyAll label ls.length number cursor (h :: hs) (ls.drop cursor) =
      (applyAll label ls.length (number + 1) h.sourceEnd hs (ls.drop h.sourceEnd)).map fun more =>
        (ls.take h.sourceIndex).drop cursor ++ h.destLines ++ more := by
  have hnone : firstConflict? h.sourceIndex h.sourceLines (ls.drop h.sourceIndex) = none :=
    firstConflict?_eq_none_iff.mpr hfit.stands
  rw [applyAll_cons, if_neg (by have := hfit.start; omega), hnone]

/-- A hunk fits, or applying it ends with what does not. -/
theorem applies_or_misfits (label : Text) (ls : List Line) (number cursor : Nat) (h : Hunk) (hs : List Hunk) :
    Applies ls cursor h ∨ ∃ line reason, Misfits ls cursor h line reason ∧
      applyAll label ls.length number cursor (h :: hs) (ls.drop cursor) =
        .error (.patchConflict label (number + 1) line reason) := by
  by_cases hstart : cursor ≤ h.sourceIndex ∧ h.sourceIndex ≤ ls.length
  · have hin : ¬ (h.sourceIndex < cursor ∨ ls.length < h.sourceIndex) := by omega
    cases hc : firstConflict? h.sourceIndex h.sourceLines (ls.drop h.sourceIndex) with
    | none =>
      have hstands := (between?_eq_some_iff hstart.2).mpr (firstConflict?_eq_none_iff.mp hc)
      exact .inl ⟨hstart, hstands⟩
    | some c =>
      obtain ⟨line, reason⟩ := c
      refine .inr ⟨line, reason, ?_, by rw [applyAll_cons, if_neg hin, hc]⟩
      obtain ⟨i, expected, hexp, hbefore, hne, rfl, rfl⟩ := firstConflict?_eq_some hc
      simp only [List.getElem?_drop] at hbefore hne ⊢
      exact .line hstart hbefore hexp hne
  · refine .inr ⟨_, _, .start hstart, ?_⟩
    rw [applyAll_cons, if_pos (by omega)]

/-- By induction on the hunks.  The cursor of each is the end of the one before it. -/
theorem applyAll_eq_ok_iff : applyAll label ls.length number cursor hs (ls.drop cursor) = .ok out ↔
    (∀ q ∈ chained cursor hs, Applies ls q.1 q.2) ∧ out = spliced ls cursor hs := by
  induction hs generalizing number cursor out with
  | nil => simp [applyAll, eq_comm]
  | cons h hs ih =>
    rcases applies_or_misfits label ls number cursor h hs with hfit | ⟨line, reason, hmis, herr⟩
    · rw [applyAll_applies hfit, map_eq_ok_iff, chained_cons, List.forall_mem_cons, spliced_cons]
      constructor
      · rintro ⟨more, hrest, rfl⟩
        obtain ⟨hall, rfl⟩ := ih.mp hrest
        exact ⟨⟨hfit, hall⟩, rfl⟩
      · rintro ⟨⟨-, hall⟩, rfl⟩
        exact ⟨_, ih.mpr ⟨hall, rfl⟩, rfl⟩
    · rw [herr, chained_cons, List.forall_mem_cons]
      refine ⟨nofun, fun hall => ?_⟩
      exact absurd hmis hall.1.1.not_misfits

/-- By induction on the hunks.  The fault is that of the first one that does not fit. -/
theorem applyAll_eq_error_iff : applyAll label ls.length number cursor hs (ls.drop cursor) = .error f ↔
    ∃ before c h after line reason, chained cursor hs = before ++ (c, h) :: after ∧
      (∀ q ∈ before, Applies ls q.1 q.2) ∧ Misfits ls c h line reason ∧
      f = .patchConflict label (number + before.length + 1) line reason := by
  induction hs generalizing number cursor with
  | nil => simp [applyAll]
  | cons g hs ih =>
    rcases applies_or_misfits label ls number cursor g hs with hfit | ⟨line, reason, hmis, herr⟩
    · rw [applyAll_applies hfit, map_eq_error_iff, ih]
      constructor
      · rintro ⟨before, c, h, after, line, reason, hsplit, hall, hmis, rfl⟩
        refine ⟨(cursor, g) :: before, c, h, after, line, reason, ?_, List.forall_mem_cons.mpr ⟨hfit, hall⟩, hmis, ?_⟩
        · rw [chained_cons, hsplit, List.cons_append]
        · rw [List.length_cons, Nat.add_right_comm number 1, ← Nat.add_assoc]
      · rintro ⟨before, c, h, after, line, reason, hsplit, hall, hmis, rfl⟩
        cases before with
        | nil =>
          cases hsplit
          exact absurd hmis hfit.not_misfits
        | cons q before =>
          obtain ⟨rfl, htail⟩ := List.cons.inj hsplit
          refine ⟨before, c, h, after, line, reason, htail, (List.forall_mem_cons.mp hall).2, hmis, ?_⟩
          rw [List.length_cons, Nat.add_right_comm number 1, ← Nat.add_assoc]
    · rw [herr]
      constructor
      · rintro ⟨⟩
        exact ⟨[], cursor, g, chained g.sourceEnd hs, line, reason, rfl, nofun, hmis, rfl⟩
      · rintro ⟨before, c, h, after, line', reason', hsplit, hall, hmis', rfl⟩
        cases before with
        | nil =>
          cases hsplit
          obtain ⟨rfl, rfl⟩ := hmis.unique hmis'
          rfl
        | cons q before =>
          obtain ⟨rfl, -⟩ := List.cons.inj hsplit
          exact absurd hmis (hall _ List.mem_cons_self).not_misfits

/-! ### Indices into the file -/

/-- Goes through the lines of a hunk with the index `pos` of the next line of the file, and puts what they
leave behind `out`. -/
def throughLines (ls : List Line) (pos : Nat) (out : List Line) :
    List HunkLine → Except (Nat × Conflict) (Nat × List Line)
  | [] => .ok (pos, out)
  | l :: lines =>
    if l.kind = .insert then throughLines ls pos (out ++ [l.text]) lines
    else match ls[pos]? with
      | none => .error (pos + 1, .fileEnds)
      | some found =>
        if found = l.text then
          throughLines ls (pos + 1) (if l.kind = .context then out ++ [found] else out) lines
        else .error (pos + 1, .differs l.text found)

/-- Goes through the hunks with the index `cursor` of the next line of the file, and puts what they leave
behind `out`.  Answers nothing if lines are asked for that the file does not have. -/
def throughHunks (label : Text) (ls : List Line) (number cursor : Nat) (out : List Line) :
    List Hunk → Option (Except Fault (List Line))
  | [] => (between? ls cursor ls.length).map fun rest => .ok (out ++ rest)
  | h :: hs =>
    let start := h.sourceIndex
    if start < cursor ∨ ls.length < start then
      some (.error (.patchConflict label (number + 1) h.sourceStart (.startsOutside ls.length)))
    else (between? ls cursor start).bind fun before =>
      match throughLines ls start (out ++ before) h.lines with
      | .ok (pos, out) => throughHunks label ls (number + 1) pos out hs
      | .error (line, reason) => some (.error (.patchConflict label (number + 1) line reason))

/-- Going through the lines of a hunk finds the first conflict, or leaves the lines that the hunk leaves. -/
theorem throughLines_eq (ls : List Line) (pos : Nat) (out : List Line) (lines : List HunkLine) :
    throughLines ls pos out lines =
      match firstConflict? pos ((lines.filter HunkLine.inSource).map HunkLine.text) (ls.drop pos) with
      | some c => .error c
      | none => .ok (pos + ((lines.filter HunkLine.inSource).map HunkLine.text).length,
          out ++ (lines.filter HunkLine.inDest).map HunkLine.text) := by
  induction lines generalizing pos out with
  | nil => simp [throughLines, firstConflict?]
  | cons l lines ih =>
    obtain ⟨kind, text⟩ := l
    cases kind with
    | insert => simp [throughLines, ih, List.filter_cons, HunkLine.inSource, HunkLine.inDest]
    | context | delete =>
      cases hget : ls[pos]? with
      | none =>
        have hdrop : ls.drop pos = [] := List.drop_eq_nil_of_le (List.getElem?_eq_none_iff.mp hget)
        simp [throughLines, hget, hdrop, List.filter_cons, HunkLine.inSource, firstConflict?]
      | some found =>
        have hdrop : ls.drop pos = found :: ls.drop (pos + 1) := by
          obtain ⟨hlt, rfl⟩ := List.getElem?_eq_some_iff.mp hget
          exact List.drop_eq_getElem_cons hlt
        by_cases hfound : found = text
        · simp [throughLines, hget, hdrop, hfound, ih, List.filter_cons, HunkLine.inSource, HunkLine.inDest,
            firstConflict?, Nat.add_assoc, Nat.add_comm 1]
        · simp [throughLines, hget, hdrop, hfound, Ne.symm hfound, List.filter_cons, HunkLine.inSource,
            firstConflict?]

/-- As long as the cursor is in the file, all lines that are asked for are there. -/
theorem throughHunks_eq (hcursor : cursor ≤ ls.length) :
    throughHunks label ls number cursor out hs =
      some ((applyAll label ls.length number cursor hs (ls.drop cursor)).map (out ++ ·)) := by
  induction hs generalizing number cursor out with
  | nil => simp [throughHunks, between?, hcursor, applyAll, Except.map]
  | cons h hs ih =>
    rw [throughHunks, applyAll_cons]
    split
    · rfl
    · next hstart =>
      have hwithin : cursor ≤ h.sourceIndex ∧ h.sourceIndex ≤ ls.length := by omega
      rw [between?, if_pos hwithin, Option.bind_some, throughLines_eq, ← sourceLines, ← destLines, ← sourceEnd]
      cases hc : firstConflict? h.sourceIndex h.sourceLines (ls.drop h.sourceIndex) with
      | some c => rfl
      | none =>
        dsimp only
        rw [ih (sourceEnd_le hwithin.2 (firstConflict?_eq_none_iff.mp hc))]
        cases applyAll label ls.length (number + 1) h.sourceEnd hs (ls.drop h.sourceEnd) with
        | error e => rfl
        | ok more => simp [Except.map]

end Hunk

namespace FilePatch

variable {p : FilePatch} {label text out : Text} {f : Fault}

theorem apply_eq (p : FilePatch) (label text : Text) : p.apply label text =
    (Hunk.applyAll label (Text.lines text).length 0 0 p.hunks ((Text.lines text).drop 0)).map List.flatten := rfl

theorem apply_eq_ok_iff : p.apply label text = .ok out ↔
    (∀ q ∈ Hunk.chained 0 p.hunks, Hunk.Applies (Text.lines text) q.1 q.2) ∧
      out = (Hunk.spliced (Text.lines text) 0 p.hunks).flatten := by
  rw [apply_eq, map_eq_ok_iff]
  constructor
  · rintro ⟨ls, hall, rfl⟩
    obtain ⟨hfits, rfl⟩ := Hunk.applyAll_eq_ok_iff.mp hall
    exact ⟨hfits, rfl⟩
  · rintro ⟨hfits, rfl⟩
    exact ⟨_, Hunk.applyAll_eq_ok_iff.mpr ⟨hfits, rfl⟩, rfl⟩

theorem apply_eq_error_iff : p.apply label text = .error f ↔
    ∃ before cursor h after line reason, Hunk.chained 0 p.hunks = before ++ (cursor, h) :: after ∧
      (∀ q ∈ before, Hunk.Applies (Text.lines text) q.1 q.2) ∧
      Hunk.Misfits (Text.lines text) cursor h line reason ∧
      f = .patchConflict label (before.length + 1) line reason := by
  rw [apply_eq, map_eq_error_iff, Hunk.applyAll_eq_error_iff]
  simp only [Nat.zero_add]

/-- A text is gone through by indices that lie in it.  It is changed just if each hunk fits; otherwise the first
one that does not is named, with the line where it does not. -/
theorem apply_exact (p : FilePatch) (label text : Text) :
    (Hunk.throughHunks label (Text.lines text) 0 0 [] p.hunks).map (·.map List.flatten) =
        some (p.apply label text) ∧
      (∀ out, p.apply label text = .ok out ↔
        (∀ q ∈ Hunk.chained 0 p.hunks, Hunk.Applies (Text.lines text) q.1 q.2) ∧
          out = (Hunk.spliced (Text.lines text) 0 p.hunks).flatten) ∧
      ∀ f, p.apply label text = .error f ↔
        ∃ before cursor h after line reason, Hunk.chained 0 p.hunks = before ++ (cursor, h) :: after ∧
          (∀ q ∈ before, Hunk.Applies (Text.lines text) q.1 q.2) ∧
          Hunk.Misfits (Text.lines text) cursor h line reason ∧
          f = .patchConflict label (before.length + 1) line reason := by
  refine ⟨?_, fun out => apply_eq_ok_iff, fun f => apply_eq_error_iff⟩
  rw [Hunk.throughHunks_eq (Nat.zero_le _), apply_eq]
  cases Hunk.applyAll label (Text.lines text).length 0 0 p.hunks ((Text.lines text).drop 0) <;> rfl

end FilePatch

end Patchwork
