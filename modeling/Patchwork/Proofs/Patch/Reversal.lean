import Patchwork.Proofs.Edit.Removal
import Patchwork.Proofs.Patch.RoundTrip

/-!
# Patches can be taken back

The patch between two texts, read backwards, turns the new text into the old one, as soon as its first
hunk stands behind as many new lines as old ones.  It stands there unless both texts have a first line and
start differently; every other hunk stands right on both sides in any case.
-/
namespace Patchwork

open Text (Line)
open Edit

variable {old new : Array Line}

theorem Edit.sameAt_comm (as bs : Array Line) (i j : Nat) : sameAt as bs i j = sameAt bs as j i := by
  unfold sameAt
  by_cases h : i < as.size ∧ j < bs.size
  · rw [dif_pos h, dif_pos h.symm, Bool.beq_comm]
  · rw [dif_neg h, dif_neg fun h' => h h'.symm]

theorem Edit.Agree.symm {i j len : Nat} (h : Agree old new i j len) : Agree new old j i len :=
  fun t ht => (sameAt_comm ..).trans (h t ht)

namespace Hunk

theorem Shows.reverse {h : Hunk} {a b k l : Nat} (hs : Shows old new h a b k l) :
    Shows new old h.reverse b a l k :=
  ⟨hs.destIndex, hs.index, (sourceLines_reverse h).trans hs.dest, (destLines_reverse h).trans hs.source⟩

/-- Hunks that follow each other do so when they are read backwards. -/
theorem Covers.reverse {c d : Nat} {hs : List Hunk} (h : Covers old new c d hs) :
    Covers new old d c (hs.map Hunk.reverse) := by
  induction h with
  | done h => exact .done h.symm
  | hunk hgap hshow hak hbl hk hl _ ih => exact .hunk hgap.symm hshow.reverse hbl hak hl hk ih

/-- A script starts at the same position on both sides. -/
def Level (es : List Edit) : Prop := ∀ e ∈ es.head?, e.newStart = e.oldStart

theorem level_trimStart (n : Nat) {es : List Edit} (h : Level es) : Level (trimStart n es) := by
  unfold trimStart
  split
  · next o p len es =>
    have hop : p = o := h _ rfl
    rintro e ⟨⟩
    simp only [newStart, oldStart, hop]
  · exact h

theorem level_trimEnd (n : Nat) {es : List Edit} (h : Level es) : Level (trimEnd n es) := by
  unfold trimEnd
  split
  · exact h
  · next o p len =>
    have hop : p = o := h _ rfl
    rintro e ⟨⟩
    exact hop
  · next e es _ =>
    have he : e.newStart = e.oldStart := h e rfl
    rintro e' ⟨⟩
    exact he

theorem level_cut (n : Nat) {es first : List Edit} (h : Level es) (hf : (cut n [] es).head? = some first) :
    first ≠ [] ∧ Level first := by
  cases es with
  | nil => cases hf
  | cons e es =>
    have he : e.newStart = e.oldStart := h e rfl
    have hjoin : (cut n [e] es).head? = some first → first ≠ [] ∧ Level first := by
      intro hf
      obtain ⟨more, rfl⟩ := head?_cut hf
      refine ⟨List.cons_ne_nil e more, ?_⟩
      rintro e' ⟨⟩
      exact he
    cases e with
    | keep o p len =>
      rw [cut] at hf
      split at hf
      · cases hf
        refine ⟨List.cons_ne_nil _ _, ?_⟩
        rintro e' ⟨⟩
        exact he
      · exact hjoin hf
    | delete | insert | replace => exact hjoin hf

/-- The first hunk of a script that starts at the same position on both sides does so too. -/
theorem grounded_of_level {es : List Edit} (h : Level es) :
    (hunksOf old new es).modifyHead (fun h => h.destAt h.sourceIndex) = hunksOf old new es := by
  rw [hunksOf, Edit.groups]
  cases hcut : cut contextLines [] (trimEnd contextLines (trimStart contextLines es)) with
  | nil => rfl
  | cons first groups =>
    obtain ⟨hne, hlevel⟩ := level_cut contextLines (level_trimEnd contextLines
      (level_trimStart contextLines h)) (congrArg List.head? hcut)
    obtain ⟨e, more, rfl⟩ := List.exists_cons_of_ne_nil hne
    obtain ⟨hunk, hof, hsource, _, hdest⟩ := ofGroup_cons old new e more
    rw [List.filterMap_cons_some hof, List.modifyHead_cons, hsource, destAt, ← hlevel e rfl, ← hdest]

/-- Scripts start at the same position on both sides, unless both lists have a first line and start
differently. -/
theorem level_script (h : ∀ a ∈ old.toList.head?, ∀ b ∈ new.toList.head?, a = b) :
    Level (script old new) := by
  obtain ⟨hspan, hstart⟩ := spans_script old new
  intro e he
  obtain ⟨more, hmore⟩ : ∃ more, script old new = e :: more := by
    cases hscript : script old new with
    | nil =>
      rw [hscript] at he
      cases he
    | cons first more =>
      rw [hscript] at he
      cases he
      exact ⟨more, rfl⟩
  have ho : e.oldStart = 0 := hstart e he
  rw [hmore] at hspan
  obtain ⟨hplace, _⟩ := hspan
  rw [ho]
  cases e with
  | keep => exact hplace.2.1
  | insert => exact hplace
  | replace => exact hplace.2
  | delete o len n =>
    -- the position among the new lines may be stale here
    by_cases hnew : new.toList = []
    · have hsize : new.size = 0 := by rw [← Array.length_toList, hnew, List.length_nil]
      have hle : n ≤ new.size := hplace.2
      show n = 0
      omega
    · obtain ⟨a, b, ha, hb, hab⟩ := head?_ne_of_script hmore hnew
      exact absurd (h a ha b hb) hab

end Hunk

/-- The patch between two texts, read backwards, turns the new text into the old one, with its first hunk
behind as many new lines as old ones; and where the texts do not start with different lines, it does so
as it is. -/
theorem apply_reverse_ofTexts {labelPrefix path old new : Text} {p : FilePatch} (label : Text)
    (h : FilePatch.ofTexts? labelPrefix path old new = some p) :
    p.grounded.reverse.apply label new = .ok old ∧
      ((∀ a ∈ (Text.lines old).head?, ∀ b ∈ (Text.lines new).head?, a = b) →
        p.reverse.apply label new = .ok old) := by
  have hhunks : p.hunks = hunksOf (Text.lines old).toArray (Text.lines new).toArray
      (script (Text.lines old).toArray (Text.lines new).toArray) := by
    simp only [FilePatch.ofTexts?] at h
    split at h
    · cases h
    · cases h
      rfl
  have hback : p.grounded.reverse.apply label new = .ok old := by
    have hcovers := (Hunk.covers_hunksOf (Text.lines old).toArray (Text.lines new).toArray).reverse
    have happly := hcovers.applyAll label 0
    rw [← hhunks, List.size_toArray] at happly
    rw [FilePatch.apply, FilePatch.reverse, FilePatch.grounded]
    simp only [List.drop_zero] at happly
    simp only [happly, Except.map, Text.flatten_lines]
  refine ⟨hback, fun hstart => ?_⟩
  have hlevel : Hunk.Level (script (Text.lines old).toArray (Text.lines new).toArray) :=
    Hunk.level_script hstart
  have hground : p.grounded = p := by
    rw [FilePatch.grounded, hhunks, Hunk.grounded_of_level hlevel, ← hhunks]
  rwa [hground] at hback

/-- Behind a first line that both texts have, a line is removed in front of one that is kept. -/
theorem apply_reverse_ofTexts_sameStart : ∃ p,
    FilePatch.ofTexts? [] ['f'] "x\nb\na\n".toList "x\na\na\n".toList = some p ∧
      p.grounded.reverse.apply ['f'] "x\na\na\n".toList = .ok "x\nb\na\n".toList ∧
      p.reverse.apply ['f'] "x\na\na\n".toList = .ok "x\nb\na\n".toList := by
  have hpatch : FilePatch.ofTexts? [] ['f'] "x\nb\na\n".toList "x\na\na\n".toList =
      some ⟨['f'], ['f'], [⟨1, 3, 1, 3, [⟨.context, "x\n".toList⟩, ⟨.delete, "b\n".toList⟩,
        ⟨.context, "a\n".toList⟩, ⟨.insert, "a\n".toList⟩]⟩]⟩ := by cbv
  have hback := apply_reverse_ofTexts ['f'] hpatch
  refine ⟨_, hpatch, hback.1, hback.2 ?_⟩
  rintro a ⟨⟩ b ⟨⟩
  rfl

/-- The removed line comes first, and the hunk is said to stand behind a line of the new text: the text
ends before what is expected there. -/
theorem reverse_misplaced : ∃ p,
    FilePatch.ofTexts? [] ['f'] "b\na\n".toList "a\na\n".toList = some p ∧
      p.reverse.apply ['f'] "a\na\n".toList = .error (.patchConflict ['f'] 1 3 .fileEnds) := by
  have hpatch : FilePatch.ofTexts? [] ['f'] "b\na\n".toList "a\na\n".toList =
      some ⟨['f'], ['f'], [⟨1, 2, 2, 2, [⟨.delete, "b\n".toList⟩, ⟨.context, "a\n".toList⟩,
        ⟨.insert, "a\n".toList⟩]⟩]⟩ := by cbv
  exact ⟨_, hpatch, by rfl⟩

end Patchwork
