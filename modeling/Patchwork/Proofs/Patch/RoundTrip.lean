import Patchwork.Proofs.Patch.Groups

/-!
# Patches reproduce the new text

Between two texts there is a patch exactly when they differ, and it turns the old text into the new
one whatever the label, the path and the name that faults are given.
-/
namespace Patchwork

open Text (Line)

namespace Edit

theorem commonStart_self (ls : List Line) : commonStart ls ls = ls.length := by
  induction ls with
  | nil => rfl
  | cons l ls ih => rw [commonStart_cons, if_pos rfl, ih, List.length_cons]

theorem commonEnd_nil : commonEnd ([] : List Line) [] = 0 := rfl

theorem search_self (ls : List Line) : search 0 0 ls ls = kept 0 0 ls.length := by
  rw [search]
  simp [commonStart_self, commonEnd_nil, kept]

theorem slideAll_of_none {old new : Array Line} {p : Edit → Bool} (hp : Focus.Kind p)
    (before : List Edit) {es : List Edit} (h : ∀ e ∈ es, p e = false) :
    slideAll old new p hp before es = before.reverse ++ es := by
  induction es generalizing before with
  | nil => rw [slideAll, List.append_nil]
  | cons e es ih =>
    rw [slideAll, dif_neg (by simp [h e List.mem_cons_self]),
      ih (e :: before) fun f hf => h f (List.mem_cons_of_mem e hf)]
    simp

theorem compact_kept (old new : Array Line) (i j len : Nat) :
    compact old new (kept i j len) = kept i j len := by
  have hnone {p : Edit → Bool} (hp : Focus.Kind p) : ∀ e ∈ kept i j len, p e = false := by
    intro e he
    unfold kept at he
    split at he
    · simp at he
    · rw [List.mem_singleton.mp he]
      exact hp.keep i j len
  have hstill {p : Edit → Bool} (hp : Focus.Kind p) :
      slideAll old new p hp [] (kept i j len) = kept i j len := slideAll_of_none hp [] (hnone hp)
  exact (congrArg (slideAll old new isInsert (.inr rfl) []) (hstill (.inl rfl))).trans
    (hstill (.inr rfl))

/-- A script without changes has no groups. -/
theorem groups_script_self (ls : Array Line) : groups contextLines (script ls ls) = [] := by
  rw [script, search_self, compact_kept]
  unfold kept
  split
  · rfl
  · have hend (len : Nat) : ¬ 2 * contextLines < len - (len - contextLines) -
        (len - (len - contextLines) - contextLines) := by
      rw [contextLines]
      omega
    simp [fold, Run.add, Run.edits, groups, trimStart, trimEnd, cut, hend]

end Edit

theorem hunksOf_self (ls : Array Line) : hunksOf ls ls (Edit.script ls ls) = [] := by
  rw [hunksOf, Edit.groups_script_self, List.filterMap_nil]

theorem Text.lines_injective {s t : Text} (h : Text.lines s = Text.lines t) : s = t := by
  rw [← Text.flatten_lines s, ← Text.flatten_lines t, h]

/-- Texts that differ have a patch between them. -/
theorem exists_ofTexts (labelPrefix path : Text) {old new : Text} (h : old ≠ new) :
    ∃ p, FilePatch.ofTexts? labelPrefix path old new = some p ∧ ∀ label, p.apply label old = .ok new := by
  have happly (label : Text) := Hunk.applyAll_hunksOf label (Text.lines old).toArray (Text.lines new).toArray
  simp only [List.size_toArray] at happly
  simp only [FilePatch.ofTexts?]
  split
  · next hnil =>
    have hsame := happly path
    rw [hnil, Hunk.applyAll_nil] at hsame
    exact absurd (Text.lines_injective (Except.ok.inj hsame)) h
  · refine ⟨_, rfl, fun label => ?_⟩
    rw [FilePatch.apply]
    simp only [happly, Except.map, Text.flatten_lines]

/-- The patch between two texts, applied to the old one: there is none if the texts are the same, and
else it gives the new text. -/
theorem apply_ofTexts (labelPrefix path label old new : Text) :
    (FilePatch.ofTexts? labelPrefix path old new).map (·.apply label old) =
      if old = new then none else some (.ok new) := by
  have happly := Hunk.applyAll_hunksOf label (Text.lines old).toArray (Text.lines new).toArray
  rw [List.size_toArray] at happly
  split
  · next heq =>
    subst heq
    simp only [FilePatch.ofTexts?, hunksOf_self, Option.map_none]
  · next hne =>
    simp only [FilePatch.ofTexts?]
    split
    · next hnil =>
      rw [hnil, Hunk.applyAll_nil] at happly
      exact absurd (Text.lines_injective (Except.ok.inj happly)) hne
    · rw [Option.map_some, FilePatch.apply]
      simp only [happly, Except.map, Text.flatten_lines]

end Patchwork
