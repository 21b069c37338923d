import Mathlib
import Patchwork.Zip.Reader

/-!
# Listing and reading an archive

An archive can be listed just when it can be read, and the list has the headers of the members.
-/
namespace Patchwork.Zip

variable {bs : Bytes} {e : Listed} {m : Member}

theorem split_error {n : Nat} {failure : Failure} (h : split n bs = .error failure) :
    failure = .io .shortRead := by
  unfold split at h
  dsimp only at h
  split at h
  · cases h
    rfl
  · cases h

/-- Why the data of an entry may not be found. -/
theorem member_error {failure : Failure} (h : e.member bs = .error failure) :
    failure = .io (.os .invalidArgument) ∨ failure = .io .shortRead ∨
      failure = .flaw .notLocalHeader := by
  unfold Listed.member at h
  split at h
  · cases h
    exact Or.inl rfl
  · simp only [bind, Except.bind] at h
    split at h
    · next hs =>
      cases h
      exact Or.inr (Or.inl (split_error hs))
    · split at h
      · cases h
        exact Or.inr (Or.inr rfl)
      · split at h
        · next hs =>
          cases h
          exact Or.inr (Or.inl (split_error hs))
        · cases h

theorem member_header (h : e.member bs = .ok m) : m.toHeader = e.toHeader := by
  unfold Listed.member at h
  split at h
  · cases h
  · simp only [bind, Except.bind] at h
    split at h
    · cases h
    · split at h
      · cases h
      · split at h
        · cases h
        · cases h
          rfl

theorem mapM_header {es : List Listed} {ms : List Member} (h : es.mapM (·.member bs) = .ok ms) :
    ms.map (·.toHeader) = es.map (·.toHeader) := by
  induction es generalizing ms with
  | nil =>
    cases h
    rfl
  | cons e es ih =>
    rw [List.mapM_cons] at h
    simp only [bind, Except.bind] at h
    split at h
    · cases h
    · next m hm =>
      split at h
      · cases h
      · next ms' hms =>
        cases h
        rw [List.map_cons, List.map_cons, member_header hm, ih hms]

theorem index_of_read {a : Archive} (h : read bs = .ok a) :
    ∃ es, index bs = .ok es ∧ es.mapM (·.member bs) = .ok a.members := by
  unfold read at h
  unfold index
  cases hd : Directory.read bs with
  | error failure =>
    rw [hd] at h
    cases h
  | ok d =>
    rw [hd] at h
    simp only [bind, Except.bind] at h ⊢
    cases hms : d.entries.mapM (·.member bs) with
    | error failure =>
      rw [hms] at h
      cases h
    | ok ms =>
      rw [hms] at h
      cases h
      exact ⟨d.entries, rfl, hms⟩

theorem read_of_index {es : List Listed} (h : index bs = .ok es) :
    ∃ a, read bs = .ok a ∧ es.mapM (·.member bs) = .ok a.members := by
  unfold index at h
  unfold read
  cases hd : Directory.read bs with
  | error failure =>
    rw [hd] at h
    cases h
  | ok d =>
    rw [hd] at h
    simp only [bind, Except.bind] at h ⊢
    cases hms : d.entries.mapM (·.member bs) with
    | error failure =>
      rw [hms] at h
      cases h
    | ok ms =>
      rw [hms] at h
      cases h
      exact ⟨⟨d.comment, ms⟩, rfl, hms⟩

theorem write_ne_nil (ms : List Member) : write ms ≠ [] := by
  intro h
  have hend := (List.append_eq_nil_iff.mp h).2
  cases hend

end Patchwork.Zip
