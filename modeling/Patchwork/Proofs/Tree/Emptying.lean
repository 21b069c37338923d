import Patchwork.Proofs.Tree.Confined
import Patchwork.Proofs.Volume.Alike
import Patchwork.Proofs.Volume.Opened

/-!
# Directories that are empty once they are cleared

What clearing a directory is for, and what is kept when it is done: files that were opened before hold what
they held, and nothing changes but below the directory, once it and those above it are made.
-/
namespace Patchwork.Tree

open Volume

variable {u v w : Volume} {p s : Place} {dir : Text} {o : Opened} {c d : Bytes} {r : Except Fault Unit}

/-- Clearing does what it is for: an empty directory is found at the path afterwards. -/
def Clears (v : Volume) (dir : Text) : Prop :=
  ∀ w, Disk.on v (clearDir dir) = (.ok (), w) →
    ∃ p, w.find .item dir = .ok (p, .dir) ∧ ∀ q, q ≠ [] → w.item? (p ++ q) = none

/-- A directory whose place is known beforehand is empty if it is still found. -/
theorem Leaves.clears (hl : Leaves v dir dir) (hv : v.Sound) (hc : canonical v dir = .ok p) :
    Clears v dir := by
  intro w hrun
  obtain ⟨hcleared, hempty⟩ := hl.cleared hv hc hrun
  exact ⟨p, hcleared.find, hempty⟩

/-- The volume once a directory and those above it are made, unless they are there. -/
def made (v : Volume) (dir : Text) : Volume := (Disk.on v (Disk.createDirAll dir)).2

theorem grows_made (v : Volume) (dir : Text) : Grows v (made v dir) := Disk.grows_createDirAll dir v

/-- A directory that is there loses all that is in it; in all other cases, no more is done than making it. -/
theorem clearDir_cases (hrun : Disk.on v (clearDir dir) = (r, w)) :
    (∃ p, v.find .item dir = .ok (p, .dir) ∧ made v dir = v ∧ w = v.clear p) ∨
      v.isDir dir = false ∧ w = made v dir := by
  cases hf : v.find .item dir with
  | error e =>
    rw [clearDir_of_error hf, Disk.on_io] at hrun
    cases hrun
    refine .inr ⟨?_, rfl⟩
    rw [isDir, hf]
  | ok found =>
    obtain ⟨p, i⟩ := found
    have hmade : made v dir = v := Disk.makeDirs_of_present hf
    cases i with
    | dir =>
      rw [clearDir_of_find hf] at hrun
      cases hrun
      exact .inl ⟨p, rfl, hmade, rfl⟩
    | file | link =>
      simp only [Disk.on, ExceptT.run, clearDir, hf] at hrun
      cases hrun
      refine .inr ⟨?_, hmade.symm⟩
      rw [isDir, hf]

theorem sound_clearDir (hv : v.Sound) (hrun : Disk.on v (clearDir dir) = (r, w)) : w.Sound := by
  obtain ⟨p, -, -, rfl⟩ | ⟨-, rfl⟩ := clearDir_cases hrun
  · exact hv.clear p
  · exact (grows_made v dir).sound hv

/-- Files that were opened before hold what they held, even if they are taken away. -/
theorem reads_clearDir (hreads : Reads v o c) (hv : v.Sound) (hrun : Disk.on v (clearDir dir) = (r, w)) :
    Reads w o c := by
  obtain ⟨p, -, -, rfl⟩ | ⟨-, rfl⟩ := clearDir_cases hrun
  · exact hreads.remove hv _
  · exact hreads.congr (grows_made v dir).lost ((grows_made v dir).kept _ _)

/-- Clearing a directory makes no files. -/
theorem file?_of_clearDir (hrun : Disk.on v (clearDir dir) = (r, w)) {q : Place}
    (h : w.file? q = some c) : v.file? q = some c := by
  obtain ⟨p, -, -, rfl⟩ | ⟨-, rfl⟩ := clearDir_cases hrun
  · exact file?_eq_some_iff.mpr (of_item?_clear (file?_eq_some_iff.mp h))
  · rwa [(grows_made v dir).file? (Disk.onlyDirs_createDirAll dir v)] at h

/-- The place is not in the directory at a path, once that is made. -/
def Outside (v : Volume) (dir : Text) (q : Place) : Prop :=
  ∀ p, (made v dir).find .item dir = .ok (p, .dir) → ¬ p <+: q

/-- Nothing changes outside the directory, once it is made. -/
theorem outside_clearDir (hrun : Disk.on v (clearDir dir) = (r, w)) {q : Place} (hq : Outside v dir q) :
    w.item? q = (made v dir).item? q := by
  obtain ⟨p, hf, hsame, rfl⟩ | ⟨-, rfl⟩ := clearDir_cases hrun
  · have hout := hq p (hsame.symm ▸ hf)
    rw [hsame, item?_clear, if_neg fun h => hout h.1]
  · rfl

/-- The directory that is found once it is cleared is the one that was made. -/
theorem find_made (hrun : Disk.on v (clearDir dir) = (r, w)) (hp : w.find .item dir = .ok (p, .dir)) :
    (made v dir).find .item dir = .ok (p, .dir) := by
  obtain ⟨q, hf, hsame, rfl⟩ | ⟨-, rfl⟩ := clearDir_cases hrun
  · rw [hsame]
    exact find_of_clear hp
  · exact hp

/-- Whether a file is to be cleared away or stands in the way of a directory, its content does not matter. -/
theorem blind_clearDir (s : Place) (dir : Text) : Disk.Blind s (clearDir dir) := by
  intro v w h
  rcases h.find_cases .item dir with hsame | ⟨c, d, hv, hw⟩
  · cases hf : v.find .item dir with
    | error e =>
      rw [clearDir_of_error hf, clearDir_of_error (hsame.trans hf)]
      exact (Disk.blind_createDirAll dir).io v w h
    | ok found =>
      obtain ⟨p, i⟩ := found
      have hf' := hsame.trans hf
      cases i with
      | dir =>
        rw [clearDir_of_find hf, clearDir_of_find hf']
        exact ⟨rfl, h.clear p⟩
      | file | link =>
        simp only [Disk.on, ExceptT.run, clearDir, hf, hf']
        exact ⟨trivial, h⟩
  · simp only [Disk.on, ExceptT.run, clearDir, hv, hw]
    exact ⟨trivial, h⟩

end Patchwork.Tree
