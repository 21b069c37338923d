import Patchwork.Proofs.Tree.Missing
import Patchwork.Proofs.Volume.Clear
import Patchwork.Proofs.Volume.Files
import Patchwork.Proofs.Volume.Programs

/-!
# Clearing a directory

A directory that is cleared or made holds nothing but directories afterwards, and nothing changes
around it, except that other directories may be made.
-/
namespace Patchwork

namespace Volume

variable {u v w : Volume} {p q r : Place} {i : Item}

/-- Outside a directory everything stays, and only directories are new. -/
structure Around (p : Place) (v w : Volume) : Prop where
  here : w.here = v.here
  kept : ∀ r i, ¬ p <+: r → v.item? r = some i → w.item? r = some i
  new : ∀ r, ¬ p <+: r → v.item? r = none → w.item? r = none ∨ w.item? r = some .dir

theorem Around.refl (p : Place) (v : Volume) : Around p v v :=
  ⟨rfl, fun _ _ _ h => h, fun _ _ h => Or.inl h⟩

theorem Around.trans (huv : Around p u v) (hvw : Around p v w) : Around p u w := by
  refine ⟨hvw.here.trans huv.here, fun r i hr h => hvw.kept r i hr (huv.kept r i hr h),
    fun r hr h => ?_⟩
  rcases huv.new r hr h with h | h
  · exact hvw.new r hr h
  · exact Or.inr (hvw.kept r _ hr h)

theorem Grows.around (hg : Grows v w) (hdirs : Disk.OnlyDirs v w) (p : Place) : Around p v w :=
  ⟨hg.here, fun r i _ h => hg.kept r i h, fun r _ h => hdirs r h⟩

theorem Around.file? (h : Around p v w) (hr : ¬ p <+: r) : w.file? r = v.file? r := by
  cases hv : v.item? r with
  | some i => rw [Volume.file?, Volume.file?, hv, h.kept r i hr hv]
  | none => rcases h.new r hr hv with hw | hw <;> rw [Volume.file?, Volume.file?, hv, hw]

end Volume

namespace Tree

open Volume

variable {v w : Volume} {p q b : Place} {dir path : Text}

/-- Clearing a directory leaves the way to another one as it is. -/
def Undisturbed (v : Volume) (dir path : Text) : Prop :=
  ∀ p q, v.find .item dir = .ok (p, .dir) → v.find .item path = .ok (q, .dir) →
    (v.clear p).find .item path = .ok (q, .dir)

/-- What clearing a directory leaves. -/
structure Cleared (v w : Volume) (dir : Text) (p : Place) : Prop where
  sound : w.Sound
  around : Around p v w
  find : w.find .item dir = .ok (p, .dir)
  inside : ∀ q, q ≠ [] → w.item? (p ++ q) = none ∨ w.item? (p ++ q) = some .dir

theorem around_clear (v : Volume) (p : Place) : Around p v (v.clear p) := by
  have hout (r : Place) (hr : ¬ p <+: r) : (v.clear p).item? r = v.item? r := by
    rw [item?_clear, if_neg fun h => hr h.1]
  exact ⟨rfl, fun r i hr h => by rw [hout r hr, h], fun r hr h => Or.inl (by rw [hout r hr, h])⟩

theorem canonical_of_find {i : Item} (h : v.find .item path = .ok (p, i)) :
    canonical v path = .ok p := by
  have hn : nearest v [] (path :: (Path.chain path).drop 1) = (path, []) := by
    unfold nearest
    rw [if_pos (isPresent_of_find h)]
  unfold canonical
  rw [hn]
  simp only [if_neg (find_ne_nil h), Volume.canonical, h, Except.map, List.append_nil]

theorem clearDir_of_find (h : v.find .item dir = .ok (p, .dir)) :
    Disk.on v (clearDir dir) = (.ok (), v.clear p) := by
  simp only [Disk.on, ExceptT.run, clearDir, h]

theorem clearDir_of_error {e : IoError} (h : v.find .item dir = .error e) :
    Disk.on v (clearDir dir) = Disk.on v (Disk.io (Disk.createDirAll dir)) := by
  simp only [Disk.on, ExceptT.run, clearDir, h]

theorem cleared_missing {e : IoError} (hv : v.Sound) (hne : dir ≠ [])
    (hf : v.find .item dir = .error e) (hc : canonical v dir = .ok p)
    (hrun : Disk.on v (clearDir dir) = (.ok (), w)) :
    Cleared v w dir p ∧ Grows v w := by
  rw [clearDir_of_error hf] at hrun
  have hrun := Disk.on_io_eq_ok hrun
  have hg := Disk.grows_createDirAll dir v
  have hdirs := Disk.onlyDirs_makeDirs (dir :: (Path.chain dir).drop 1) v
  rw [hrun] at hg
  rw [Disk.createDirAll] at hrun
  rw [hrun] at hdirs
  obtain ⟨t, found, hnear, rfl⟩ := canonical_eq_ok hc
  have hb := hnear.built hv (Path.ladder_chain dir) (Disk.makes_iff.mpr hrun)
  have hnone := hb.new (hnear.found_ne_nil hne hf)
  exact ⟨⟨hg.sound hv, hg.around hdirs _, hb.dir hne, fun q _ => hdirs _ (hv.absent_below hnone q)⟩, hg⟩

/-- A directory is cleared where its path was taken to lead, and other paths still lead where they led. -/
theorem cleared_of_clearDir (hv : v.Sound) (hne : dir ≠ []) (hself : Undisturbed v dir dir)
    (hc : canonical v dir = .ok p) (hrun : Disk.on v (clearDir dir) = (.ok (), w)) :
    Cleared v w dir p ∧ ∀ path q, v.find .item path = .ok (q, .dir) → Undisturbed v dir path →
      w.find .item path = .ok (q, .dir) := by
  cases hf : v.find .item dir with
  | error e =>
    obtain ⟨hcleared, hg⟩ := cleared_missing hv hne hf hc hrun
    exact ⟨hcleared, fun path q hq _ => hg.find hq⟩
  | ok r =>
    obtain ⟨r, i⟩ := r
    rw [canonical_of_find hf] at hc
    cases hc
    cases i with
    | file | link =>
      simp only [Disk.on, ExceptT.run, clearDir, hf] at hrun
      cases hrun
    | dir =>
      rw [clearDir_of_find hf] at hrun
      cases hrun
      refine ⟨⟨hv.clear p, around_clear v p, hself p p hf hf, fun q hq => Or.inl ?_⟩,
        fun path q hq hkeep => hkeep p q hf hq⟩
      rw [item?_clear, if_pos ⟨List.prefix_append p q, fun he => hq (by simpa using he.symm)⟩]

end Tree

end Patchwork
