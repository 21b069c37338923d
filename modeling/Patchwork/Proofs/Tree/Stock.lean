import Patchwork.Proofs.Tree.Clearing

/-!
# Filling a directory

While directories are made and files are written below a directory, it is known which files it holds, and
nothing changes around it.
-/
namespace Patchwork

namespace Volume

variable {v w : Volume} {p q : Place} {i : Item} {c : Bytes} {path : Text}

theorem Keeps.refl (v : Volume) : v.Keeps v :=
  ⟨fun _ h => h, fun _ _ h => h, fun _ c h => ⟨c, h⟩, fun _ t h ht => by rw [h] at ht; cases ht⟩

theorem Keeps.trans {u : Volume} (huv : u.Keeps v) (hvw : v.Keeps w) : u.Keeps w := by
  refine ⟨fun p h => hvw.dir p (huv.dir p h), fun p t h => hvw.link p t (huv.link p t h),
    fun p c h => ?_, fun p t h => ?_⟩
  · obtain ⟨d, hd⟩ := huv.file p c h
    exact hvw.file p d hd
  · cases hv : v.item? p with
    | none => exact hvw.absent p t hv
    | some i =>
      intro ht
      cases i with
      | dir =>
        rw [hvw.dir p hv] at ht
        cases ht
      | link s => exact huv.absent p s h hv
      | file d =>
        obtain ⟨e, he⟩ := hvw.file p d hv
        rw [he] at ht
        cases ht

theorem Keeps.find_dir (hk : v.Keeps w) (hh : w.here = v.here)
    (h : v.find .item path = .ok (p, .dir)) : w.find .item path = .ok (p, .dir) := by
  obtain ⟨hl, hp⟩ := find_eq_ok_iff.mp h
  obtain ⟨hu, hlead⟩ := locate_eq_ok_iff.mp hl
  refine find_eq_ok_iff.mpr ⟨locate_eq_ok_iff.mpr ⟨hu, ?_⟩, hk.dir p hp⟩
  rw [hh]
  exact hlead.keep hk

/-- A file is written where no directory and no link stands. -/
theorem keeps_put (hne : p ≠ []) (hdir : v.item? p ≠ some .dir)
    (hlink : ∀ t, v.item? p ≠ some (.link t)) : v.Keeps (v.put p (.file c)) := by
  have hother {r : Place} (hr : r ≠ p) : (v.put p (.file c)).item? r = v.item? r := by
    rw [item?_put v p r _ hne, if_neg hr]
  refine ⟨fun r h => ?_, fun r t h => ?_, fun r d h => ?_, fun r t h ht => ?_⟩
  · rw [hother fun he => hdir (he ▸ h), h]
  · rw [hother fun he => hlink t (he ▸ h), h]
  · by_cases hr : r = p
    · exact ⟨c, by rw [item?_put v p r _ hne, if_pos hr]⟩
    · exact ⟨d, by rw [hother hr, h]⟩
  · rw [item?_put v p r _ hne] at ht
    split at ht
    · cases ht
    · rw [h] at ht
      cases ht

end Volume

namespace Tree

open Volume

variable {v w u : Volume} {p q : Place} {dir : Text} {c : Bytes} {files : Place → Option Bytes}

/-- A directory that holds some files, by their places in it, and no links. -/
structure Stocked (v : Volume) (dir : Text) (p : Place) (files : Place → Option Bytes) : Prop where
  sound : v.Sound
  find : v.find .item dir = .ok (p, .dir)
  noLink : ∀ q t, v.item? (p ++ q) ≠ some (.link t)
  files : ∀ q, v.file? (p ++ q) = files q

/-- What a program does that writes below a directory. -/
structure Stocks (p : Place) (v w : Volume) : Prop where
  around : Around p v w
  keeps : v.Keeps w

theorem Stocks.refl (p : Place) (v : Volume) : Stocks p v v := ⟨.refl p v, .refl v⟩

theorem Stocks.trans (huv : Stocks p u v) (hvw : Stocks p v w) : Stocks p u w :=
  ⟨huv.around.trans hvw.around, huv.keeps.trans hvw.keeps⟩

/-- A directory that holds nothing but directories holds no files. -/
theorem stocked_of_inside (hw : w.Sound) (hf : w.find .item dir = .ok (p, .dir))
    (h : ∀ q, q ≠ [] → w.item? (p ++ q) = none ∨ w.item? (p ++ q) = some .dir) :
    Stocked w dir p fun _ => none := by
  have hdir := (find_eq_ok_iff.mp hf).2
  have hinside (q : Place) : w.item? (p ++ q) = none ∨ w.item? (p ++ q) = some .dir := by
    by_cases hq : q = []
    · rw [hq, List.append_nil]
      exact Or.inr hdir
    · exact h q hq
  refine ⟨hw, hf, fun q t => ?_, fun q => ?_⟩
  · rcases hinside q with hi | hi <;> rw [hi] <;> nofun
  · rcases hinside q with hi | hi <;> rw [file?, hi]

theorem Cleared.stocked (h : Cleared v w dir p) : Stocked w dir p fun _ => none :=
  stocked_of_inside h.sound h.find h.inside

/-- More directories make no difference to what is known. -/
theorem Stocked.grow (hs : Stocked v dir p files) (hg : Grows v w) (hdirs : Disk.OnlyDirs v w) :
    Stocked w dir p files := by
  refine ⟨hg.sound hs.sound, hg.find hs.find, fun q t ht => ?_, fun q => by rw [hg.file? hdirs, hs.files]⟩
  cases hv : v.item? (p ++ q) with
  | some i =>
    rw [hg.kept _ i hv] at ht
    cases ht
    exact hs.noLink q t hv
  | none => rcases hdirs _ hv with hw | hw <;> rw [hw] at ht <;> cases ht

theorem Stocked.makeDirs (hs : Stocked v dir p files) {path : Text}
    (hrun : Disk.on v (Disk.createDirAll path) = (.ok (), w)) :
    Stocked w dir p files ∧ Stocks p v w := by
  have hg := Disk.grows_createDirAll path v
  have hdirs := Disk.onlyDirs_createDirAll path v
  rw [hrun] at hg hdirs
  exact ⟨hs.grow hg hdirs, hg.around hdirs p, hg.keeps⟩

/-- The directory above a path is made, if there is one, and the program goes on. -/
theorem Stocked.makeParent {α : Type} {a : α} (hs : Stocked v dir p files) {path : Text}
    {make : Text → Disk Fault Unit} {rest : Disk Fault α}
    (hmake : ∀ above u u', Disk.on u (make above) = (.ok (), u') →
      Disk.on u (Disk.createDirAll above) = (.ok (), u'))
    (hrun : Disk.on v (match Path.parent? path with
      | some above => make above >>= fun _ => rest
      | none => rest) = (.ok a, w)) :
    ∃ u, Stocked u dir p files ∧ Stocks p v u ∧ Disk.on u rest = (.ok a, w) := by
  split at hrun
  · obtain ⟨⟨⟩, u, hu, hrest⟩ := Disk.on_bind_eq_ok hrun
    obtain ⟨hsu, hvu⟩ := hs.makeDirs (hmake _ _ _ hu)
    exact ⟨u, hsu, hvu, hrest⟩
  · exact ⟨v, hs, .refl p v, hrun⟩

theorem Stocked.noLinkTo (hs : Stocked v dir p files) (names : Place) : NoLinkTo v p names :=
  fun s _ t => hs.noLink s t

theorem Stocked.write (hs : Stocked v dir p files) (hn : ∀ name ∈ q, Path.Name name) (hq : q ≠ [])
    (hrun : Disk.on v (Disk.write (Path.join dir (Path.ofParts q)) c) = (.ok (), w)) :
    Stocked w dir p (Function.update files q (some c)) ∧ Stocks p v w ∧
      w.find .file (Path.join dir (Path.ofParts q)) = .ok (p ++ q, .file c) := by
  have hwrite : v.write (Path.join dir (Path.ofParts q)) c = .ok w := by
    simp only [Disk.on, ExceptT.run, Disk.write, Disk.change] at hrun
    split at hrun
    · next hw =>
      cases hrun
      exact hw
    · cases hrun
  unfold Volume.write at hwrite
  split at hwrite
  · next r hl =>
    split at hwrite
    · cases hwrite
    · next hdir =>
      cases hwrite
      obtain ⟨rfl, hu, hshort⟩ := locate_join_eq_ok hs.find hn hq (hs.noLinkTo q) hl
      have hne : p ++ q ≠ [] := by simp [hq]
      have hk := keeps_put (c := c) hne hdir (hs.noLink q)
      have hother (r : Place) (hr : r ≠ q) : p ++ r ≠ p ++ q :=
        fun he => hr (List.append_cancel_left he)
      have hout (r : Place) (hr : ¬ p <+: r) : r ≠ p ++ q := by
        rintro rfl
        exact hr (List.prefix_append p q)
      refine ⟨⟨hs.sound.put hne (hs.sound.locate_above hl) hdir _, hk.find_dir rfl hs.find,
        fun r t ht => ?_, fun r => ?_⟩, ⟨⟨rfl, fun r i hr hi => ?_, fun r hr hi => ?_⟩, hk⟩, ?_⟩
      · rw [item?_put v _ _ _ hne] at ht
        split at ht
        · cases ht
        · exact hs.noLink r t ht
      · rw [file?_put hne, Function.update_apply]
        by_cases hr : r = q
        · rw [if_pos hr, if_pos (by rw [hr])]
        · rw [if_neg hr, if_neg (hother r hr), hs.files]
      · rw [item?_put v _ _ _ hne, if_neg (hout r hr), hi]
      · rw [item?_put v _ _ _ hne, if_neg (hout r hr)]
        exact Or.inl hi
      · obtain ⟨hu, hlead⟩ := locate_eq_ok_iff.mp hl
        refine find_eq_ok_iff.mpr ⟨locate_eq_ok_iff.mpr ⟨hu, hlead.keep hk⟩, ?_⟩
        rw [item?_put v _ _ _ hne, if_pos rfl]
  · cases hwrite

end Tree

end Patchwork
