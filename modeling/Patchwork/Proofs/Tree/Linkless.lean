import Patchwork.Proofs.Tree.Confined
import Patchwork.Proofs.Volume.Visits

/-!
# Looking into a directory without links

A path that goes on with names behind that of a directory which holds no links is read by what stands there and on the
way.  The walk along it looks at no other places inside but directories.
-/
namespace Patchwork.Tree

open Volume

variable {v w : Volume} {aim : Aim} {p q : Place} {dir f : Text} {c : Bytes} {i : Item} {files : Place → Option Bytes}

section

variable (hs : Stocked v dir p files) (hf : Path.Plain f) (hr : Reaches dir f)
include hs hf

theorem Stocked.locate_plain (hl : v.locate aim (Path.join dir f) = .ok q) : q = p ++ Path.parts f := by
  rw [← Path.ofParts_parts f] at hl
  exact (locate_join_eq_ok hs.find hf (Path.parts_ne_nil f) (hs.noLinkTo _) hl).1

include hr

theorem Stocked.find_plain (hi : v.item? (p ++ Path.parts f) = some i) :
    v.find aim (Path.join dir f) = .ok (p ++ Path.parts f, i) := by
  have hu := hr.usable
  rw [← Path.ofParts_parts f] at hu
  have hfind : v.find aim _ = _ := find_join hs.sound hs.find hf (Path.parts_ne_nil f) hu hr.short hi
    fun t ht => hs.noLink _ t (ht ▸ hi)
  rwa [Path.ofParts_parts] at hfind

theorem Stocked.read_eq_ok_iff : v.read (Path.join dir f) = .ok c ↔ files (Path.parts f) = some c := by
  rw [Volume.read_eq_ok_iff, ← hs.files, file?_eq_some_iff]
  constructor
  · rintro ⟨q, hq⟩
    obtain ⟨hl, hi⟩ := find_eq_ok_iff.mp hq
    rwa [hs.locate_plain hf hl] at hi
  · exact fun hi => ⟨_, hs.find_plain hf hr hi⟩

theorem Stocked.locate_through_file {s : Place} (hsf : s <+: Path.parts f) (hne : s ≠ Path.parts f)
    (hc : files s = some c) : v.locate .item (Path.join dir f) = .error (.os .notDirectory) := by
  have hu := hr.usable
  rw [← Path.ofParts_parts f] at hu
  obtain ⟨k, hk⟩ := exists_locate_join .item hs.find hf (Path.parts_ne_nil f) hu
  rw [← hs.files, file?_eq_some_iff] at hc
  rw [Path.ofParts_parts, walkLinks_through_file hs.sound (by decide) hr.short hsf hne hc] at hk
  exact hk

/-- A path in a directory that has no file on its way names a place, or leads nowhere. -/
theorem Stocked.locate_free (hfree : ∀ s, s <+: Path.parts f → files s = none)
    (hnone : v.item? (p ++ Path.parts f) = none) : v.locate .item (Path.join dir f) = .ok (p ++ Path.parts f) ∨
      v.locate .item (Path.join dir f) = .error (.os .noEntry) := by
  obtain ⟨init, name, hcut⟩ := (List.eq_nil_or_concat (Path.parts f)).resolve_left (Path.parts_ne_nil f)
  rw [List.concat_eq_append] at hcut
  have hu := hr.usable
  have hshort := hr.short
  have hself : f = Path.ofParts (init ++ [name]) := by rw [← hcut, Path.ofParts_parts]
  rw [Path.Plain, hcut] at hf
  rw [hcut] at hfree hnone hshort ⊢
  rw [hself] at hu ⊢
  have hinit (s : Place) (hsi : s <+: init) := hs.free (hfree s (hsi.trans (List.prefix_append init [name])))
  rcases hinit init (List.prefix_refl init) with hup | hup
  · exact .inr (locate_join_missing (by decide) hs.find hf hu hshort hup hinit)
  · rw [← List.append_assoc] at hnone ⊢
    exact .inl (locate_join_new hs.sound hs.find hf hu hshort hup hnone)

/-- There is nothing to read just if nothing stands there, and no file on the way. -/
theorem Stocked.read_eq_noEntry_iff : v.read (Path.join dir f) = .error (.os .noEntry) ↔
    v.item? (p ++ Path.parts f) = none ∧ ∀ s, s <+: Path.parts f → files s = none := by
  constructor
  · intro h
    have hfree (s : Place) (hsf : s <+: Path.parts f) : files s = none := by
      by_contra hne
      obtain ⟨c, hc⟩ := Option.ne_none_iff_exists'.mp hne
      by_cases hall : s = Path.parts f
      · rw [(hs.read_eq_ok_iff hf hr).mpr (hall ▸ hc)] at h
        cases h
      · simp only [Volume.read, openFile, Volume.find, hs.locate_through_file hf hr hsf hall hc] at h
        cases h
    refine ⟨?_, hfree⟩
    rcases hs.free (hfree _ (List.prefix_refl _)) with hnone | hdir
    · exact hnone
    · rw [read_of_find_dir (hs.find_plain hf hr hdir)] at h
      cases h
  · rintro ⟨hnone, hfree⟩
    rcases hs.locate_free hf hr hfree hnone with hl | hl <;>
      simp only [Volume.read, openFile, Volume.find, hl, hnone] <;> rfl

end

/-- Nothing changes but on the way to a record, when the directories above it are made. -/
theorem onlyOnWay_dirsMade (hs : Stocked v dir p files) (hf : Path.Plain f) :
    OnlyOnWay p (Path.parts f).dropLast v (Disk.dirsMade v (Path.join dir f)) := by
  unfold Disk.dirsMade Path.directory
  split
  · next parent hparent =>
    split
    · rw [Disk.createDirAll_dot]
      exact .refl _ _ _
    · exact onlyOnWay_parent hs hf hparent
  · rw [Disk.createDirAll_dot]
    exact .refl _ _ _

/-- The walk along a path in a directory looks at directories and at the places that the path leads through. -/
theorem Stocked.comes (hs : Stocked v dir p files) (hf : Path.Plain f) (h : v.Comes (Path.join dir f) (p ++ q)) :
    v.item? (p ++ q) = some .dir ∨ q <+: Path.parts f := by
  have hdir := find_ne_nil hs.find
  have hne := Path.parts_ne_nil f
  obtain ⟨core, tail, hcore, htail, hjoin⟩ := Step.ofPath_join hdir hf hne
  rw [Comes, ← Path.ofParts_parts f, start_join hdir (Path.not_isAbsolute_ofParts hf hne), hjoin] at h
  rcases h.onWay (leads_core hs.find hcore htail) (find_eq_ok_iff.mp hs.find).2 with hi | ⟨t, ht⟩ | hnames
  · exact .inl hi
  · exact absurd ht (hs.noLink q t)
  · obtain ⟨s, hsf, he⟩ := hnames.along_names (hs.noLinkTo _)
    rw [List.append_cancel_left he]
    exact .inr hsf

end Patchwork.Tree
