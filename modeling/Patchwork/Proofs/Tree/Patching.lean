import Patchwork.Proofs.Tree.Diffing

/-!
# How far patching a tree comes

Everything that patching a tree reads is read before the output is cleared.
-/
namespace Patchwork.Tree

open Volume

variable {v w : Volume} {b o : Place} {c : Config} {baseline patchDir output : Text} {ps : PatchSet}
  {names : List Text}

theorem requireDir_eq_ok {path : Text} (h : Disk.on v (Disk.requireDir path) = (.ok (), w)) :
    v = w ∧ ∃ p, v.find .item path = .ok (p, .dir) := by
  obtain ⟨hdir, rfl⟩ := Disk.on_ask_eq_ok h
  split at hdir
  · next his => exact ⟨rfl, Disk.find_of_isDir his⟩
  · cases hdir

/-- Reading patches changes nothing. -/
theorem on_loadFiles (c : Config) (patchDir : Text) (ps : PatchSet) (names : List Text) (v : Volume) :
    (Disk.on v (loadFiles c patchDir ps names)).2 = v := by
  induction names generalizing ps with
  | nil => rfl
  | cons name names ih =>
    cases hrun : Disk.on v (loadFiles c patchDir ps (name :: names)) with
    | mk r w =>
      rcases Disk.on_bind_cases hrun with ⟨e, hparse, -⟩ | ⟨sections, u, hparse, hrest⟩
      · exact (Prod.mk.inj hparse).2.symm
      obtain rfl : v = u := (Prod.mk.inj hparse).2
      split at hrest
      · cases hrest
        rfl
      · rcases Disk.on_bind_cases hrest with ⟨e, hadd, -⟩ | ⟨all, u, hadd, hload⟩
        · exact (Prod.mk.inj hadd).2.symm
        · obtain ⟨-, rfl⟩ := Disk.on_ofExcept_eq_ok hadd
          have hsame := ih all
          rwa [hload] at hsame

theorem on_loadPatches (c : Config) (patchDir : Text) (v : Volume) :
    (Disk.on v (loadPatches c patchDir)).2 = v := by
  cases hrun : Disk.on v (loadPatches c patchDir) with
  | mk r w =>
    rcases Disk.on_bind_cases hrun with ⟨e, hlist, -⟩ | ⟨fs, u, hlist, hload⟩
    · exact (Prod.mk.inj hlist).2.symm
    · obtain ⟨rfl, -⟩ := listFiles_eq_ok hlist
      have hsame := on_loadFiles c patchDir [] fs u
      rwa [hload] at hsame

theorem copyTree_cases {source target : Text} {r : Except Fault (List Text)}
    (h : Disk.on v (copyTree source target) = (r, w)) : (∃ e, r = .error e ∧ w = v) ∨
      ∃ b r', v.find .item source = .ok (b, .dir) ∧
        Disk.on v (copyFiles source target (filesAt v b)) = (r', w) ∧ r = r'.map fun _ => filesAt v b := by
  rcases Disk.on_bind_cases h with ⟨e, hlist, rfl⟩ | ⟨fs, u, hlist, h⟩
  · exact .inl ⟨e, rfl, (Prod.mk.inj hlist).2.symm⟩
  obtain ⟨rfl, b, hb, rfl⟩ := listFiles_eq_ok hlist
  rcases Disk.on_bind_cases h with ⟨e, hcopy, rfl⟩ | ⟨⟨⟩, u', hcopy, h⟩
  · exact .inr ⟨b, _, hb, hcopy, rfl⟩
  · obtain ⟨rfl, rfl⟩ := Prod.mk.inj h
    exact .inr ⟨b, _, hb, hcopy, rfl⟩

/-- What is known when the output is about to be cleared. -/
structure Ready (c : Config) (v : Volume) (baseline patchDir output : Text) (b o : Place)
    (ps : PatchSet) : Prop where
  find : v.find .item baseline = .ok (b, .dir)
  place : canonical v output = .ok o
  apart : ∀ other ∈ [baseline, patchDir], ∃ q, canonical v other = .ok q ∧ apart o q = true
  loaded : Disk.on v (loadPatches c patchDir) = (.ok ps, v)

/-- How far patching a tree comes. -/
inductive PatchRun (c : Config) (v w : Volume) (baseline patchDir output : Text) :
    Except Fault PatchReport → Prop
  | refused (e : Fault) (hw : w = v) : PatchRun c v w baseline patchDir output (.error e)
  | uncleared {b o : Place} {ps : PatchSet} {e : Fault} (hp : Ready c v baseline patchDir output b o ps)
      (hclear : Disk.on v (clearDir output) = (.error e, w)) :
      PatchRun c v w baseline patchDir output (.error e)
  | uncopied {b o : Place} {ps : PatchSet} {u : Volume} {e : Fault}
      (hp : Ready c v baseline patchDir output b o ps)
      (hclear : Disk.on v (clearDir output) = (.ok (), u))
      (hcopy : Disk.on u (copyTree baseline output) = (.error e, w)) :
      PatchRun c v w baseline patchDir output (.error e)
  | copied {b o : Place} {ps : PatchSet} {u u' : Volume} {fs : List Text} {r : Except Fault Unit}
      (hp : Ready c v baseline patchDir output b o ps)
      (hclear : Disk.on v (clearDir output) = (.ok (), u))
      (hcopy : Disk.on u (copyTree baseline output) = (.ok fs, u'))
      (hpatch : Disk.on u' (patchFiles baseline output ps) = (r, w)) :
      PatchRun c v w baseline patchDir output (r.map fun _ => ⟨fs.length, ps.length⟩)

theorem patch_cases {r : Except Fault PatchReport}
    (h : Disk.on v (patch c baseline patchDir output) = (r, w)) :
    PatchRun c v w baseline patchDir output r := by
  rcases Disk.on_bind_cases h with ⟨e, hdir, rfl⟩ | ⟨⟨⟩, u, hdir, h⟩
  · exact .refused e (Prod.mk.inj hdir).2.symm
  obtain ⟨rfl, b, hb⟩ := requireDir_eq_ok hdir
  rcases Disk.on_bind_cases h with ⟨e, hdisjoint, rfl⟩ | ⟨⟨⟩, u, hdisjoint, h⟩
  · exact .refused e (Prod.mk.inj hdisjoint).2.symm
  obtain ⟨rfl, o, ho, hkept⟩ := ensureDisjoint_eq_ok hdisjoint
  have hsame := on_loadPatches c patchDir v
  rcases Disk.on_bind_cases h with ⟨e, hload, rfl⟩ | ⟨ps, u, hload, hrest⟩
  · rw [hload] at hsame
    exact .refused e hsame
  rw [hload] at hsame
  obtain rfl : u = v := hsame
  have hready : Ready c u baseline patchDir output b o ps := ⟨hb, ho, hkept, hload⟩
  rcases Disk.on_bind_cases hrest with ⟨e, hclear, rfl⟩ | ⟨⟨⟩, u₁, hclear, h⟩
  · exact .uncleared hready hclear
  rcases Disk.on_bind_cases h with ⟨e, hcopy, rfl⟩ | ⟨fs, u₂, hcopy, h⟩
  · exact .uncopied hready hclear hcopy
  rcases Disk.on_bind_cases h with ⟨e, hpatch, rfl⟩ | ⟨⟨⟩, u₃, hpatch, h⟩
  · exact .copied hready hclear hcopy hpatch
  · obtain ⟨rfl, rfl⟩ := Prod.mk.inj h
    exact .copied hready hclear hcopy hpatch

end Patchwork.Tree
