import Patchwork.Proofs.Tree.Copying
import Patchwork.Proofs.Tree.Spared
import Patchwork.Tree.Patch

/-!
# Staying inside a directory

Programs that write below a directory which holds no links change nothing outside it, whether they succeed
or not.
-/
namespace Patchwork

namespace Volume

/-- Nothing changes but in the directory at a place. -/
def Confined (p : Place) (v w : Volume) : Prop := ∀ r, ¬ p <+: r → w.item? r = v.item? r

variable {u v w : Volume} {p q : Place} {path : Text}

theorem Confined.refl (p : Place) (v : Volume) : Confined p v v := fun _ _ => rfl

theorem Confined.trans (huv : Confined p u v) (hvw : Confined p v w) : Confined p u w :=
  fun r hr => (hvw r hr).trans (huv r hr)

theorem confined_put (v : Volume) (hne : p ++ q ≠ []) (i : Item) : Confined p v (v.put (p ++ q) i) := by
  intro r hr
  rw [item?_put v _ r i hne, if_neg]
  rintro rfl
  exact hr (List.prefix_append p q)

end Volume

namespace Tree

open Volume

variable {α β : Type} {ε : Type} {v w : Volume} {p : Place} {dir name parent path : Text} {names : Place}
  {files : Place → Option Bytes}

/-- Whatever comes of the program, it leaves a directory without links as one, and stays inside it. -/
def Stays (dir : Text) (p : Place) (d : Disk ε α) : Prop :=
  ∀ v files, Stocked v dir p files →
    (∃ after, Stocked (Disk.on v d).2 dir p after) ∧ Confined p v (Disk.on v d).2

theorem Stays.confined {d : Disk ε α} {r : Except ε α} (hd : Stays dir p d) (hs : Stocked v dir p files)
    (hrun : Disk.on v d = (r, w)) : (∃ after, Stocked w dir p after) ∧ Confined p v w := by
  have hall := hd v files hs
  rwa [hrun] at hall

theorem stays_ask (f : Volume → Except ε α) : Stays dir p (Disk.ask f) :=
  fun v files hs => ⟨⟨files, hs⟩, .refl p v⟩

theorem Stays.bind {d : Disk ε α} {f : α → Disk ε β} (hd : Stays dir p d)
    (hf : ∀ a, Stays dir p (f a)) : Stays dir p (d >>= f) := by
  intro v files hs
  rw [Disk.on_bind]
  split
  · next a u hrun =>
    obtain ⟨⟨after, hafter⟩, hv⟩ := hd.confined hs hrun
    obtain ⟨hstocked, hu⟩ := hf a u after hafter
    exact ⟨hstocked, hv.trans hu⟩
  · next e u hrun => exact hd.confined hs hrun

theorem Stays.io {d : Disk IoError α} (hd : Stays dir p d) : Stays dir p (Disk.io d) := by
  intro v files hs
  rw [Disk.on_io]
  exact hd v files hs

theorem Stays.naming {d : Disk IoError α} (hd : Stays dir p d) (path : Text) :
    Stays dir p (Disk.naming path d) := by
  intro v files hs
  rw [Disk.on_naming]
  exact hd v files hs

theorem stays_write (hn : Path.Plain name) (c : Bytes) :
    Stays dir p (Disk.write (Path.join dir name) c) := by
  intro v files hs
  cases hrun : Disk.on v (Disk.write (Path.join dir name) c) with
  | mk r w =>
    simp only [Disk.on, ExceptT.run, Disk.write, Disk.change] at hrun
    split at hrun
    · next u hwrite =>
      obtain ⟨rfl, rfl⟩ := Prod.mk.inj hrun
      have hok : Disk.on v (Disk.write (Path.join dir name) c) = (.ok (), u) := by
        simp only [Disk.on, ExceptT.run, Disk.write, Disk.change, hwrite]
      refine ⟨⟨_, (hs.writePlain hn hok).1⟩, ?_⟩
      unfold Volume.write at hwrite
      split at hwrite
      · next q hl =>
        split at hwrite
        · cases hwrite
        · cases hwrite
          rw [← Path.ofParts_parts name] at hl
          obtain ⟨rfl, -⟩ := locate_join_eq_ok hs.find hn (Path.parts_ne_nil name) (hs.noLinkTo _) hl
          exact confined_put v (by simp [Path.parts_ne_nil]) _
      · cases hwrite
    · obtain ⟨rfl, rfl⟩ := Prod.mk.inj hrun
      exact ⟨⟨files, hs⟩, .refl p v⟩

/-- A directory is made in its place. -/
theorem onlyOnWay_makeDir (hs : Stocked v dir p files) (hn : ∀ other ∈ names, Path.Name other)
    (h : names ≠ []) (hrun : v.makeDir (Path.join dir (Path.ofParts names)) = .ok w) : OnlyOnWay p names v w := by
  obtain ⟨q, hl, -, rfl⟩ := makeDir_eq_ok hrun
  rw [locateName_of_getLast? (getLast?_join (find_ne_nil hs.find) hn h)] at hl
  obtain ⟨rfl, -⟩ := locate_join_eq_ok hs.find hn h (hs.noLinkTo names) hl
  exact put_onlyOnWay (by simp [h]) ⟨names, List.prefix_refl _, rfl⟩

/-- Nothing is made above a name in a directory. -/
theorem makeDirs_parent (hd : v.find .item dir = .ok (p, .dir)) (hn : Path.Name name)
    (h : Path.parent? (Path.join dir name) = some parent) (rest : List Text) :
    (Disk.on v (Disk.makeDirs (parent :: rest))).2 = v := by
  by_cases hu : Usable parent
  · rw [Disk.makeDirs_of_find (find_above hd hn (above_parent (find_ne_nil hd) hn h) hu)]
  · exact Disk.makeDirs_of_not_usable hu

theorem stocked_makeDirs (hs : Stocked v dir p files) (dirs : List Text) :
    Stocked (Disk.on v (Disk.makeDirs dirs)).2 dir p files :=
  hs.grow (Disk.grows_makeDirs dirs v) (Disk.onlyDirs_makeDirs dirs v)

/-- The directories on the way along some names are made in their places. -/
theorem onlyOnWay_chain (hs : Stocked v dir p files) (hn : ∀ other ∈ names, Path.Name other)
    (h : names ≠ []) :
    OnlyOnWay p names v (Disk.on v (Disk.makeDirs (Path.chain (Path.join dir (Path.ofParts names))))).2 := by
  induction names using List.reverseRecOn with
  | nil => exact absurd rfl h
  | append_singleton init name ih =>
    have hdir := find_ne_nil hs.find
    have hinit (other : Text) (ho : other ∈ init) : Path.Name other := hn other (List.mem_append_left _ ho)
    have hup : OnlyOnWay p (init ++ [name]) v (Disk.on v (Disk.makeDirs
        ((Path.chain (Path.join dir (Path.ofParts (init ++ [name])))).drop 1))).2 := by
      by_cases hnil : init = []
      · subst hnil
        have hone : Path.ofParts ([] ++ [name]) = name := by simp [Path.ofParts]
        rw [hone]
        cases hrest : (Path.chain (Path.join dir name)).drop 1 with
        | nil => exact .refl _ _ _
        | cons parent rest =>
          rw [makeDirs_parent hs.find (hn name (by simp))]
          · exact .refl _ _ _
          · rw [Path.parent?, ← List.head?_drop, hrest]
            rfl
      · rw [Path.drop_chain_join hdir hn hnil]
        exact (ih hinit hnil).mono (List.prefix_append init [name])
    rw [Path.chain_join hdir hn h]
    generalize hrest : (Path.chain (Path.join dir (Path.ofParts (init ++ [name])))).drop 1 = rest at hup ⊢
    generalize hpath : Path.join dir (Path.ofParts (init ++ [name])) = path
    cases hrun : Disk.on v (Disk.makeDirs (path :: rest)) with
    | mk r w =>
      cases Disk.makes_iff.mpr hrun with
      | empty | there | refused => exact .refl _ _ _
      | new _ hm =>
        subst hpath
        exact onlyOnWay_makeDir hs hn h hm
      | lower _ _ _ hu hm =>
        subst hpath
        rw [Disk.makes_iff.mp hu] at hup
        exact hup.trans (onlyOnWay_makeDir (hs.grow hu.grows hu.onlyDirs) hn h hm)
      | stuck _ _ _ hu | found _ _ _ hu | unmade _ _ _ hu => rwa [Disk.makes_iff.mp hu] at hup

/-- The directories above a file are made in their places. -/
theorem onlyOnWay_parent (hs : Stocked v dir p files) (hn : Path.Plain name)
    (h : Path.parent? (Path.join dir name) = some parent) :
    OnlyOnWay p (Path.parts name).dropLast v (Disk.on v (Disk.createDirAll parent)).2 := by
  have hdir := find_ne_nil hs.find
  obtain ⟨init, last, hcut⟩ :=
    (List.eq_nil_or_concat (Path.parts name)).resolve_left (Path.parts_ne_nil name)
  rw [List.concat_eq_append] at hcut
  rw [Path.Plain, hcut] at hn
  have hparts := Path.ofParts_parts name
  rw [hcut] at hparts
  rw [hcut, List.dropLast_concat]
  have hname (other : Text) (ho : other ∈ init) : Path.Name other := hn other (List.mem_append_left _ ho)
  by_cases hinit : init = []
  · subst hinit
    obtain rfl : last = name := by simpa [Path.ofParts] using hparts
    rw [Disk.createDirAll, makeDirs_parent hs.find (hn last (by simp)) h]
    exact .refl _ _ _
  · rw [← hparts, parent?_join hdir hn hinit] at h
    cases h
    rw [Disk.createDirAll, ← Path.chain_join hdir hname hinit]
    exact onlyOnWay_chain hs hname hinit

/-- Making the directory above a file stays inside. -/
theorem stays_parent (hn : Path.Plain name) (h : Path.parent? (Path.join dir name) = some parent) :
    Stays dir p (Disk.createDirAll parent) := fun _ files hs =>
  ⟨⟨files, stocked_makeDirs hs _⟩, fun r hr => onlyOnWay_parent hs hn h r fun s _ he => hr ⟨s, he.symm⟩⟩

end Tree

end Patchwork
