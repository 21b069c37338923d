import Patchwork.Proofs.Tree.Diffing
import Patchwork.Proofs.Tree.Copying

/-!
# Room for files

Files can be written below a directory one after the other, if their paths there are not too long and none of
them is a directory on the way to another one.
-/
namespace Patchwork

namespace Path

theorem exists_parent {dir f : Text} (hd : dir ≠ []) (hf : Plain f) : ∃ above, parent? (join dir f) = some above := by
  obtain ⟨t, ht⟩ := exists_join hd
  have habs := not_isAbsolute_ofParts hf (parts_ne_nil f)
  obtain ⟨init, name, hcut⟩ := (List.eq_nil_or_concat (parts f)).resolve_left (parts_ne_nil f)
  rw [List.concat_eq_append] at hcut
  have hchain := chain_append_slash t hf (parts_ne_nil f)
  rw [hcut, ← List.append_assoc, rungs_name _ (hf name (by simp [hcut])), ← hcut] at hchain
  rw [← ht _ habs, ofParts_parts] at hchain
  rw [parent?, hchain, List.cons_append, List.getElem?_cons_succ, ← List.head?_eq_getElem?]
  exact Option.isSome_iff_exists.mp (by simp)

end Path

namespace Tree

open Volume

variable {v w : Volume} {p b q : Place} {dir base f : Text} {c : Bytes} {files : Place → Option Bytes}

/-- A directory that holds some files, and no directories but those on the way to them. -/
structure Filled (v : Volume) (dir : Text) (p : Place) (stock : Place → Option Bytes) : Prop extends
    Stocked v dir p stock where
  needed : ∀ q, q ≠ [] → v.item? (p ++ q) = some .dir → ∃ r, (stock r).isSome ∧ q <+: r ∧ q ≠ r

/-- No other file stands on the way to a place, nor has the place on the way to it. -/
def Fits (files : Place → Option Bytes) (q : Place) : Prop :=
  ∀ r, (files r).isSome → r <+: q ∨ q <+: r → r = q

theorem Fits.update {r : Place} (h : Fits files q) (hr : r <+: q ∨ q <+: r → r = q) :
    Fits (Function.update files r (some c)) q := by
  intro s hs
  by_cases hsr : s = r
  · rwa [hsr]
  · rw [Function.update_of_ne hsr] at hs
    exact h s hs

theorem isSome_update (files : Place → Option Bytes) (q : Place) {r : Place} (h : (files r).isSome) :
    (Function.update files q (some c) r).isSome := by
  by_cases hr : r = q
  · subst hr
    rw [Function.update_self]
    rfl
  · rwa [Function.update_of_ne hr]

/-- A file is written where the directory above is there, and the directories are needed for it. -/
theorem Stocked.write_filled (hs : Stocked v dir p files) (hn : Path.Plain f) (hr : Reaches dir f)
    (hup : v.item? (p ++ (Path.parts f).dropLast) = some .dir)
    (hdir : v.item? (p ++ Path.parts f) ≠ some .dir)
    (hneed : ∀ q, q ≠ [] → v.item? (p ++ q) = some .dir →
      (∃ r, (files r).isSome ∧ q <+: r ∧ q ≠ r) ∨ q <+: Path.parts f ∧ q ≠ Path.parts f) (c : Bytes) :
    ∃ w, Disk.on v (Disk.write (Path.join dir f) c) = (.ok (), w) ∧
      Filled w dir p (Function.update files (Path.parts f) (some c)) ∧ Stocks p v w := by
  have hrun := hs.write_total hn hr hup hdir c
  obtain ⟨hstocked, hstocks, -⟩ := hs.writePlain hn hrun
  refine ⟨_, hrun, ⟨hstocked, fun q hq hthere => ?_⟩, hstocks⟩
  rw [item?_put _ _ _ _ (by simp [Path.parts_ne_nil])] at hthere
  split at hthere
  · cases hthere
  · rcases hneed q hq hthere with ⟨r, hsome, hpre, hne⟩ | ⟨hpre, hne⟩
    · exact ⟨r, isSome_update files _ hsome, hpre, hne⟩
    · exact ⟨Path.parts f, by rw [Function.update_self]; rfl, hpre, hne⟩

/-- A file can be written where there is one. -/
theorem Filled.overwrite (hf : Filled v dir p files) (hn : Path.Plain f) (hr : Reaches dir f)
    (hthere : (files (Path.parts f)).isSome) (c : Bytes) :
    ∃ w, Disk.on v (Disk.write (Path.join dir f) c) = (.ok (), w) ∧
      Filled w dir p (Function.update files (Path.parts f) (some c)) ∧ Stocks p v w := by
  obtain ⟨d, hd⟩ := Option.isSome_iff_exists.mp hthere
  have hitem := file?_eq_some_iff.mp ((hf.files _).trans hd)
  have hup := hf.sound.above hitem
  rw [List.dropLast_append_of_ne_nil (Path.parts_ne_nil f)] at hup
  exact hf.write_filled hn hr hup (by rw [hitem]; nofun) (fun q hq hdir => .inl (hf.needed q hq hdir)) c

theorem not_parts_prefix_dropLast (f : Text) : ¬ Path.parts f <+: (Path.parts f).dropLast := by
  intro hpre
  have hle := hpre.length_le
  have hpos := List.length_pos_iff.mpr (Path.parts_ne_nil f)
  rw [List.length_dropLast] at hle
  omega

/-- The directory above a file that fits can be made, and then the file can be written. -/
theorem Filled.place (hf : Filled v dir p files) (hn : Path.Plain f) (hr : Reaches dir f)
    (hfit : Fits files (Path.parts f)) (c : Bytes) :
    ∃ above u w, Path.parent? (Path.join dir f) = some above ∧
      Disk.on v (Disk.createDirAll above) = (.ok (), u) ∧
      Disk.on u (Disk.write (Path.join dir f) c) = (.ok (), w) ∧
      Filled w dir p (Function.update files (Path.parts f) (some c)) ∧ Stocks p v w := by
  have hfree (s : Place) (hs : s <+: (Path.parts f).dropLast) : files s = none := by
    cases hfile : files s with
    | none => rfl
    | some d =>
      obtain rfl := hfit s (by rw [hfile]; rfl) (.inl (hs.trans (List.dropLast_prefix _)))
      exact absurd hs (not_parts_prefix_dropLast f)
  obtain ⟨above, habove⟩ := Path.exists_parent (find_ne_nil hf.find) hn
  obtain ⟨u, hparent, hmake⟩ := hf.makeParent_total hn hr hfree
  have hdir : u.item? (p ++ Path.parts f) ≠ some .dir := by
    rw [hparent.only _ fun s hs he => ?_]
    · intro hdir
      obtain ⟨r, hsome, hpre, hne⟩ := hf.needed _ (Path.parts_ne_nil f) hdir
      exact hne (hfit r hsome (.inr hpre)).symm
    · rw [← List.append_cancel_left he] at hs
      exact not_parts_prefix_dropLast f hs
  have hneed (q : Place) (hq : q ≠ []) (hthere : u.item? (p ++ q) = some .dir) :
      (∃ r, (files r).isSome ∧ q <+: r ∧ q ≠ r) ∨ q <+: Path.parts f ∧ q ≠ Path.parts f := by
    by_cases hon : q <+: (Path.parts f).dropLast
    · refine .inr ⟨hon.trans (List.dropLast_prefix _), ?_⟩
      rintro rfl
      exact not_parts_prefix_dropLast f hon
    · rw [hparent.only _ fun s hs he => hon (by rwa [List.append_cancel_left he])] at hthere
      exact .inl (hf.needed q hq hthere)
  obtain ⟨w, hwrite, hfilled, hstocks⟩ := hparent.stocked.write_filled hn hr hparent.dir hdir hneed c
  exact ⟨above, u, w, habove, hmake above habove, hwrite, hfilled, hparent.stocks.trans hstocks⟩

theorem Filled.writeFiles_total {named : List (Text × Text)} (hf : Filled v dir p files)
    (hn : ∀ e ∈ named, Path.Plain e.1) (hr : ∀ e ∈ named, Reaches dir e.1)
    (hfit : ∀ e ∈ named, Fits files (Path.parts e.1))
    (hall : ∀ e ∈ named, ∀ e' ∈ named, Path.parts e.1 <+: Path.parts e'.1 → e.1 = e'.1) :
    ∃ w, Disk.on v (Tree.writeFiles dir named) = (.ok (), w) := by
  induction named generalizing v files with
  | nil => exact ⟨v, rfl⟩
  | cons e named ih =>
    obtain ⟨name, text⟩ := e
    have hhead := List.mem_cons_self (a := (name, text)) (l := named)
    have htail (e : Text × Text) (he : e ∈ named) : e ∈ (name, text) :: named := List.mem_cons_of_mem _ he
    obtain ⟨above, u, u', habove, hmake, hwrite, hfilled, -⟩ :=
      hf.place (hn _ hhead) (hr _ hhead) (hfit _ hhead) (Text.Utf8.encode text)
    have hlater (e : Text × Text) (he : e ∈ named) :
        Fits (Function.update files (Path.parts name) (some (Text.Utf8.encode text))) (Path.parts e.1) := by
      refine (hfit e (htail e he)).update fun hcmp => ?_
      rcases hcmp with hcmp | hcmp
      · exact congrArg Path.parts (hall _ hhead e (htail e he) hcmp)
      · exact congrArg Path.parts (hall e (htail e he) _ hhead hcmp).symm
    obtain ⟨w, hrest⟩ := ih hfilled (fun e he => hn e (htail e he)) (fun e he => hr e (htail e he))
      hlater (fun e he e' he' => hall e (htail e he) e' (htail e' he'))
    refine ⟨w, ?_⟩
    simp only [Tree.writeFiles, habove]
    rw [Disk.on_bind_of_ok (Disk.on_naming_of_ok hmake), Disk.on_bind_of_ok (Disk.on_naming_of_ok hwrite)]
    exact hrest

/-- A file can be copied where it fits. -/
theorem Filled.copyFile_total (hf : Filled v dir p files) (hb : v.find .item base = .ok (b, .dir))
    (ha : Apart p b) (hn : Path.Plain f) (hc : v.file? (b ++ Path.parts f) = some c)
    (hbase : Reaches base f) (hr : Reaches dir f) (hfit : Fits files (Path.parts f)) :
    ∃ above u w, Path.parent? (Path.join dir f) = some above ∧
      Disk.on v (Disk.createDirAll above) = (.ok (), u) ∧
      Disk.on u (copyFile (Path.join base f) (Path.join dir f)) = (.ok (), w) ∧
      Filled w dir p (Function.update files (Path.parts f) (some c)) ∧ Stocks p v w := by
  obtain ⟨above, u, y, habove, hmake, hempty, hfilled, hvy⟩ := hf.place hn hr hfit []
  obtain ⟨w, hwrite, hw, hyw⟩ := hfilled.overwrite hn hr (by rw [Function.update_self]; rfl) c
  have hread (x : Volume) (hx : x.Sound) (hvx : Stocks p v x) : x.read (Path.join base f) = .ok c := by
    refine read_eq_ok_iff.mpr ⟨_, find_reaches hx (hvx.find_dir hb) hn ?_ hbase⟩
    rw [hvx.file? ha, hc]
  obtain ⟨hsu, hvu⟩ := hf.makeDirs hmake
  rw [Function.update_idem] at hw
  refine ⟨above, u, w, habove, hmake, ?_, hw, hvy.trans hyw⟩
  have hask (x : Volume) (hx : x.Sound) (hvx : Stocks p v x) :
      Disk.on x (Disk.read (Path.join base f)) = (.ok c, x) := by
    rw [Disk.read, Disk.on_ask, hread x hx hvx]
  rw [copyFile, Disk.on_bind_of_ok (hask u hsu.sound hvu), Disk.on_bind_of_ok hempty,
    Disk.on_bind_of_ok (hask y hfilled.sound hvy)]
  exact hwrite

/-- No file is a directory on the way to another one. -/
theorem eq_of_files {r : Place} (hv : v.Sound) (hq : (v.file? (b ++ q)).isSome)
    (hr : (v.file? (b ++ r)).isSome) (h : q <+: r) : q = r := by
  obtain ⟨c, hc⟩ := Option.isSome_iff_exists.mp hq
  obtain ⟨d, hd⟩ := Option.isSome_iff_exists.mp hr
  have hne : v.item? (b ++ q) ≠ some .dir := by
    rw [file?_eq_some_iff.mp hc]
    nofun
  exact List.append_cancel_left
    (hv.not_below (file?_eq_some_iff.mp hd) ((List.prefix_append_right_inj b).mpr h) hne)

theorem Filled.copyFiles_total {fs : List Text} (hf : Filled v dir p files)
    (hb : v.find .item base = .ok (b, .dir)) (ha : Apart p b)
    (hfs : ∀ f ∈ fs, Path.Plain f ∧ (v.file? (b ++ Path.parts f)).isSome ∧ Reaches base f ∧ Reaches dir f)
    (hfit : ∀ f ∈ fs, Fits files (Path.parts f)) :
    ∃ w, Disk.on v (Tree.copyFiles base dir fs) = (.ok (), w) ∧
      Filled w dir p (restock files (contents v b fs)) ∧ Stocks p v w := by
  induction fs generalizing v files with
  | nil => exact ⟨v, rfl, hf, .refl p v⟩
  | cons f fs ih =>
    obtain ⟨hplain, hsome, hbase, hdir⟩ := hfs f List.mem_cons_self
    obtain ⟨c, hc⟩ := Option.isSome_iff_exists.mp hsome
    have htail (g : Text) (hg : g ∈ fs) : g ∈ f :: fs := List.mem_cons_of_mem _ hg
    obtain ⟨above, u, u', habove, hmake, hcopy, hfilled, hstocks⟩ :=
      hf.copyFile_total hb ha hplain hc hbase hdir (hfit f List.mem_cons_self)
    have hlater (g : Text) (hg : g ∈ fs) : Fits (Function.update files (Path.parts f) (some c)) (Path.parts g) := by
      refine (hfit g (htail g hg)).update fun hcmp => ?_
      have hg := (hfs g (htail g hg)).2.1
      rcases hcmp with hcmp | hcmp
      · exact eq_of_files hf.sound hsome hg hcmp
      · exact (eq_of_files hf.sound hg hsome hcmp).symm
    obtain ⟨w, hrest, hw, hu'w⟩ := ih hfilled (hstocks.find_dir hb)
      (fun g hg => by rw [hstocks.file? ha]; exact hfs g (htail g hg)) hlater
    rw [contents_congr fun q => hstocks.file? ha q] at hw
    refine ⟨w, ?_, ?_, hstocks.trans hu'w⟩
    · simp only [Tree.copyFiles, habove]
      rw [Disk.on_bind_of_ok (Disk.on_io_of_ok hmake), Disk.on_bind_of_ok (Disk.on_io_of_ok hcopy)]
      exact hrest
    · rw [contents, List.map_cons, restock, hc]
      exact hw

end Tree

end Patchwork
