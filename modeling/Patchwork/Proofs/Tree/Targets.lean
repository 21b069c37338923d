import Patchwork.Proofs.Tree.Patched

/-!
# The files that patches are for

No two sections of the patch files are for the same text, and sections are for different files if their paths
hold nothing but names.
-/
namespace Patchwork

namespace Tree

open Volume

variable {v w : Volume} {b : Place} {c : Config} {baseline patchDir output : Text} {beginnings names : List Text}
  {ps all : PatchSet} {sections : List FilePatch} {report : PatchReport}

/-- A section with the path of the file that it is for. -/
def aimed (beginnings : List Text) (s : FilePatch) : Text × FilePatch := (targetPath beginnings s.source, s)

theorem PatchSet.addAll_eq_ok (h : ps.addAll beginnings sections = .ok all) :
    all.Perm (ps ++ sections.map (aimed beginnings)) ∧ ((ps.map (·.1)).Nodup → (all.map (·.1)).Nodup) := by
  induction sections generalizing ps with
  | nil =>
    cases h
    exact ⟨by rw [List.map_nil, List.append_nil], id⟩
  | cons s sections ih =>
    rw [PatchSet.addAll] at h
    split at h
    · cases h
    · next hnew =>
      obtain ⟨hperm, hnodup⟩ := ih h
      have hinsert := PatchSet.insert_perm (targetPath beginnings s.source) s ps
      refine ⟨hperm.trans ?_, fun hps => hnodup ?_⟩
      · exact (hinsert.append_right _).trans List.perm_middle.symm
      · refine (hinsert.map _).nodup_iff.mpr (List.nodup_cons.mpr ⟨fun hmem => hnew ?_, hps⟩)
        obtain ⟨q, hq, he⟩ := List.mem_map.mp hmem
        exact List.any_eq_true.mpr ⟨q, hq, by simpa using he⟩

/-- Sections that were printed are read back. -/
theorem parseFile_of_find {path : Text} {r : Place} (hs : ∀ s ∈ sections, s.Printable)
    (h : v.find .item path = .ok (r, .file (Text.Utf8.encode (FilePatch.print sections)))) :
    Disk.on v (parseFile path) = (.ok sections, v) := by
  have hparse : FilePatch.parse path (FilePatch.print sections) = .ok sections := by
    rw [FilePatch.parse, FilePatch.lines_print hs, FilePatch.readSections_flatMap_render hs]
  rw [parseFile, Disk.on_ask, readText_of_find h]
  simp only [hparse]

/-- The sections of some patch files, in their order.  Each file has one. -/
inductive Sections (v : Volume) (patchDir : Text) : List Text → List FilePatch → Prop
  | nil : Sections v patchDir [] []
  | cons {name : Text} {names : List Text} {here rest : List FilePatch}
      (hparse : Disk.on v (parseFile (Path.join patchDir name)) = (.ok here, v)) (hne : here ≠ [])
      (hrest : Sections v patchDir names rest) : Sections v patchDir (name :: names) (here ++ rest)

theorem loadFiles_eq_ok (h : Disk.on v (loadFiles c patchDir ps names) = (.ok all, w)) :
    ∃ sections, Sections v patchDir names sections ∧ all.Perm (ps ++ sections.map (aimed c.beginnings)) ∧
      ((ps.map (·.1)).Nodup → (all.map (·.1)).Nodup) := by
  induction names generalizing ps with
  | nil =>
    cases h
    exact ⟨[], .nil, by rw [List.map_nil, List.append_nil], id⟩
  | cons name names ih =>
    obtain ⟨here, u, hparse, h⟩ := Disk.on_bind_eq_ok h
    obtain rfl : v = u := (Prod.mk.inj hparse).2
    split at h
    · cases h
    · next hne =>
      obtain ⟨more, u, hone, h⟩ := Disk.on_bind_eq_ok h
      obtain ⟨hadd, rfl⟩ := Disk.on_ofExcept_eq_ok hone
      obtain ⟨hmore, hmoreNodup⟩ := PatchSet.addAll_eq_ok hadd
      obtain ⟨rest, hrest, hperm, hnodup⟩ := ih h
      refine ⟨here ++ rest, .cons hparse hne hrest, hperm.trans ?_, hnodup ∘ hmoreNodup⟩
      rw [List.map_append, ← List.append_assoc]
      exact hmore.append_right _

theorem loadPatches_eq_ok (h : Disk.on v (loadPatches c patchDir) = (.ok all, w)) :
    ∃ d sections, v.find .item patchDir = .ok (d, .dir) ∧ Sections v patchDir (filesAt v d) sections ∧
      all.Perm (sections.map (aimed c.beginnings)) ∧ (all.map (·.1)).Nodup := by
  obtain ⟨fs, u, hlist, h⟩ := Disk.on_bind_eq_ok h
  obtain ⟨rfl, d, hd, rfl⟩ := listFiles_eq_ok hlist
  obtain ⟨sections, hsections, hperm, hnodup⟩ := loadFiles_eq_ok h
  exact ⟨d, sections, hd, hsections, hperm, hnodup .nil⟩

/-- The sections of a successful run are for different texts, and each applies to the file of the baseline
that its text leads to.  If the texts are spelled with nothing but what is followed, no two sections are for
the same file, and each file of the output that has a section holds what it makes of the baseline's. -/
theorem patch_targets (hv : v.Sound) (hn : Named v b) (hb : v.find .item baseline = .ok (b, .dir))
    (hself : Leaves v output output) (hbase : Leaves v output baseline)
    (hlink : ∀ q t, v.item? (b ++ q) ≠ some (.link t))
    (h : Disk.on v (patch c baseline patchDir output) = (.ok report, w)) :
    ∃ d o sections, v.find .item patchDir = .ok (d, .dir) ∧ canonical v output = .ok o ∧
      Sections v patchDir (filesAt v d) sections ∧
      (sections.map fun s => targetPath c.beginnings s.source).Nodup ∧
      (∀ s ∈ sections, Path.ofParts (Path.steps (targetPath c.beginnings s.source)) ∈ filesAt v b) ∧
      ((∀ s ∈ sections, Spelled (targetPath c.beginnings s.source)) →
        (sections.map fun s => Path.steps (targetPath c.beginnings s.source)).Nodup ∧
        report.patched = (sections.map fun s => Path.steps (targetPath c.beginnings s.source)).toFinset.card ∧
        ∀ s ∈ sections, ∃ old new,
          v.file? (b ++ Path.steps (targetPath c.beginnings s.source)) = some (Text.Utf8.encode old) ∧
          s.apply (targetPath c.beginnings s.source) old = .ok new ∧
          w.file? (o ++ Path.steps (targetPath c.beginnings s.source)) = some (Text.Utf8.encode new)) := by
  obtain ⟨o, ps, hpatched, rfl⟩ := patch_eq_ok hv hn hb hself hbase (fun _ _ _ _ s _ t => hlink s t) h
  obtain ⟨d, sections, hd, hsections, hperm, hnodup⟩ := loadPatches_eq_ok hpatched.loaded
  have hmem (s : FilePatch) (hs : s ∈ sections) : aimed c.beginnings s ∈ ps :=
    hperm.mem_iff.mpr (List.mem_map_of_mem hs)
  have hmap {α : Type} (g : Text → α) : (ps.map fun e => g e.1).Perm
      (sections.map fun s => g (targetPath c.beginnings s.source)) := by
    have hall := hperm.map fun e => g e.1
    rwa [List.map_map] at hall
  refine ⟨d, o, sections, hd, hpatched.place, hsections, (hmap id).nodup_iff.mp hnodup, fun s hs => ?_,
    fun hspelled => ?_⟩
  · obtain ⟨hplain, hparts, -, happlies⟩ := hpatched.applied _ (hmem s hs)
    obtain ⟨new, hnew⟩ := Option.isSome_iff_exists.mp happlies
    obtain ⟨old, hold, -⟩ := patchedText?_eq_some hnew
    refine (mem_filesAt_iff hv hn).mpr ⟨hplain, ?_⟩
    have hsome : (v.file? (b ++ Path.steps (aimed c.beginnings s).1)).isSome := by rw [hold]; rfl
    rwa [← hparts] at hsome
  · have hsteps : (ps.map fun e => Path.steps e.1).Nodup := by
      refine nodup_steps hnodup fun e he => ?_
      obtain ⟨s, hs, rfl⟩ := List.mem_map.mp (hperm.mem_iff.mp he)
      exact hspelled s hs
    have hdistinct := (hmap Path.steps).nodup_iff.mp hsteps
    refine ⟨hdistinct, ?_, fun s hs => hpatched.file?_of_mem hsteps (hmem s hs)⟩
    rw [List.toFinset_card_of_nodup hdistinct, List.length_map]
    exact hperm.length_eq.trans (List.length_map _)

/-- A tree of two files that hold a `1`, and a patch file with some sections. -/
def shelved (sections : List FilePatch) : Volume :=
  { Volume.empty with items :=
    [([['b']], .dir), ([['b'], ['f']], .file [49, 10]), ([['b'], ['g']], .file [49, 10]), ([['p']], .dir),
     ([['p'], ['s']], .file (Text.Utf8.encode (FilePatch.print sections)))] }

/-- Changes the text of a file from a `1` to another one. -/
def changeTo (path new : Text) : FilePatch :=
  ⟨path, path, [⟨1, 1, 1, 1, [⟨.delete, "1\n".toList⟩, ⟨.insert, new⟩]⟩]⟩

theorem sound_shelved (sections : List FilePatch) : (shelved sections).Sound :=
  ⟨by simp [shelved], by simp [shelved], by simp [shelved, item?]⟩

theorem named_shelved (sections : List FilePatch) : Named (shelved sections) [] :=
  named_of_items (by simp [shelved]; decide)

theorem filesAt_shelved (sections : List FilePatch) :
    filesAt (shelved sections) [['b']] = [['f'], ['g']] ∧ filesAt (shelved sections) [['p']] = [['s']] := by
  have hb : (shelved sections).below [['b']] = [([['f']], .file [49, 10]), ([['g']], .file [49, 10])] := rfl
  have hp : (shelved sections).below [['p']] =
    [([['s']], .file (Text.Utf8.encode (FilePatch.print sections)))] := rfl
  rw [filesAt, filesAt, hb, hp]
  exact ⟨List.mergeSort_of_pairwise (by decide), List.mergeSort_singleton _⟩

theorem noLink_shelved (sections : List FilePatch) (q : Place) (t : Text) :
    (shelved sections).item? ([['b']] ++ q) ≠ some (.link t) := by
  intro hi
  have hmem := exists_mem_of_item? (by simp) hi
  simp [shelved] at hmem

theorem parseFile_shelved {sections : List FilePatch} (hs : ∀ s ∈ sections, s.Printable) :
    Disk.on (shelved sections) (parseFile "p/s".toList) = (.ok sections, shelved sections) := by
  have hfind : (shelved sections).find .item "p/s".toList =
    .ok ([['p'], ['s']], .file (Text.Utf8.encode (FilePatch.print sections))) := rfl
  exact parseFile_of_find hs hfind

theorem loadPatches_shelved {sections : List FilePatch} (hs : ∀ s ∈ sections, s.Printable)
    (hne : sections ≠ []) (h : PatchSet.addAll [] [] sections = .ok all) :
    Disk.on (shelved sections) (loadPatches {} ['p']) = (.ok all, shelved sections) := by
  have hadd : Disk.on (shelved sections) (Disk.ofExcept (PatchSet.addAll [] [] sections)) =
      (.ok all, shelved sections) := by
    rw [h]
    rfl
  have hparse : Disk.on (shelved sections) (parseFile (Path.join ['p'] ['s'])) = _ := parseFile_shelved hs
  have hp : (shelved sections).find .item ['p'] = .ok ([['p']], .dir) := rfl
  rw [loadPatches, Disk.on_bind_of_ok (on_listFiles hp), (filesAt_shelved sections).2, loadFiles,
    Disk.on_bind_of_ok hparse, if_neg hne, Disk.on_bind_of_ok hadd]
  rfl

theorem leaves_shelved (sections : List FilePatch) :
    Leaves (shelved sections) ['o'] ['o'] ∧ Leaves (shelved sections) ['o'] ['b'] :=
  ⟨leaves_of_isDir rfl, leaves_of_isDir rfl⟩

theorem patch_shelved {sections : List FilePatch} (hs : ∀ s ∈ sections, s.Printable) (hne : sections ≠ [])
    (hall : PatchSet.addAll [] [] sections = .ok all)
    (happlied : ∀ e ∈ all, Applied (shelved sections) [['b']] e) :
    ∃ report w, Disk.on (shelved sections) (patch {} ['b'] ['p'] ['o']) = (.ok report, w) := by
  obtain ⟨hself, hbase⟩ := leaves_shelved sections
  have hb : (shelved sections).find .item ['b'] = .ok ([['b']], .dir) := rfl
  have hreaches (f : Text) (hf : f ∈ filesAt (shelved sections) [['b']]) : Reaches ['b'] f ∧ Reaches ['o'] f := by
    rw [(filesAt_shelved sections).1] at hf
    revert f
    decide
  exact patch_total (sound_shelved sections) ((named_shelved sections).below _) hb rfl
    (loadPatches_shelved hs hne hall) rfl hself hbase hreaches happlied

theorem sections_shelved {sections found : List FilePatch} (hs : ∀ s ∈ sections, s.Printable)
    (h : Sections (shelved sections) ['p'] [['s']] found) : found = sections := by
  cases h with
  | cons hparse hne hrest =>
    cases hrest
    rw [List.append_nil]
    exact Except.ok.inj (Prod.mk.inj (hparse.symm.trans (parseFile_shelved hs))).1

theorem apply_changeTo (path label new : Text) :
    (changeTo path new).apply label "1\n".toList = .ok new := by
  have hall : Hunk.applyAll label 1 0 0 (changeTo path new).hunks ["1\n".toList] = .ok [new] := rfl
  have hnew : [new].flatten = new := List.flatten_singleton
  exact (congrArg (·.map List.flatten) hall).trans (congrArg Except.ok hnew)

/-- A file that held a `1` holds what a section changes it to. -/
theorem changedTo {sections : List FilePatch} {path label new : Text} {p q : Place}
    (h : ∃ old new', (shelved sections).file? p = some (Text.Utf8.encode old) ∧
      (changeTo path new).apply label old = .ok new' ∧ w.file? q = some (Text.Utf8.encode new'))
    (hp : (shelved sections).file? p = some (Text.Utf8.encode "1\n".toList)) :
    w.file? q = some (Text.Utf8.encode new) := by
  obtain ⟨old, new', hold, happly, hfile⟩ := h
  obtain rfl := encode_injective (Option.some.inj (hp.symm.trans hold))
  rw [hfile]
  rw [apply_changeTo] at happly
  cases happly
  rfl

/-- Sections for two files. -/
def twoSections : List FilePatch := [changeTo ['f'] "2\n".toList, changeTo ['g'] "3\n".toList]

theorem patch_targets_twoSections : (shelved twoSections).Sound ∧ Named (shelved twoSections) [['b']] ∧
    (shelved twoSections).find .item ['b'] = .ok ([['b']], .dir) ∧ Leaves (shelved twoSections) ['o'] ['o'] ∧
    Leaves (shelved twoSections) ['o'] ['b'] ∧
    (∀ q t, (shelved twoSections).item? ([['b']] ++ q) ≠ some (.link t)) ∧
    ∃ report w, Disk.on (shelved twoSections) (patch {} ['b'] ['p'] ['o']) = (.ok report, w) ∧
      report.patched = 2 ∧ w.file? [['o'], ['f']] = some (Text.Utf8.encode "2\n".toList) ∧
      w.file? [['o'], ['g']] = some (Text.Utf8.encode "3\n".toList) := by
  have hv := sound_shelved twoSections
  have hn := (named_shelved twoSections).below [['b']]
  have hprint : ∀ s ∈ twoSections, s.Printable := by decide
  obtain ⟨hself, hbase⟩ := leaves_shelved twoSections
  have hlink := noLink_shelved twoSections
  have hadd : PatchSet.addAll [] [] twoSections = .ok (twoSections.map (aimed [])) := rfl
  have happlied : ∀ e ∈ twoSections.map (aimed []), Applied (shelved twoSections) [['b']] e := by
    intro e he
    rcases List.mem_pair.mp he with rfl | rfl
    · exact ⟨by decide, by decide, fun root => rfl, by decide +kernel⟩
    · exact ⟨by decide, by decide, fun root => rfl, by decide +kernel⟩
  obtain ⟨report, w, hrun⟩ := patch_shelved hprint (List.cons_ne_nil _ _) hadd happlied
  obtain ⟨d, o, sections, hd, ho, hsections, -, -, hspelled⟩ :=
    patch_targets hv hn rfl hself hbase hlink hrun
  obtain rfl : [['p']] = d := (Prod.mk.inj (Except.ok.inj hd)).1
  obtain rfl : [['o']] = o := Except.ok.inj ho
  rw [(filesAt_shelved twoSections).2] at hsections
  obtain rfl := sections_shelved hprint hsections
  obtain ⟨-, hpatched, hfiles⟩ := hspelled (by decide)
  obtain ⟨hf, hg⟩ := List.forall_mem_cons.mp hfiles
  exact ⟨hv, hn, rfl, hself, hbase, hlink, report, w, hrun, hpatched, changedTo hf rfl,
    changedTo (hg _ List.mem_cons_self) rfl⟩

/-- Both sections are for the same file, and one of them is lost. -/
def respelled : List FilePatch := [changeTo ['f'] "2\n".toList, changeTo "./f".toList "3\n".toList]

theorem patch_loses_section : (shelved respelled).Sound ∧ (∀ s ∈ respelled, s.Printable) ∧
    Path.resolve? ['o'] "./f".toList = Path.resolve? ['o'] ['f'] ∧
    ∃ w, Disk.on (shelved respelled) (patch {} ['b'] ['p'] ['o']) = (.ok ⟨2, 2⟩, w) ∧
      w.file? [['o'], ['f']] = some (Text.Utf8.encode "2\n".toList) ∧
      w.file? [['o'], ['g']] = (shelved respelled).file? [['b'], ['g']] := by
  have hv := sound_shelved respelled
  have hn := (named_shelved respelled).below [['b']]
  have hprint : ∀ s ∈ respelled, s.Printable := by decide
  -- The path with the dot is the first one in the order of texts.
  have hadd : PatchSet.addAll [] [] respelled = .ok (respelled.reverse.map (aimed [])) := rfl
  have happlied : ∀ e ∈ respelled.reverse.map (aimed []), Applied (shelved respelled) [['b']] e := by
    intro e he
    rcases List.mem_pair.mp he with rfl | rfl
    · exact ⟨by decide, by decide, fun root => rfl, by decide +kernel⟩
    · exact ⟨by decide, by decide, fun root => rfl, by decide +kernel⟩
  have hload := loadPatches_shelved hprint (List.cons_ne_nil _ _) hadd
  obtain ⟨hself, hbase⟩ := leaves_shelved respelled
  obtain ⟨report, w, hrun⟩ := patch_shelved hprint (List.cons_ne_nil _ _) hadd happlied
  obtain ⟨o, ps, hpatched, hreport⟩ :=
    patch_eq_ok hv hn rfl hself hbase (fun _ _ _ _ q _ => noLink_shelved respelled q) hrun
  obtain rfl : [['o']] = o := Except.ok.inj hpatched.place
  obtain rfl := Except.ok.inj (Prod.mk.inj (hpatched.loaded.symm.trans hload)).1
  rw [(filesAt_shelved respelled).1] at hreport
  subst hreport
  refine ⟨hv, hprint, rfl, w, hrun, ?_, ?_⟩
  · have hfile := hpatched.stocked.files [['f']]
    refine hfile.trans ?_
    decide +kernel
  · have hne : [['g']] ≠ ([] : Place) := List.cons_ne_nil _ _
    exact hpatched.file?_of_none hv hn hne (by decide)

end Tree

end Patchwork
