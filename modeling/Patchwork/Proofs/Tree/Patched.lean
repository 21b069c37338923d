import Patchwork.Proofs.Tree.Patching
import Patchwork.Proofs.Tree.Loading
import Patchwork.Proofs.Tree.Keeping

/-!
# What patching a tree leaves

The output holds the files of the baseline.  Those that patches were loaded for hold the patched text.
-/
namespace Patchwork.Tree

open Volume

variable {v w u : Volume} {b p o : Place} {c : Config} {base dir baseline patchDir output : Text}
  {files : Place → Option Bytes} {ps : PatchSet} {e : Text × FilePatch} {report : PatchReport}

/-- What a patch makes of the file that it is for in the tree at a place. -/
def patchedText? (v : Volume) (b : Place) (e : Text × FilePatch) : Option Text :=
  (v.file? (b ++ Path.steps e.1)).bind fun content =>
    (Text.Utf8.decode? content).bind fun old => (e.2.apply e.1 old).toOption

theorem patchedText?_eq_some {new : Text} (h : patchedText? v b e = some new) :
    ∃ old, v.file? (b ++ Path.steps e.1) = some (Text.Utf8.encode old) ∧ e.2.apply e.1 old = .ok new := by
  obtain ⟨content, hfile, h⟩ := Option.bind_eq_some_iff.mp h
  obtain ⟨old, hdecode, h⟩ := Option.bind_eq_some_iff.mp h
  refine ⟨old, by rw [hfile, Text.Utf8.encode_of_decode? hdecode], ?_⟩
  cases happly : e.2.apply e.1 old with
  | error =>
    rw [happly] at h
    cases h
  | ok =>
    rw [happly] at h
    cases h
    rfl

theorem patchedText?_of_apply {old new : Text}
    (hfile : v.file? (b ++ Path.steps e.1) = some (Text.Utf8.encode old)) (happly : e.2.apply e.1 old = .ok new) :
    patchedText? v b e = some new := by
  rw [patchedText?, hfile, Option.bind_some, Text.Utf8.decode?_encode, Option.bind_some, happly]
  rfl

/-- The path of the file that a patch is for, without what is not followed. -/
def patchedFile (e : Text × FilePatch) : Text := Path.ofParts (Path.steps e.1)

/-- The files that patches are for, with what the patches make of them. -/
def patchedContents (v : Volume) (b : Place) (ps : PatchSet) : List (Text × Bytes) :=
  ps.map fun e => (patchedFile e, Text.Utf8.encode ((patchedText? v b e).getD []))

theorem patchedText?_congr (h : ∀ q, w.file? (b ++ q) = v.file? (b ++ q)) (e : Text × FilePatch) :
    patchedText? w b e = patchedText? v b e := by
  rw [patchedText?, patchedText?, h]

theorem patchedContents_congr (h : ∀ q, w.file? (b ++ q) = v.file? (b ++ q)) (ps : PatchSet) :
    patchedContents w b ps = patchedContents v b ps := by
  refine List.map_congr_left fun e _ => ?_
  rw [patchedText?_congr h]

theorem noLinkTo_of_around (h : Around p v w) (ha : Apart p b) {names : Place} (hl : NoLinkTo v b names) :
    NoLinkTo w b names := by
  intro s hs t ht
  cases hi : v.item? (b ++ s) with
  | some i =>
    rw [h.kept _ i (ha s) hi] at ht
    cases ht
    exact hl s hs t hi
  | none => rcases h.new _ (ha s) hi with hw | hw <;> rw [hw] at ht <;> cases ht

/-- A patch that is applied leads to a file of the baseline, and replaces the one in the output. -/
structure Applied (v : Volume) (b : Place) (e : Text × FilePatch) : Prop where
  plain : Path.Plain (patchedFile e)
  parts : Path.parts (patchedFile e) = Path.steps e.1
  resolves : ∀ root, Path.resolve? root e.1 = some (Path.join root (patchedFile e))
  applies : (patchedText? v b e).isSome

theorem Applied.congr (h : Applied w b e) (hsame : ∀ q, w.file? (b ++ q) = v.file? (b ++ q)) : Applied v b e := by
  obtain ⟨hplain, hparts, hresolves, happlies⟩ := h
  rw [patchedText?_congr hsame] at happlies
  exact ⟨hplain, hparts, hresolves, happlies⟩

theorem Stocked.patchFile (hs : Stocked v dir p files) (hb : v.find .item base = .ok (b, .dir))
    (hl : NoLinkTo v b (Path.steps e.1))
    (hrun : Disk.on v (Tree.patchFile base dir e.1 e.2) = (.ok (), w)) :
    Applied v b e ∧ Stocks p v w ∧ Stocked w dir p
      (Function.update files (Path.steps e.1) (some (Text.Utf8.encode ((patchedText? v b e).getD [])))) := by
  unfold Tree.patchFile at hrun
  split at hrun
  · next source dest hsource hdest =>
    obtain ⟨hplain, hparts, hresolves⟩ := Path.resolve?_eq_some hdest
    rw [hresolves] at hsource hdest
    cases hsource
    cases hdest
    obtain ⟨old, u, hread, hrun⟩ := Disk.on_bind_eq_ok hrun
    obtain ⟨hold, rfl⟩ := Disk.on_ask_eq_ok (Disk.on_naming_eq_ok hread)
    obtain ⟨new, u, hpatch, hrun⟩ := Disk.on_bind_eq_ok hrun
    obtain ⟨happly, rfl⟩ := Disk.on_ofExcept_eq_ok hpatch
    obtain ⟨r, hr⟩ := readText_eq_ok hold
    obtain ⟨hlocate, hitem⟩ := find_eq_ok_iff.mp hr
    rw [← hparts] at hl
    rw [← Path.ofParts_parts (Path.ofParts (Path.steps e.1))] at hlocate
    obtain ⟨rfl, -⟩ := locate_join_eq_ok hb hplain (Path.parts_ne_nil _) hl hlocate
    rw [hparts] at hitem
    have hnew : patchedText? _ b e = some new := patchedText?_of_apply (file?_eq_some_iff.mpr hitem) happly
    obtain ⟨hsw, hvw, -⟩ := hs.writePlain hplain (Disk.on_naming_eq_ok hrun)
    rw [hparts] at hsw
    refine ⟨⟨hplain, hparts, hresolves, by rw [hnew]; rfl⟩, hvw, ?_⟩
    rw [hnew]
    exact hsw
  · cases hrun

theorem Stocked.patchFiles (hs : Stocked v dir p files) (hb : v.find .item base = .ok (b, .dir))
    (ha : Apart p b) (hl : ∀ e ∈ ps, NoLinkTo v b (Path.steps e.1))
    (hrun : Disk.on v (Tree.patchFiles base dir ps) = (.ok (), w)) :
    (∀ e ∈ ps, Applied v b e) ∧ Stocks p v w ∧ Stocked w dir p (restock files (patchedContents v b ps)) := by
  induction ps generalizing v files with
  | nil =>
    cases hrun
    exact ⟨nofun, .refl p _, hs⟩
  | cons e ps ih =>
    obtain ⟨⟨⟩, u, hone, hrest⟩ := Disk.on_bind_eq_ok hrun
    obtain ⟨happlied, hvu, hsu⟩ := hs.patchFile hb (hl e List.mem_cons_self) hone
    obtain ⟨hall, huw, hsw⟩ := ih hsu (hvu.find_dir hb)
      (fun e he => noLinkTo_of_around hvu.around ha (hl e (List.mem_cons_of_mem _ he))) hrest
    have hsame (q : Place) : u.file? (b ++ q) = v.file? (b ++ q) := hvu.file? ha q
    rw [patchedContents_congr hsame] at hsw
    refine ⟨List.forall_mem_cons.mpr ⟨happlied, fun e he => (hall e he).congr hsame⟩, hvu.trans huw, ?_⟩
    rw [patchedContents, List.map_cons, restock, happlied.parts]
    exact hsw

/-- What is known when a tree has been patched. -/
structure Patched (c : Config) (v w : Volume) (baseline patchDir output : Text) (b o : Place)
    (ps : PatchSet) : Prop where
  place : canonical v output = .ok o
  loaded : Disk.on v (loadPatches c patchDir) = (.ok ps, v)
  apart : Apart o b
  applied : ∀ e ∈ ps, Applied v b e
  stocked : Stocked w output o
    (restock (restock (fun _ => none) (contents v b (filesAt v b))) (patchedContents v b ps))

/-- What is known when the output has been cleared. -/
structure Emptied (v u : Volume) (baseline output : Text) (b o : Place) : Prop where
  filled : Filled u output o fun _ => none
  find : u.find .item baseline = .ok (b, .dir)
  around : Around o v u
  kept : ∀ q, u.file? (b ++ q) = v.file? (b ++ q)
  listed : filesAt u b = filesAt v b

theorem emptied_of_clearDir (hv : v.Sound) (hn : Named v b) (hb : v.find .item baseline = .ok (b, .dir))
    (hself : Leaves v output output) (hbase : Leaves v output baseline) (ho : canonical v output = .ok o)
    (ha : Apart o b) (hclear : Disk.on v (clearDir output) = (.ok (), u)) :
    Emptied v u baseline output b o := by
  have hfilled := hself.filled hv ho hclear
  obtain ⟨hcleared, hways⟩ :=
    cleared_of_clearDir hv (find_ne_nil hfilled.find) hself.undisturbed ho hclear
  have hsame (q : Place) : u.file? (b ++ q) = v.file? (b ++ q) := hcleared.around.file? (ha q)
  refine ⟨hfilled, hways baseline b hb hbase.undisturbed, hcleared.around, hsame, ?_⟩
  refine filesAt_congr hv hfilled.sound hn (fun q c hc => hn q c ?_) fun q _ => by rw [hsame]
  rw [← hsame, hc]

theorem Emptied.plain {u : Volume} (h : Emptied v u baseline output b o) (hv : v.Sound) (hn : Named v b) {f : Text}
    (hf : f ∈ filesAt v b) : Path.Plain f ∧ (u.file? (b ++ Path.parts f)).isSome := by
  rw [h.kept]
  exact (mem_filesAt_iff hv hn).mp hf

/-- The output as a tree is patched: it is cleared in `u`, and the files of the baseline are there in `u'`. -/
structure Stages (c : Config) (v u u' w : Volume) (baseline patchDir output : Text) (b o : Place)
    (ps : PatchSet) : Prop where
  place : canonical v output = .ok o
  loaded : Disk.on v (loadPatches c patchDir) = (.ok ps, v)
  apart : Apart o b
  emptied : Emptied v u baseline output b o
  copied : Disk.on u (copyFiles baseline output (filesAt v b)) = (.ok (), u')
  patched : Disk.on u' (patchFiles baseline output ps) = (.ok (), w)

theorem stages_of_patch (hv : v.Sound) (hn : Named v b) (hb : v.find .item baseline = .ok (b, .dir))
    (hself : Leaves v output output) (hbase : Leaves v output baseline)
    (h : Disk.on v (patch c baseline patchDir output) = (.ok report, w)) :
    ∃ u u' o ps, Stages c v u u' w baseline patchDir output b o ps ∧
      report = ⟨(filesAt v b).length, ps.length⟩ := by
  generalize hr : Except.ok report = r at h
  cases patch_cases h with
  | refused | uncleared | uncopied => cases hr
  | @copied b' o ps u u' fs r' hp hclear hcopy hpatch =>
    cases r' with
    | error => cases hr
    | ok =>
      cases hr
      have hsame := hp.find
      rw [hb] at hsame
      cases hsame
      have ha := apart_of_canonical (canonical_of_find hb) (hp.apart baseline List.mem_cons_self)
      have hempty := emptied_of_clearDir hv hn hb hself hbase hp.place ha hclear
      rcases copyTree_cases hcopy with ⟨e, he, -⟩ | ⟨b', r', hb', hcopied, he⟩
      · cases he
      rw [hempty.find] at hb'
      cases hb'
      cases r' with
      | error => cases he
      | ok =>
        cases he
        rw [hempty.listed] at hcopied ⊢
        exact ⟨u, u', o, ps, ⟨hp.place, hp.loaded, ha, hempty, hcopied, hpatch⟩, rfl⟩

theorem patch_eq_ok (hv : v.Sound) (hn : Named v b) (hb : v.find .item baseline = .ok (b, .dir))
    (hself : Leaves v output output) (hbase : Leaves v output baseline)
    (hlink : ∀ ps, Disk.on v (loadPatches c patchDir) = (.ok ps, v) →
      ∀ e ∈ ps, NoLinkTo v b (Path.steps e.1))
    (h : Disk.on v (patch c baseline patchDir output) = (.ok report, w)) :
    ∃ o ps, Patched c v w baseline patchDir output b o ps ∧
      report = ⟨(filesAt v b).length, ps.length⟩ := by
  obtain ⟨u, u', o, ps, hs, hreport⟩ := stages_of_patch hv hn hb hself hbase h
  have hempty := hs.emptied
  have ha := hs.apart
  obtain ⟨hcopy, hstocks, -⟩ :=
    hempty.filled.copyFiles hempty.find ha (fun f hf => hempty.plain hv hn hf) hs.copied
  have hkept (q : Place) : u'.file? (b ++ q) = v.file? (b ++ q) := by
    rw [hstocks.file? ha, hempty.kept]
  have hlinks (e : Text × FilePatch) (he : e ∈ ps) : NoLinkTo u' b (Path.steps e.1) :=
    noLinkTo_of_around (hempty.around.trans hstocks.around) ha (hlink ps hs.loaded e he)
  obtain ⟨happlied, -, hstocked⟩ := hcopy.patchFiles (hstocks.find_dir hempty.find) ha hlinks hs.patched
  rw [contents_congr hempty.kept, patchedContents_congr hkept] at hstocked
  exact ⟨o, ps, ⟨hs.place, hs.loaded, ha, fun e he => (happlied e he).congr hkept, hstocked⟩, hreport⟩

/-- A path that is spelled with nothing but what is followed. -/
def Spelled (path : Text) : Prop := Path.ofParts (Path.steps path) = path

instance (path : Text) : Decidable (Spelled path) := inferInstanceAs (Decidable (_ = _))

theorem nodup_steps (h : (ps.map (·.1)).Nodup) (hs : ∀ e ∈ ps, Spelled e.1) :
    (ps.map fun e => Path.steps e.1).Nodup := by
  refine List.Nodup.of_map Path.ofParts ?_
  rw [List.map_map]
  exact (List.map_congr_left fun e he => (hs e he).symm) ▸ h

/-- The files of a tree, written below a directory, are those of the tree. -/
theorem restock_contents (hv : v.Sound) (hn : Named v b) {q : Place} (hq : q ≠ []) :
    restock (fun _ => none) (contents v b (filesAt v b)) q = v.file? (b ++ q) := by
  have hnames : (contents v b (filesAt v b)).map (·.1) = filesAt v b := by
    rw [contents, List.map_map]
    exact List.map_id _
  cases hc : v.file? (b ++ q) with
  | none =>
    refine restock_of_not_mem (List.forall_mem_map.mpr fun f hf he => ?_)
    have hsome := ((mem_filesAt_iff hv hn).mp hf).2
    rw [he, hc] at hsome
    cases hsome
  | some c =>
    have hparts : Path.parts (Path.ofParts q) = q := Path.parts_ofParts (hn q c hc) hq
    have hf : Path.ofParts q ∈ filesAt v b := (mem_filesAt hv).mpr ⟨q, hq, by rw [hc]; rfl, rfl⟩
    have hmem : (Path.ofParts q, c) ∈ contents v b (filesAt v b) :=
      List.mem_map.mpr ⟨_, hf, by rw [hparts, hc]; rfl⟩
    have hfile : restock (fun _ => none) (contents v b (filesAt v b)) (Path.parts (Path.ofParts q)) = some c :=
      restock_of_mem (by rw [hnames]; exact nodup_filesAt hv hn) hmem
    rwa [hparts] at hfile

theorem isSome_restock {named : List (Text × Bytes)} {q : Place} (h : ∃ e ∈ named, Path.parts e.1 = q) :
    (restock files named q).isSome := by
  induction named generalizing files with
  | nil => simp at h
  | cons e named ih =>
    rw [restock]
    by_cases hlater : ∃ e ∈ named, Path.parts e.1 = q
    · exact ih hlater
    · obtain ⟨e', he', hq⟩ := h
      rcases List.mem_cons.mp he' with rfl | he'
      · rw [restock_of_not_mem fun f hf he => hlater ⟨f, hf, he⟩, hq, Function.update_self]
        rfl
      · exact absurd ⟨e', he', hq⟩ hlater

/-- A file for which no patch was loaded is the one of the baseline. -/
theorem Patched.file?_of_none (h : Patched c v w baseline patchDir output b o ps) (hv : v.Sound)
    (hn : Named v b) {q : Place} (hq : q ≠ []) (hnone : ∀ e ∈ ps, Path.steps e.1 ≠ q) :
    w.file? (o ++ q) = v.file? (b ++ q) := by
  rw [h.stocked.files, restock_of_not_mem, restock_contents hv hn hq]
  refine List.forall_mem_map.mpr fun e he => ?_
  rw [(h.applied e he).parts]
  exact hnone e he

/-- The output has files where the baseline has. -/
theorem Patched.isSome_file? (h : Patched c v w baseline patchDir output b o ps) (hv : v.Sound)
    (hn : Named v b) {q : Place} (hq : q ≠ []) :
    (w.file? (o ++ q)).isSome = (v.file? (b ++ q)).isSome := by
  by_cases hmem : ∃ e ∈ ps, Path.steps e.1 = q
  · obtain ⟨e, he, rfl⟩ := hmem
    have happlied := h.applied e he
    obtain ⟨new, hnew⟩ := Option.isSome_iff_exists.mp happlied.applies
    obtain ⟨old, hold, -⟩ := patchedText?_eq_some hnew
    have hthere : ∃ x ∈ patchedContents v b ps, Path.parts x.1 = Path.steps e.1 :=
      ⟨_, List.mem_map_of_mem he, happlied.parts⟩
    rw [h.stocked.files, hold, isSome_restock hthere]
    rfl
  · rw [h.file?_of_none hv hn hq fun e he heq => hmem ⟨e, he, heq⟩]

theorem Patched.filesAt_eq (h : Patched c v w baseline patchDir output b o ps) (hv : v.Sound)
    (hn : Named v b) : filesAt w o = filesAt v b := by
  refine filesAt_congr hv h.stocked.sound hn (fun q c hc => ?_) fun q hq => h.isSome_file? hv hn hq
  by_cases hq : q = []
  · subst hq
    intro name hname
    cases hname
  · have hthere : (v.file? (b ++ q)).isSome := by
      rw [← h.isSome_file? hv hn hq, hc]
      rfl
    obtain ⟨d, hd⟩ := Option.isSome_iff_exists.mp hthere
    exact hn q d hd

/-- A file for which a single patch was loaded holds what the patch makes of the baseline's. -/
theorem Patched.file?_of_only (h : Patched c v w baseline patchDir output b o ps) (he : e ∈ ps)
    (honly : ∀ e' ∈ ps, Path.steps e'.1 = Path.steps e.1 → e' = e) :
    ∃ old new, v.file? (b ++ Path.steps e.1) = some (Text.Utf8.encode old) ∧ e.2.apply e.1 old = .ok new ∧
      w.file? (o ++ Path.steps e.1) = some (Text.Utf8.encode new) := by
  obtain ⟨new, hnew⟩ := Option.isSome_iff_exists.mp (h.applied e he).applies
  obtain ⟨old, hold, happly⟩ := patchedText?_eq_some hnew
  refine ⟨old, new, hold, happly, ?_⟩
  rw [h.stocked.files]
  refine restock_eq_some ⟨_, List.mem_map_of_mem he, (h.applied e he).parts⟩
    (List.forall_mem_map.mpr fun e' he' hparts => ?_)
  rw [(h.applied e' he').parts] at hparts
  rw [honly e' he' hparts, hnew]
  rfl

theorem Patched.file?_of_mem (h : Patched c v w baseline patchDir output b o ps)
    (hd : (ps.map fun e => Path.steps e.1).Nodup) (he : e ∈ ps) :
    ∃ old new, v.file? (b ++ Path.steps e.1) = some (Text.Utf8.encode old) ∧ e.2.apply e.1 old = .ok new ∧
      w.file? (o ++ Path.steps e.1) = some (Text.Utf8.encode new) :=
  h.file?_of_only he fun _ he' hsteps => List.inj_on_of_nodup_map hd he' he hsteps

/-- A patch can be applied to the baseline's file, and its file in the output can be replaced. -/
structure Applicable (v : Volume) (b : Place) (base dir : Text) (e : Text × FilePatch) : Prop extends
    Applied v b e where
  source : Reaches base (patchedFile e)
  target : Reaches dir (patchedFile e)

theorem Applicable.congr (h : Applicable v b base dir e) (hsame : ∀ q, w.file? (b ++ q) = v.file? (b ++ q)) :
    Applicable w b base dir e :=
  ⟨h.toApplied.congr fun q => (hsame q).symm, h.source, h.target⟩

theorem Filled.patchFile_total (hf : Filled v dir p files) (hb : v.find .item base = .ok (b, .dir))
    (he : Applicable v b base dir e) (hthere : (files (Path.steps e.1)).isSome) :
    ∃ w, Disk.on v (Tree.patchFile base dir e.1 e.2) = (.ok (), w) ∧ Stocks p v w ∧
      Filled w dir p
        (Function.update files (Path.steps e.1) (some (Text.Utf8.encode ((patchedText? v b e).getD [])))) := by
  obtain ⟨new, hnew⟩ := Option.isSome_iff_exists.mp he.applies
  obtain ⟨old, hold, happly⟩ := patchedText?_eq_some hnew
  rw [← he.parts] at hold hthere
  have hread : Disk.on v (Disk.readText (Path.join base (patchedFile e))) = (.ok old, v) := by
    rw [Disk.readText, Disk.on_ask, readText_of_find (find_reaches hf.sound hb he.plain hold he.source)]
  have hpatch : Disk.on v (Disk.ofExcept (e.2.apply e.1 old)) = (.ok new, v) := by
    rw [happly]
    rfl
  obtain ⟨w, hwrite, hw, hvw⟩ := hf.overwrite he.plain he.target hthere (Text.Utf8.encode new)
  rw [he.parts] at hw
  refine ⟨w, ?_, hvw, by rw [hnew]; exact hw⟩
  simp only [Tree.patchFile, he.resolves]
  rw [Disk.on_bind_of_ok (Disk.on_naming_of_ok hread), Disk.on_bind_of_ok hpatch]
  exact Disk.on_naming_of_ok hwrite

theorem Filled.patchFiles_total (hf : Filled v dir p files) (hb : v.find .item base = .ok (b, .dir))
    (ha : Apart p b) (hps : ∀ e ∈ ps, Applicable v b base dir e ∧ (files (Path.steps e.1)).isSome) :
    ∃ w, Disk.on v (Tree.patchFiles base dir ps) = (.ok (), w) := by
  induction ps generalizing v files with
  | nil => exact ⟨v, rfl⟩
  | cons e ps ih =>
    obtain ⟨he, hthere⟩ := hps e List.mem_cons_self
    obtain ⟨u, hone, hvu, hu⟩ := hf.patchFile_total hb he hthere
    obtain ⟨w, hrest⟩ := ih hu (hvu.find_dir hb) fun e he => by
      obtain ⟨happlicable, hsome⟩ := hps e (List.mem_cons_of_mem _ he)
      exact ⟨happlicable.congr fun q => hvu.file? ha q, isSome_update files _ hsome⟩
    refine ⟨w, ?_⟩
    rw [Tree.patchFiles, Disk.on_bind_of_ok hone]
    exact hrest

/-- A tree can be patched if the output can be cleared, no path is too long, and every patch that was loaded
can be applied to a file of the baseline. -/
theorem patch_total {u : Volume} (hv : v.Sound) (hn : Named v b) (hb : v.find .item baseline = .ok (b, .dir))
    (hapart : (Disk.on v (ensureDisjoint output [baseline, patchDir])).1 = .ok ())
    (hload : Disk.on v (loadPatches c patchDir) = (.ok ps, v))
    (hclear : Disk.on v (clearDir output) = (.ok (), u))
    (hself : Leaves v output output) (hbase : Leaves v output baseline)
    (hfiles : ∀ f ∈ filesAt v b, Reaches baseline f ∧ Reaches output f)
    (hps : ∀ e ∈ ps, Applied v b e) :
    ∃ report w, Disk.on v (patch c baseline patchDir output) = (.ok report, w) := by
  have hdisjoint : Disk.on v (ensureDisjoint output [baseline, patchDir]) = (.ok (), v) := Prod.ext hapart rfl
  obtain ⟨-, o, ho, hkept⟩ := ensureDisjoint_eq_ok hdisjoint
  have ha := apart_of_canonical (canonical_of_find hb) (hkept baseline List.mem_cons_self)
  have hempty := emptied_of_clearDir hv hn hb hself hbase ho ha hclear
  have hcopied (f : Text) (hf : f ∈ filesAt v b) : Path.Plain f ∧
      (u.file? (b ++ Path.parts f)).isSome ∧ Reaches baseline f ∧ Reaches output f := by
    obtain ⟨hplain, hsome⟩ := hempty.plain hv hn hf
    exact ⟨hplain, hsome, hfiles f hf⟩
  obtain ⟨x, hcopy, hx, hux⟩ :=
    hempty.filled.copyFiles_total hempty.find ha hcopied fun _ _ _ hr => nomatch hr
  have hkept (q : Place) : x.file? (b ++ q) = v.file? (b ++ q) := by
    rw [hux.file? ha, hempty.kept]
  rw [contents_congr hempty.kept] at hx
  have hlater (e : Text × FilePatch) (he : e ∈ ps) : Applicable x b baseline output e ∧
      (restock (fun _ => none) (contents v b (filesAt v b)) (Path.steps e.1)).isSome := by
    have happlied := hps e he
    obtain ⟨new, hnew⟩ := Option.isSome_iff_exists.mp happlied.applies
    obtain ⟨old, hold, -⟩ := patchedText?_eq_some hnew
    have hne : Path.steps e.1 ≠ [] := happlied.parts ▸ Path.parts_ne_nil _
    have hf : patchedFile e ∈ filesAt v b := by
      refine (mem_filesAt_iff hv hn).mpr ⟨happlied.plain, ?_⟩
      rw [happlied.parts, hold]
      rfl
    rw [restock_contents hv hn hne, hold]
    obtain ⟨hsource, htarget⟩ := hfiles _ hf
    exact ⟨⟨happlied.congr fun q => (hkept q).symm, hsource, htarget⟩, rfl⟩
  obtain ⟨w, hpatch⟩ := hx.patchFiles_total (hux.find_dir hempty.find) ha hlater
  have hdir : Disk.on v (Disk.requireDir baseline) = (.ok (), v) := by
    rw [Disk.requireDir, Disk.on_ask, if_pos (by rw [isDir, hb])]
  have hcopyTree : Disk.on u (copyTree baseline output) = (.ok (filesAt v b), x) := by
    rw [copyTree, Disk.on_bind_of_ok (on_listFiles hempty.find), hempty.listed, Disk.on_bind_of_ok hcopy]
    rfl
  refine ⟨⟨(filesAt v b).length, ps.length⟩, w, ?_⟩
  rw [patch, Disk.on_bind_of_ok hdir, Disk.on_bind_of_ok hdisjoint, Disk.on_bind_of_ok hload,
    Disk.on_bind_of_ok hclear, Disk.on_bind_of_ok hcopyTree, Disk.on_bind_of_ok hpatch]
  rfl

end Patchwork.Tree
