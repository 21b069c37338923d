import Patchwork.Proofs.Tree.Patched

/-!
# From a diff to the patched tree

The patches that a diff leaves are loaded as they were made, and a tree that is patched with them has the
files of the baseline, each with its patch applied.
-/
namespace Patchwork.Tree

open Volume

variable {v w : Volume} {b p : Place} {c d : Config} {baseline modified patchDir output f : Text}
  {ps made : List (Text × FilePatch)} {report : DiffReport}

theorem spelled_plain (hf : Path.Plain f) : Spelled f := by
  rw [Spelled, hf.steps, Path.ofParts_parts]

/-- What is read of a file of the baseline is what stands there. -/
theorem Diffed.file?_of_mem (h : Diffed c v w baseline modified patchDir b p ps) (hv : v.Sound)
    (hn : Named v b) (hb : v.find .item baseline = .ok (b, .dir)) (hf : f ∈ filesAt v b) :
    Reaches baseline f ∧ ∃ old, v.readText (Path.join baseline f) = .ok old ∧
      v.file? (b ++ Path.parts f) = some (Text.Utf8.encode old) := by
  obtain ⟨hplain, hsome⟩ := (mem_filesAt_iff hv hn).mp hf
  obtain ⟨content, hc⟩ := Option.isSome_iff_exists.mp hsome
  obtain ⟨old, hold⟩ := (h.read f hf).old
  obtain ⟨r, hr⟩ := readText_eq_ok hold
  obtain ⟨-, hcontent, hreaches⟩ := find_plain hv hb hplain hc hr
  cases hcontent
  exact ⟨hreaches, old, hold, hc⟩

/-- A patch that a diff made can be applied where it applies to the text of its file. -/
theorem Diffed.applied_iff (h : Diffed c v w baseline modified patchDir b p ps) (hv : v.Sound)
    (hn : Named v b) (hb : v.find .item baseline = .ok (b, .dir)) {e : Text × FilePatch} (he : e ∈ ps) :
    Applied w b e ↔ ∃ old new, v.readText (Path.join baseline e.1) = .ok old ∧ e.2.apply e.1 old = .ok new := by
  have hf := h.mem_filesAt he
  have hplain := ((mem_filesAt_iff hv hn).mp hf).1
  obtain ⟨-, old, hold, hfile⟩ := h.file?_of_mem hv hn hb hf
  rw [← h.kept, ← hplain.steps] at hfile
  constructor
  · intro happlied
    obtain ⟨new, hnew⟩ := Option.isSome_iff_exists.mp happlied.applies
    obtain ⟨old', hold', happly⟩ := patchedText?_eq_some hnew
    rw [hfile, Option.some.injEq] at hold'
    obtain rfl := encode_injective hold'
    exact ⟨old, new, hold, happly⟩
  · rintro ⟨old', new, hold', happly⟩
    rw [hold] at hold'
    cases hold'
    have hname : patchedFile e = e.1 := spelled_plain hplain
    exact ⟨by rwa [hname], by rw [hname, hplain.steps], fun root => by rw [hname]; exact (h.read _ hf).resolves root,
      by rw [patchedText?_of_apply hfile happly]; rfl⟩

/-- A directory that a tree can be patched to: it is apart from the inputs and can be cleared, its path and
the one of the baseline lead on once it has been cleared, and the paths of the files in it are not too long. -/
structure Output (v : Volume) (baseline patchDir output : Text) (files : List Text) : Prop where
  apart : (Disk.on v (ensureDisjoint output [baseline, patchDir])).1 = .ok ()
  clear : ∃ u, Disk.on v (clearDir output) = (.ok (), u)
  self : Leaves v output output
  baseline : Leaves v output baseline
  reaches : ∀ f ∈ files, Reaches output f

theorem Diffed.listed (h : Diffed c v w baseline modified patchDir b p made) (hv : v.Sound) (hn : Named v b) :
    Named w b ∧ filesAt w b = filesAt v b := by
  have hnw : Named w b := fun q c hc => hn q c (by rw [← h.kept, hc])
  exact ⟨hnw, filesAt_congr hv h.stocked.sound hn hnw fun q _ => by rw [h.kept]⟩

/-- A tree that is patched with the patches of a diff. -/
theorem Diffed.patched {result : PatchReport} {x : Volume}
    (h : Diffed c v w baseline modified patchDir b p made) (hv : v.Sound) (hn : Named v b)
    (hload : Disk.on w (Tree.loadPatches d patchDir) = (.ok ps, w)) (hperm : ps.Perm made)
    (ho : Output w baseline patchDir output (filesAt v b))
    (hx : Disk.on w (patch d baseline patchDir output) = (.ok result, x)) :
    ∃ o, Patched d w x baseline patchDir output b o ps := by
  have hsame {qs : PatchSet} (hqs : Disk.on w (Tree.loadPatches d patchDir) = (.ok qs, w)) : qs = ps := by
    rw [hload] at hqs
    exact (Except.ok.inj (Prod.mk.inj hqs).1).symm
  have hlink (e : Text × FilePatch) (he : e ∈ ps) : NoLinkTo w b (Path.steps e.1) := by
    obtain ⟨hplain, hsome⟩ := (mem_filesAt_iff hv hn).mp (h.mem_filesAt (hperm.mem_iff.mp he))
    obtain ⟨content, hc⟩ := Option.isSome_iff_exists.mp hsome
    rw [← h.kept] at hc
    rw [hplain.steps]
    exact noLinkTo_of_item? h.stocked.sound (file?_eq_some_iff.mp hc) nofun
  obtain ⟨o, qs, hpatched, -⟩ := patch_eq_ok h.stocked.sound (h.listed hv hn).1 h.baseline ho.self ho.baseline
    (fun qs hqs => hsame hqs ▸ hlink) hx
  obtain rfl := hsame hpatched.loaded
  exact ⟨o, hpatched⟩

theorem patch_of_diff (hv : v.Sound) (hn : Named v b) (hl : Loadable v) (hc : c.validate = .ok ())
    (hd : d.beginnings = []) (hb : v.find .item baseline = .ok (b, .dir))
    (hself : Leaves v patchDir patchDir) (hbase : Leaves v patchDir baseline)
    (hp : ∀ f ∈ filesAt v b, Header.Printable f ∧ Header.Printable (c.patchLabel ++ f))
    (h : Disk.on v (diff c baseline modified patchDir) = (.ok report, w)) :
    ∃ ps : PatchSet, Disk.on w (loadPatches d patchDir) = (.ok ps, w) ∧ (ps.map (·.1)).Nodup ∧
      (∀ f q, (f, q) ∈ ps ↔ f ∈ filesAt v b ∧ Differs c v baseline modified f q) ∧
      ∀ output, Output w baseline patchDir output (filesAt v b) →
        ((∃ result x, Disk.on w (patch d baseline patchDir output) = (.ok result, x)) ↔
          ∀ f q, (f, q) ∈ ps →
            ∃ old new, v.readText (Path.join baseline f) = .ok old ∧ q.apply f old = .ok new) ∧
        ∀ result x, Disk.on w (patch d baseline patchDir output) = (.ok result, x) →
          ∃ o, canonical w output = .ok o ∧ x.find .item output = .ok (o, .dir) ∧
            filesAt x o = filesAt v b ∧
            (∀ f q, (f, q) ∈ ps → ∃ old new, v.readText (Path.join baseline f) = .ok old ∧
              q.apply f old = .ok new ∧ x.file? (o ++ Path.parts f) = some (Text.Utf8.encode new)) ∧
            ∀ f ∈ filesAt v b, (∀ q, (f, q) ∉ ps) →
              x.file? (o ++ Path.parts f) = v.file? (b ++ Path.parts f) := by
  obtain ⟨p, made, hdiffed⟩ := diff_eq_ok hv hn hc hb hself hbase h
  obtain ⟨ps, hload, hperm⟩ := hdiffed.loadPatches hv hn hc hd hl hp
  have hmem (e : Text × FilePatch) : e ∈ ps ↔ e ∈ made := hperm.mem_iff
  have hnodup : (ps.map (·.1)).Nodup :=
    (hperm.map _).nodup_iff.mpr (hdiffed.sublist.nodup (nodup_filesAt hv hn))
  have hplain (e : Text × FilePatch) (he : e ∈ ps) : Path.Plain e.1 :=
    ((mem_filesAt_iff hv hn).mp (hdiffed.mem_filesAt ((hmem e).mp he))).1
  have happlied (e : Text × FilePatch) (he : e ∈ ps) := hdiffed.applied_iff hv hn hb ((hmem e).mp he)
  have hw := hdiffed.stocked.sound
  obtain ⟨hnw, hlisted⟩ := hdiffed.listed hv hn
  refine ⟨ps, hload, hnodup, fun f q => by rw [hmem, hdiffed.mem], fun output ho => ?_⟩
  obtain ⟨u, hclear⟩ := ho.clear
  refine ⟨⟨?_, fun hall => ?_⟩, fun result x hx => ?_⟩
  · rintro ⟨result, x, hx⟩ f q hq
    obtain ⟨o, hpatched⟩ := hdiffed.patched hv hn hload hperm ho hx
    exact (happlied (f, q) hq).mp (hpatched.applied _ hq)
  · refine patch_total hw hnw hdiffed.baseline ho.apart hload hclear ho.self ho.baseline (fun f hf => ?_)
      fun e he => (happlied e he).mpr (hall e.1 e.2 he)
    rw [hlisted] at hf
    exact ⟨(hdiffed.file?_of_mem hv hn hb hf).1, ho.reaches f hf⟩
  · obtain ⟨o, hpatched⟩ := hdiffed.patched hv hn hload hperm ho hx
    refine ⟨o, hpatched.place, hpatched.stocked.find, (hpatched.filesAt_eq hw hnw).trans hlisted,
      fun f q hq => ?_, fun f hf hnone => ?_⟩
    · have hf := hdiffed.mem_filesAt ((hmem _).mp hq)
      obtain ⟨-, old, hold, hfile⟩ := hdiffed.file?_of_mem hv hn hb hf
      obtain ⟨old', new, hold', happly, hnew⟩ :=
        hpatched.file?_of_mem (nodup_steps hnodup fun e he => spelled_plain (hplain e he)) hq
      rw [(hplain _ hq).steps] at hold' hnew
      rw [hdiffed.kept, hfile, Option.some.injEq] at hold'
      obtain rfl := encode_injective hold'
      exact ⟨old, new, hold, happly, hnew⟩
    · rw [hpatched.file?_of_none hw hnw (Path.parts_ne_nil f), hdiffed.kept]
      intro e he heq
      rw [(hplain e he).steps] at heq
      obtain rfl := parts_injective heq
      exact hnone e.2 he

/-- Two versions of a tree, a directory for patches, and a file. -/
def versions : Volume :=
  { Volume.empty with items :=
    [([['b']], .dir), ([['b'], ['f']], .file [49, 10]), ([['m']], .dir), ([['m'], ['f']], .file [50, 10]),
     ([['p']], .dir), ([['o']], .file [])] }

/-- The two versions with a patch. -/
def versionsWith (q : FilePatch) : Volume :=
  (versions.clear [['p']]).put [['p'], "f.patch".toList] (.file (Text.Utf8.encode (FilePatch.print [q])))

theorem filesAt_versions : filesAt versions [['b']] = [['f']] := by decide +kernel

theorem read_versions : versions.readText (Path.join ['b'] ['f']) = .ok "1\n".toList ∧
    versions.readText (Path.join ['m'] ['f']) = .ok "2\n".toList := by decide +kernel

theorem differs_versions {q : FilePatch} : Differs {} versions ['b'] ['m'] ['f'] q ↔
    FilePatch.ofTexts? "patches/".toList ['f'] "1\n".toList "2\n".toList = some q := by
  obtain ⟨hold, hnew⟩ := read_versions
  rw [Differs, hold, hnew]
  constructor
  · rintro ⟨old, new, ho, hn, h⟩
    cases ho
    cases hn
    exact h
  · exact fun h => ⟨_, _, rfl, rfl, h⟩

section
variable {q : FilePatch}
  (hq : FilePatch.ofTexts? "patches/".toList ['f'] "1\n".toList "2\n".toList = some q)
include hq

theorem diffFiles_versions :
    diffFiles {} versions ['b'] ['m'] (filesAt versions [['b']]) = .ok [(['f'], q)] := by
  obtain ⟨hold, hnew⟩ := read_versions
  have hresolve : Path.resolve? ['m'] ['f'] = some (Path.join ['m'] ['f']) := rfl
  simp only [filesAt_versions, diffFiles, diffFile, hresolve, hold, hnew, hq]
  rfl

theorem diff_versions :
    Disk.on versions (diff {} ['b'] ['m'] ['p']) = (.ok ⟨["f.patch".toList], 0⟩, versionsWith q) := by
  have hclear : Disk.on versions (clearDir ['p']) = (.ok (), versions.clear [['p']]) := clearDir_of_find rfl
  have hrun :=
    on_diff (by decide +kernel) rfl (by decide +kernel) (by decide +kernel) (diffFiles_versions hq) hclear
  have hparent : Path.parent? (Path.join ['p'] (patchFileName "patch".toList ['f'])) = some ['p'] := by
    decide +kernel
  have hmake : Disk.on (versions.clear [['p']]) (Disk.createDirAll ['p']) =
      (.ok (), versions.clear [['p']]) := Disk.makeDirs_of_find rfl
  have hwrite : Disk.on (versions.clear [['p']]) (Disk.write (Path.join ['p'] (patchFileName "patch".toList ['f']))
      (Text.Utf8.encode (FilePatch.print [q]))) = (.ok (), versionsWith q) := rfl
  rw [filesAt_versions] at hrun
  exact hrun.trans (Disk.on_bind_of_ok (on_writeFiles_singleton hparent hmake hwrite))

end

theorem sound_versions : versions.Sound := ⟨by decide, by decide, by decide⟩

theorem named_versions : Named versions [['b']] := (named_of_items (by decide)).below _

theorem loadable_versions : Loadable versions := loadable_of_items (by simp [versions]; decide)

theorem leaves_versions : Leaves versions ['p'] ['p'] ∧ Leaves versions ['p'] ['b'] :=
  ⟨leaves_of_isDir (by decide +kernel), leaves_of_isDir (by decide +kernel)⟩

theorem printable_versions (f : Text) (hf : f ∈ filesAt versions [['b']]) :
    Header.Printable f ∧ Header.Printable ("patches/".toList ++ f) := by
  rw [filesAt_versions] at hf
  revert f
  decide

theorem applies_versions {f : Text} {q : FilePatch} (hf : f ∈ filesAt versions [['b']])
    (h : Differs {} versions ['b'] ['m'] f q) :
    ∃ old new, versions.readText (Path.join ['b'] f) = .ok old ∧ q.apply f old = .ok new := by
  obtain ⟨r, hr, happly⟩ := exists_ofTexts "patches/".toList ['f'] (by decide : "1\n".toList ≠ "2\n".toList)
  rw [filesAt_versions] at hf
  obtain rfl := List.mem_singleton.mp hf
  obtain rfl := Option.some.inj (hr.symm.trans (differs_versions.mp h))
  exact ⟨_, _, read_versions.1, happly _⟩

theorem patch_of_diff_versions : versions.Sound ∧ Named versions [['b']] ∧ Loadable versions ∧
    ({} : Config).validate = .ok () ∧ ({} : Config).beginnings = [] ∧
    versions.find .item ['b'] = .ok ([['b']], .dir) ∧ Leaves versions ['p'] ['p'] ∧ Leaves versions ['p'] ['b'] ∧
    (∀ f ∈ filesAt versions [['b']], Header.Printable f ∧ Header.Printable ("patches/".toList ++ f)) ∧
    ∃ w, Disk.on versions (diff {} ['b'] ['m'] ['p']) = (.ok ⟨["f.patch".toList], 0⟩, w) ∧
      Output w ['b'] ['p'] ['x'] (filesAt versions [['b']]) ∧
      ∃ result x, Disk.on w (patch {} ['b'] ['p'] ['x']) = (.ok result, x) ∧
        x.find .item ['x'] = .ok ([['x']], .dir) ∧ filesAt x [['x']] = [['f']] ∧
        x.file? [['x'], ['f']] = some (Text.Utf8.encode "2\n".toList) := by
  obtain ⟨q, hq, happly⟩ := exists_ofTexts "patches/".toList ['f'] (by decide : "1\n".toList ≠ "2\n".toList)
  obtain ⟨hself, hbase⟩ := leaves_versions
  have houtput : Output (versionsWith q) ['b'] ['p'] ['x'] (filesAt versions [['b']]) := by
    refine ⟨rfl, ⟨_, rfl⟩, leaves_of_isDir rfl, leaves_of_isDir rfl, ?_⟩
    rw [filesAt_versions]
    decide
  have hd : ({} : Config).beginnings = [] := rfl
  obtain ⟨ps, -, -, hmem, hpatch⟩ := patch_of_diff sound_versions named_versions loadable_versions rfl
    hd rfl hself hbase printable_versions (diff_versions hq)
  obtain ⟨hiff, hfiles⟩ := hpatch ['x'] houtput
  have hthere : (['f'], q) ∈ ps := (hmem _ _).mpr ⟨filesAt_versions ▸ List.mem_cons_self, differs_versions.mpr hq⟩
  have happlies (f : Text) (r : FilePatch) (hr : (f, r) ∈ ps) :
      ∃ old new, versions.readText (Path.join ['b'] f) = .ok old ∧ r.apply f old = .ok new := by
    obtain ⟨hf, hdiffers⟩ := (hmem f r).mp hr
    exact applies_versions hf hdiffers
  obtain ⟨result, x, hrun⟩ := hiff.mpr happlies
  obtain ⟨o, ho, hfind, hlisted, hpatched, -⟩ := hfiles result x hrun
  obtain rfl : [['x']] = o := Except.ok.inj ho
  obtain ⟨old, new, hread, hnew, hfile⟩ := hpatched _ _ hthere
  obtain rfl := Except.ok.inj (read_versions.1.symm.trans hread)
  obtain rfl := Except.ok.inj ((happly _).symm.trans hnew)
  exact ⟨sound_versions, named_versions, loadable_versions, rfl, rfl, rfl, hself, hbase, printable_versions,
    versionsWith q, diff_versions hq, houtput, result, x, hrun, hfind, hlisted.trans filesAt_versions, hfile⟩

/-- Two empty trees, and a directory for patches with another one inside. -/
def nested : Volume :=
  { Volume.empty with items := [([['b']], .dir), ([['m']], .dir), ([['p']], .dir), ([['p'], ['x']], .dir)] }

/-- An output that is a file cannot be cleared, although every patch applies.  Paths of the baseline and of
the patches that run through the patch directory lead nowhere when a diff has cleared it. -/
theorem patch_of_diff_stops : versions.Sound ∧ nested.Sound ∧ ({} : Config).validate = .ok () ∧
    (∃ w ps, Disk.on versions (diff {} ['b'] ['m'] ['p']) = (.ok ⟨["f.patch".toList], 0⟩, w) ∧
      Disk.on w (loadPatches {} ['p']) = (.ok ps, w) ∧
      (∀ f q, (f, q) ∈ ps →
        ∃ old new, versions.readText (Path.join ['b'] f) = .ok old ∧ q.apply f old = .ok new) ∧
      (Disk.on w (ensureDisjoint ['o'] [['b'], ['p']])).1 = .ok () ∧
      Disk.on w (patch {} ['b'] ['p'] ['o']) = (.error (.io (.os .notDirectory)), w)) ∧
    ((Disk.on nested (diff {} "p/x/../../b".toList ['m'] ['p'])).1 = .ok ⟨[], 0⟩ ∧
      (Disk.on (Disk.on nested (diff {} "p/x/../../b".toList ['m'] ['p'])).2
        (patch {} "p/x/../../b".toList ['p'] ['o'])).1 = .error (.notFound "p/x/../../b".toList)) ∧
    (Disk.on nested (diff {} ['b'] ['m'] "p/x/../../p".toList)).1 = .ok ⟨[], 0⟩ ∧
      (Disk.on (Disk.on nested (diff {} ['b'] ['m'] "p/x/../../p".toList)).2
        (loadPatches {} "p/x/../../p".toList)).1 = .error (.notFound "p/x/../../p".toList) := by
  have hnested : nested.Sound := ⟨by decide, by decide, by decide⟩
  refine ⟨sound_versions, hnested, rfl, ?_, by decide +kernel, by decide +kernel⟩
  obtain ⟨q, hq, -⟩ := exists_ofTexts "patches/".toList ['f'] (by decide : "1\n".toList ≠ "2\n".toList)
  obtain ⟨hself, hbase⟩ := leaves_versions
  have hd : ({} : Config).beginnings = [] := rfl
  obtain ⟨p, made, hdiffed⟩ := diff_eq_ok sound_versions named_versions rfl rfl hself hbase (diff_versions hq)
  obtain ⟨ps, hload, hperm⟩ := hdiffed.loadPatches sound_versions named_versions rfl hd loadable_versions
    printable_versions
  have hdir : Disk.on (versionsWith q) (Disk.requireDir ['b']) = (.ok (), versionsWith q) := rfl
  have hapart : Disk.on (versionsWith q) (ensureDisjoint ['o'] [['b'], ['p']]) = (.ok (), versionsWith q) := rfl
  have hclear : Disk.on (versionsWith q) (clearDir ['o']) =
    (.error (.io (.os .notDirectory)), versionsWith q) := rfl
  refine ⟨versionsWith q, ps, diff_versions hq, hload, fun f r hr => ?_, rfl, ?_⟩
  · obtain ⟨hf, hdiffers⟩ := (hdiffed.mem f r).mp (hperm.mem_iff.mp hr)
    exact applies_versions hf hdiffers
  · rw [patch, Disk.on_bind_of_ok hdir, Disk.on_bind_of_ok hapart, Disk.on_bind_of_ok hload, Disk.on_bind, hclear]

end Patchwork.Tree
