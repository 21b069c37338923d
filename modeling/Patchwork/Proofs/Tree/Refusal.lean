import Patchwork.Proofs.Patch.Applying
import Patchwork.Proofs.Tree.Failing
import Patchwork.Proofs.Tree.Packing

/-!
# What a refused patch set costs

A patch set is refused for where its directory lies, for what its files hold, and for the files that its sections
are for.  All of this is found before the output is cleared, except that a section is for a path that leads out
of the tree.
-/
namespace Patchwork

variable {v w : Volume} {c : Config} {baseline patchDir output target path : Text}
  {ps : Tree.PatchSet} {e : Fault}

/-- Faults of a set of patches or of where its directory lies, and not of reading, writing or applying them. -/
def Fault.OfPatchSet : Fault → Prop
  | malformedPatch _ _ | duplicateTarget _ | config _ => True
  | _ => False

theorem Fault.OfVolume.not_ofPatchSet (h : e.OfVolume) : ¬ e.OfPatchSet := by
  cases e with
  | io | notFound => exact id
  | _ => cases h

/-- A patch fails to apply by a conflict alone. -/
theorem FilePatch.apply_eq_error {p : FilePatch} {label text : Text} (h : p.apply label text = .error e) :
    ∃ hunk line reason, e = .patchConflict label hunk line reason := by
  obtain ⟨before, -, -, -, line, reason, -, -, -, rfl⟩ := apply_eq_error_iff.mp h
  exact ⟨_, line, reason, rfl⟩

namespace Tree

open Disk

theorem failsAs_clearDir (dir : Text) : FailsAs (¬ ·.OfPatchSet) (clearDir dir) :=
  (ofVolume_clearDir dir).mono fun _ he => he.not_ofPatchSet

theorem failsAs_copyTree (source dir : Text) : FailsAs (¬ ·.OfPatchSet) (copyTree source dir) :=
  (ofVolume_copyTree source dir).mono fun _ he => he.not_ofPatchSet

/-- A fault of the patch set is only this once the output has been cleared: a path leads out of the tree. -/
def LeadsOut (baseline : Text) (ps : PatchSet) (e : Fault) : Prop :=
  e.OfPatchSet → ∃ target ∈ ps.map (·.1), Path.resolve? baseline target = none ∧
    e = .malformedPatch target .leavesTree

theorem LeadsOut.mono {qs : PatchSet} (h : LeadsOut baseline ps e) (hsub : ps ⊆ qs) : LeadsOut baseline qs e :=
  fun he =>
    let ⟨target, hmem, hnone, heq⟩ := h he
    ⟨target, List.map_subset _ hsub hmem, hnone, heq⟩

theorem failsAs_patchFile (baseline output target : Text) (p : FilePatch) :
    FailsAs (LeadsOut baseline [(target, p)]) (patchFile baseline output target p) := by
  have hvain (e : Fault) (he : e.OfVolume) : LeadsOut baseline [(target, p)] e :=
    fun h => absurd h he.not_ofPatchSet
  rw [patchFile]
  split
  · refine ((ofVolume_naming _ _).mono hvain).bind fun unpatched => ?_
    refine FailsAs.bind (failsAs_ofExcept fun e he => ?_) fun patched => (ofVolume_naming _ _).mono hvain
    obtain ⟨hunk, line, reason, rfl⟩ := FilePatch.apply_eq_error he
    exact False.elim
  · next hnone =>
    refine failsAs_ofExcept fun e he _ => ⟨target, List.mem_singleton_self _, ?_, (Except.error.inj he).symm⟩
    cases hsource : Path.resolve? baseline target with
    | none => rfl
    | some source =>
      obtain ⟨-, -, hresolves⟩ := Path.resolve?_eq_some hsource
      exact (hnone _ _ hsource (hresolves output)).elim

theorem failsAs_patchFiles (baseline output : Text) (ps : PatchSet) :
    FailsAs (LeadsOut baseline ps) (patchFiles baseline output ps) := by
  induction ps with
  | nil => exact failsAs_pure ()
  | cons entry ps ih =>
    refine FailsAs.bind ((failsAs_patchFile _ _ _ _).mono fun e he => he.mono ?_) fun _ =>
      ih.mono fun e he => he.mono (List.subset_cons_self _ _)
    exact List.cons_subset.mpr ⟨List.mem_cons_self, List.nil_subset _⟩

/-- A patch set that is refused costs nothing: the volume is as it was, unless the fault is that a section is for
a path that leads out of the tree. -/
theorem patch_refused (h : Disk.on v (patch c baseline patchDir output) = (.error e, w)) (he : e.OfPatchSet) :
    w = v ∨ ∃ ps target, Disk.on v (loadPatches c patchDir) = (.ok ps, v) ∧ target ∈ ps.map (·.1) ∧
      Path.resolve? baseline target = none ∧ e = .malformedPatch target .leavesTree := by
  generalize hr : Except.error e = r at h
  cases patch_cases h with
  | refused e' hw => exact .inl hw
  | uncleared hp hclear =>
    cases hr
    exact absurd he (failsAs_clearDir output _ _ _ hclear)
  | uncopied hp hclear hcopy =>
    cases hr
    exact absurd he (failsAs_copyTree baseline output _ _ _ hcopy)
  | @copied b o ps u u' fs r hp hclear hcopy hpatch =>
    cases r with
    | ok => cases hr
    | error e' =>
      cases hr
      obtain ⟨target, hmem, hnone, heq⟩ := failsAs_patchFiles baseline output ps _ _ _ hpatch he
      exact .inr ⟨ps, target, hp.loaded, hmem, hnone, heq⟩

/-- A tree, a patch file with some sections, and an output that an earlier run left. -/
def outputLeft (sections : List FilePatch) : Volume :=
  { Volume.empty with items :=
    [([['b']], .dir), ([['b'], ['f']], .file [49, 10]), ([['o']], .dir), ([['o'], ['f']], .file [50, 10]),
     ([['p']], .dir), ([['p'], ['s']], .file (Text.Utf8.encode (FilePatch.print sections)))] }

theorem packed_outputLeft {sections : List FilePatch} (hs : ∀ s ∈ sections, s.Printable) (hne : sections ≠ []) :
    Packed (outputLeft sections) ['p'] [['p']] sections := by
  have hp : filesAt (outputLeft sections) [['p']] = [['s']] := List.mergeSort_singleton _
  have hfind : (outputLeft sections).find .item (Path.join ['p'] ['s']) =
    .ok ([['p'], ['s']], .file (Text.Utf8.encode (FilePatch.print sections))) := rfl
  have hall := Sections.cons (parseFile_of_find hs hfind) hne .nil
  rw [List.append_nil] at hall
  exact ⟨rfl, hp ▸ hall⟩

/-- Two sections for one file. -/
def sameFile : List FilePatch := [changeTo ['f'] "3\n".toList, changeTo ['f'] "4\n".toList]

theorem patch_refused_sameFile : ∃ w,
    Disk.on (outputLeft sameFile) (patch {} ['b'] ['p'] ['o']) = (.error (.duplicateTarget ['f']), w) ∧
    (Fault.duplicateTarget ['f']).OfPatchSet ∧ w = outputLeft sameFile := by
  have hpacked : Packed (outputLeft sameFile) ['p'] [['p']] sameFile :=
    packed_outputLeft (by decide) (List.cons_ne_nil _ _)
  obtain ⟨w, hrun⟩ : ∃ w, Disk.on (outputLeft sameFile) (patch {} ['b'] ['p'] ['o']) =
      (.error (.duplicateTarget ['f']), w) := by
    rw [hpacked.on_patch fun o ho => by cases ho; rfl]
    exact ⟨_, rfl⟩
  rcases patch_refused hrun trivial with hsame | ⟨ps, target, -, -, -, heq⟩
  · exact ⟨w, hrun, trivial, hsame⟩
  · cases heq

/-- A section for a file beside the tree. -/
def outside : List FilePatch := [changeTo "../x".toList "3\n".toList]

/-- The path of the section leads out of the tree, and what the output held is lost for it. -/
theorem patch_refused_late : ∃ w,
    Disk.on (outputLeft outside) (patch {} ['b'] ['p'] ['o']) =
      (.error (.malformedPatch "../x".toList .leavesTree), w) ∧
    (outputLeft outside).file? [['o'], ['f']] = some [50, 10] ∧ w.file? [['o'], ['f']] = some [49, 10] := by
  have hpacked : Packed (outputLeft outside) ['p'] [['p']] outside :=
    packed_outputLeft (by decide) (List.cons_ne_nil _ _)
  have hb : ((outputLeft outside).clear [['o']]).find .item ['b'] = .ok ([['b']], .dir) := rfl
  have hfiles : filesAt ((outputLeft outside).clear [['o']]) [['b']] = [['f']] := List.mergeSort_singleton _
  have hcopy : Disk.on ((outputLeft outside).clear [['o']]) (copyTree ['b'] ['o']) =
      (.ok [['f']], ((outputLeft outside).clear [['o']]).put [['o'], ['f']] (.file [49, 10])) := by
    rw [copyTree, Disk.on_bind_of_ok (on_listFiles hb), hfiles]
    rfl
  refine ⟨_, ?_, rfl, (rfl : (((outputLeft outside).clear [['o']]).put [['o'], ['f']] (.file [49, 10])).file?
    [['o'], ['f']] = some [49, 10])⟩
  have hdir : Disk.on (outputLeft outside) (Disk.requireDir ['b']) = (.ok (), outputLeft outside) := rfl
  have hapart : Disk.on (outputLeft outside) (ensureDisjoint ['o'] [['b'], ['p']]) =
    (.ok (), outputLeft outside) := rfl
  have hload : Disk.on (outputLeft outside) (loadPatches {} ['p']) =
    (.ok (outside.map (aimed [])), outputLeft outside) := hpacked.on_loadPatches
  have ho : (outputLeft outside).find .item ['o'] = .ok ([['o']], .dir) := rfl
  rw [patch, Disk.on_bind_of_ok hdir, Disk.on_bind_of_ok hapart, Disk.on_bind_of_ok hload,
    Disk.on_bind_of_ok (clearDir_of_find ho), Disk.on_bind_of_ok hcopy]
  rfl

end Tree

end Patchwork
