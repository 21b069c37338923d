import Patchwork.Proofs.Tree.Emptying
import Patchwork.Proofs.Tree.Patching

/-!
# The inputs of a run are kept

Neither a diff nor a patch changes anything in the directories that it reads, whether it succeeds or fails, as
long as the directory that it clears is still found at its path once it has been cleared.
-/
namespace Patchwork.Tree

open Volume

variable {α : Type} {u v w : Volume} {p b : Place} {c : Config} {dir name base path : Text} {files : List Text}

theorem Stays.parent {make : Text → Disk Fault Unit} {rest : Disk Fault α} (hn : Path.Plain name)
    (hmake : ∀ above, Stays dir p (Disk.createDirAll above) → Stays dir p (make above))
    (hrest : Stays dir p rest) : Stays dir p (match Path.parent? (Path.join dir name) with
      | some above => make above >>= fun _ => rest
      | none => rest) := by
  split
  · next above habove => exact (hmake above (stays_parent hn habove)).bind fun _ => hrest
  · exact hrest

theorem stays_writeFiles {named : List (Text × Text)} (hn : ∀ e ∈ named, Path.Plain e.1) :
    Stays dir p (writeFiles dir named) := by
  induction named with
  | nil => exact stays_ask fun _ => .ok ()
  | cons e named ih =>
    obtain ⟨name, text⟩ := e
    have hname : Path.Plain name := hn _ List.mem_cons_self
    refine Stays.parent hname (fun above habove => habove.naming above) ?_
    exact ((stays_write hname _).naming _).bind fun _ => ih fun e he => hn e (List.mem_cons_of_mem _ he)

theorem stays_copyFiles {fs : List Text} (hn : ∀ f ∈ fs, Path.Plain f) :
    Stays dir p (copyFiles base dir fs) := by
  induction fs with
  | nil => exact stays_ask fun _ => .ok ()
  | cons f fs ih =>
    have hf := hn f List.mem_cons_self
    refine Stays.parent hf (fun above habove => habove.io) ?_
    refine Stays.bind (Stays.io ?_) fun _ => ih fun g hg => hn g (List.mem_cons_of_mem _ hg)
    exact (stays_ask _).bind fun _ => (stays_write hf _).bind fun _ => (stays_ask _).bind fun _ =>
      stays_write hf _

theorem stays_patchFile (target : Text) (q : FilePatch) : Stays dir p (patchFile base dir target q) := by
  unfold patchFile
  split
  · next hsource hdest =>
    obtain ⟨hplain, -, hresolve⟩ := Path.resolve?_eq_some hdest
    rw [hresolve] at hdest
    cases hdest
    exact ((stays_ask _).naming _).bind fun _ => (stays_ask _).bind fun _ => (stays_write hplain _).naming _
  · exact stays_ask fun _ => .error (Fault.malformedPatch target .leavesTree)

theorem stays_patchFiles (ps : PatchSet) : Stays dir p (patchFiles base dir ps) := by
  induction ps with
  | nil => exact stays_ask fun _ => .ok ()
  | cons e ps ih => exact (stays_patchFile e.1 e.2).bind fun _ => ih

theorem Named.clearDir (hn : Named v []) (hclear : Disk.on v (clearDir dir) = (.ok (), u)) : Named u [] :=
  fun q c hc => hn q c (file?_of_clearDir hclear hc)

/-- Whatever is done with a directory once it has been cleared, nothing changes apart from it. -/
theorem Leaves.kept (hl : Leaves v dir dir) (hv : v.Sound) (hc : canonical v dir = .ok p)
    (hclear : Disk.on v (Tree.clearDir dir) = (.ok (), u))
    (hw : ∀ files, Stocked u dir p files → Confined p u w) (ha : Apart p b) (q : Place) :
    w.item? (b ++ q) = v.item? (b ++ q) := by
  obtain ⟨hcleared, -⟩ := hl.cleared hv hc hclear
  rw [hw _ hcleared.stocked _ (ha q), spared_below (spares_clearDir hv hc hclear).1 ha]

/-- Nothing is made, changed or taken away in the directory that a path names. -/
def Kept (v w : Volume) (path : Text) : Prop :=
  ∀ b, canonical v path = .ok b → ∀ q, w.item? (b ++ q) = v.item? (b ++ q)

theorem Kept.refl (v : Volume) (path : Text) : Kept v v path := fun _ _ _ => rfl

theorem kept_of_apart {kept : List Text}
    (hkept : ∀ other ∈ kept, ∃ q, canonical v other = .ok q ∧ apart p q = true)
    (h : ∀ b, Apart p b → ∀ q, w.item? (b ++ q) = v.item? (b ++ q)) : ∀ other ∈ kept, Kept v w other :=
  fun other hother b hb => h b (apart_of_canonical hb (hkept other hother))

theorem diff_kept {baseline modified : Text} {r : Except Fault DiffReport} (hv : v.Sound) (hn : Named v [])
    (hc : c.validate = .ok ()) (hl : Leaves v dir dir)
    (h : Disk.on v (diff c baseline modified dir) = (r, w)) :
    ∀ input ∈ [baseline, modified], Kept v w input := by
  cases diff_cases h with
  | refused e hw => exact fun input _ => hw ▸ .refl v input
  | uncleared hp hclear =>
    exact kept_of_apart hp.apart fun b => spared_below (spares_clearDir hv hp.place hclear).1
  | @cleared b p ps u r hp hclear hwrite =>
    obtain ⟨hext, hslash⟩ := Config.validate_eq_ok hc
    have hplain (f : Text) (hf : f ∈ filesAt v b) : Path.Plain f :=
      ((mem_filesAt_iff hv (hn.below b)).mp hf).1
    have hsub := (diffFiles_eq_ok hplain hp.patches).1
    have hnamed : ∀ e ∈ patchTexts c ps, Path.Plain e.1 := List.forall_mem_map.mpr fun e he =>
      (hplain e.1 (hsub.subset (List.mem_map_of_mem he))).patchFileName hext hslash
    exact kept_of_apart hp.apart fun b => hl.kept hv hp.place hclear fun files hs =>
      ((stays_writeFiles hnamed).confined hs hwrite).2

/-- Copying a tree stays inside the directory that it is copied to. -/
theorem confined_copyTree {r : Except Fault (List Text)} {stock : Place → Option Bytes}
    (hs : Stocked u dir p stock) (hn : Named u []) (hrun : Disk.on u (copyTree base dir) = (r, w)) :
    (∃ after, Stocked w dir p after) ∧ Confined p u w := by
  rcases copyTree_cases hrun with ⟨e, -, rfl⟩ | ⟨b, r', -, hcopy, -⟩
  · exact ⟨⟨stock, hs⟩, .refl p _⟩
  · refine (stays_copyFiles fun f hf => ?_).confined hs hcopy
    exact ((mem_filesAt_iff hs.sound (hn.below b)).mp hf).1

theorem patch_kept {baseline patchDir : Text} {r : Except Fault PatchReport} (hv : v.Sound)
    (hn : Named v []) (hl : Leaves v dir dir)
    (h : Disk.on v (patch c baseline patchDir dir) = (r, w)) :
    ∀ input ∈ [baseline, patchDir], Kept v w input := by
  cases patch_cases h with
  | refused e hw => exact fun input _ => hw ▸ .refl v input
  | uncleared hp hclear =>
    exact kept_of_apart hp.apart fun b => spared_below (spares_clearDir hv hp.place hclear).1
  | uncopied hp hclear hcopy =>
    exact kept_of_apart hp.apart fun b => hl.kept hv hp.place hclear fun files hs =>
      (confined_copyTree hs (hn.clearDir hclear) hcopy).2
  | copied hp hclear hcopy hpatch =>
    refine kept_of_apart hp.apart fun b => hl.kept hv hp.place hclear fun files hs => ?_
    obtain ⟨⟨after, hafter⟩, hcopied⟩ := confined_copyTree hs (hn.clearDir hclear) hcopy
    exact hcopied.trans ((stays_patchFiles _).confined hafter hpatch).2

/-- Whatever comes of a diff or a patch, the directories that it reads are kept, if the directory that it
clears is found at its path afterwards. -/
theorem inputs_kept {baseline other : Text} (hv : v.Sound) (hn : Named v []) (hc : c.validate = .ok ())
    (hl : Leaves v dir dir) :
    (∀ input ∈ [baseline, other], Kept v (Disk.on v (diff c baseline other dir)).2 input) ∧
    ∀ input ∈ [baseline, other], Kept v (Disk.on v (patch c baseline other dir)).2 input :=
  ⟨diff_kept hv hn hc hl Prod.mk.eta.symm, patch_kept hv hn hl Prod.mk.eta.symm⟩

/-- Two versions of a tree, a directory for patches, and a link to the newer version. -/
def twoTrees : Volume :=
  { Volume.empty with items :=
    [([['b']], .dir), ([['b'], ['f']], .file [49, 10]), ([['m']], .dir), ([['m'], ['f']], .file [50, 10]),
     ([['p']], .dir), ([['p'], ['o']], .file [120]), ([['l']], .link ['m'])] }

theorem inputs_kept_twoTrees : twoTrees.Sound ∧ Named twoTrees [] ∧ ({} : Config).validate = .ok () ∧
    Leaves twoTrees "l/../p/.".toList "l/../p/.".toList ∧
    (∀ input ∈ [['b'], "m/../l".toList],
      Kept twoTrees (Disk.on twoTrees (diff {} ['b'] "m/../l".toList "l/../p/.".toList)).2 input) ∧
    ∀ input ∈ [['b'], "m/../l".toList],
      Kept twoTrees (Disk.on twoTrees (patch {} ['b'] "m/../l".toList "l/../p/.".toList)).2 input := by
  have hv : twoTrees.Sound := ⟨by decide, by decide, by decide⟩
  have hn : Named twoTrees [] := named_of_items (by decide)
  have hl : Leaves twoTrees "l/../p/.".toList "l/../p/.".toList := leaves_of_isDir (by decide +kernel)
  exact ⟨hv, hn, rfl, hl, inputs_kept hv hn rfl hl⟩

/-- A directory `B`, an empty one, and a path to `B` that runs through a link inside `y/B`. -/
def looped : Volume :=
  { Volume.empty with items :=
    [([['y']], .dir), ([['y'], ['B']], .dir), ([['y'], ['a']], .dir), ([['y'], ['a'], ['b']], .dir),
     ([['y'], ['a'], ['b'], ['c']], .dir), ([['y'], ['B'], ['l']], .link "../a/b/c".toList),
     ([['B']], .dir), ([['B'], ['f']], .file [49, 10]), ([['p']], .dir)] }

/-- The path of the output leads to the baseline once the output has been cleared. -/
theorem patch_empties_baseline : looped.Sound ∧ ({} : Config).validate = .ok () ∧
    (Disk.on looped (patch {} ['B'] ['p'] "y/B/l/../../../B".toList)).1 = .ok ⟨1, 0⟩ ∧
    ¬ Kept looped (Disk.on looped (patch {} ['B'] ['p'] "y/B/l/../../../B".toList)).2 ['B'] := by
  refine ⟨⟨by decide, by decide, by decide⟩, rfl, by decide +kernel, fun hkept => ?_⟩
  have hfile := hkept [['B']] rfl [['f']]
  revert hfile
  decide +kernel

end Patchwork.Tree
