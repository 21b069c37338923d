import Patchwork.Proofs.Patch.RoundTrip
import Patchwork.Proofs.Tree.Inputs
import Patchwork.Proofs.Tree.Room

/-!
# A failed diff keeps the patches

Once the patch directory has been cleared nothing is left that can fail, if there is room in it for the new
patches.  So a diff that fails has not cleared it.
-/
namespace Patchwork.Tree

open Volume

variable {v w u : Volume} {b p : Place} {c : Config} {baseline modified patchDir dir : Text}
  {ps : List (Text × FilePatch)}

theorem Leaves.filled (hl : Leaves v dir dir) (hv : v.Sound) (hc : canonical v dir = .ok p)
    (hclear : Disk.on v (clearDir dir) = (.ok (), u)) : Filled u dir p fun _ => none := by
  obtain ⟨hcleared, hempty⟩ := hl.cleared hv hc hclear
  refine ⟨hcleared.stocked, fun q hq hdir => ?_⟩
  rw [hempty q hq] at hdir
  cases hdir

/-- There is room in the patch directory for the patches of the files that differ: their paths are not too
long, and none of them is a directory on the way to another one. -/
structure Room (c : Config) (v : Volume) (baseline modified patchDir : Text) (b : Place) : Prop where
  reaches : ∀ f ∈ filesAt v b, ∀ q, Differs c v baseline modified f q →
    Reaches patchDir (patchFileName c.patchExtension f)
  clear : ∀ f ∈ filesAt v b, ∀ q, Differs c v baseline modified f q →
    ∀ g ∈ filesAt v b, ∀ r, Differs c v baseline modified g r →
      Path.parts (patchFileName c.patchExtension f) <+: Path.parts (patchFileName c.patchExtension g) → f = g

/-- The patches can be written once the patch directory has been cleared. -/
theorem Prepared.writeFiles_total (hp : Prepared c v baseline modified patchDir b p ps) (hv : v.Sound)
    (hn : Named v b) (hc : c.validate = .ok ()) (hl : Leaves v patchDir patchDir)
    (hroom : Room c v baseline modified patchDir b)
    (hclear : Disk.on v (clearDir patchDir) = (.ok (), u)) :
    ∃ w, Disk.on u (writeFiles patchDir (patchTexts c ps)) = (.ok (), w) := by
  obtain ⟨hext, hslash⟩ := Config.validate_eq_ok hc
  have hplain (f : Text) (hf : f ∈ filesAt v b) : Path.Plain f := ((mem_filesAt_iff hv hn).mp hf).1
  obtain ⟨-, -, hmem⟩ := diffFiles_eq_ok hplain hp.patches
  refine (hl.filled hv hp.place hclear).writeFiles_total (List.forall_mem_map.mpr fun e he => ?_)
    (List.forall_mem_map.mpr fun e he => ?_) (fun _ _ _ hr => nomatch hr)
    (List.forall_mem_map.mpr fun e he => List.forall_mem_map.mpr fun e' he' hpre => ?_)
  · exact (hplain e.1 ((hmem _ _).mp he).1).patchFileName hext hslash
  · obtain ⟨hf, hdiffers⟩ := (hmem e.1 e.2).mp he
    exact hroom.reaches e.1 hf e.2 hdiffers
  · obtain ⟨hf, hdiffers⟩ := (hmem e.1 e.2).mp he
    obtain ⟨hf', hdiffers'⟩ := (hmem e'.1 e'.2).mp he'
    exact congrArg (patchFileName c.patchExtension)
      (hroom.clear e.1 hf e.2 hdiffers e'.1 hf' e'.2 hdiffers' hpre)

end Patchwork.Tree
