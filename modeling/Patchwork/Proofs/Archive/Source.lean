import Patchwork.Proofs.Archive.Extraction
import Patchwork.Proofs.Volume.Replaced

/-!
# The archive that is extracted

Extracting clears a directory while the archive is still to be read, and then writes below the directory.  The
archive stays as it is unless it is in the directory, or a link there leads to it.
-/
namespace Patchwork

open Handle (load)
open Volume
open Patchwork.Tree (Stocked)

variable {u v w : Volume} {p s : Place} {c : Bytes} {f : FilterSet} {dir source : Text} {ε α β : Type}

/-! ### Programs that make directories and files -/

namespace Disk

/-- Directories and links stay what they are, and files stay files, whatever comes of the program. -/
def Fills (d : Disk ε α) : Prop :=
  ∀ v, v.Sound → (on v d).2.Sound ∧ v.Keeps (on v d).2 ∧ (on v d).2.here = v.here

theorem fills_ofExcept (r : Except ε α) : Fills (ofExcept r) := fun v hv => ⟨hv, .refl v, rfl⟩

theorem Fills.bind {d : Disk ε α} {f : α → Disk ε β} (hd : Fills d) (hf : ∀ a, Fills (f a)) :
    Fills (d >>= f) := by
  intro v hv
  have hfirst := hd v hv
  rw [on_bind]
  split
  · next a u hrun =>
    rw [hrun] at hfirst
    obtain ⟨hu, hkeeps, hhere⟩ := hfirst
    obtain ⟨hw, hkeeps', hhere'⟩ := hf a u hu
    exact ⟨hw, hkeeps.trans hkeeps', hhere'.trans hhere⟩
  · next e u hrun => rwa [hrun] at hfirst

theorem Fills.io {d : Disk IoError α} (hd : Fills d) : Fills (Disk.io d) := by
  intro v hv
  rw [on_io]
  exact hd v hv

theorem fills_createDirAll (path : Text) : Fills (createDirAll path) := fun v hv =>
  have hg := grows_createDirAll path v
  ⟨hg.sound hv, hg.keeps, hg.here⟩

theorem fills_write (path : Text) (data : Bytes) : Fills (Disk.write path data) := by
  intro v hv
  simp only [on, ExceptT.run, Disk.write, change]
  split
  · next w hw =>
    obtain ⟨p, hl, hdir, rfl⟩ := write_eq_ok hw
    have hlead := (locate_eq_ok_iff.mp hl).2
    have hstart := locate_dir_start hl
    have hlink : ∀ t, v.item? p ≠ some (.link t) :=
      hlead.not_link hv (by decide) fun t ht => by rw [hstart] at ht; cases ht
    have hne : p ≠ [] := fun he => hdir (by rw [he]; rfl)
    exact ⟨hv.put hne (hv.locate_above hl) hdir _, keeps_put hne hdir hlink, rfl⟩
  · exact ⟨hv, .refl v, rfl⟩

end Disk

theorem Archive.fills_layOut (archive dir : Text) (named : List (Text × Except Fault Bytes)) :
    Disk.Fills (Archive.layOut archive dir named) := by
  have hfile (target : Text) (data : Bytes) : Disk.Fills (Archive.layFile target data) := by
    unfold Archive.layFile
    split
    · exact (Disk.fills_createDirAll _).io.bind fun _ => (Disk.fills_write _ _).io
    · exact (Disk.fills_write _ _).io
  induction named with
  | nil => exact Disk.fills_ofExcept (.ok ())
  | cons e named ih =>
    obtain ⟨path, data⟩ := e
    rw [Archive.layOut]
    split
    · exact Disk.fills_ofExcept (.error _)
    · exact (Disk.fills_ofExcept data).bind fun _ => (hfile _ _).bind fun _ => ih

/-! ### What is out of reach -/

/-- What is written below a directory once it is cleared does not reach a place: the directory is found, it does
not hold the place, and it holds no links. -/
def Tree.OutOfReach (v : Volume) (dir : Text) (s : Place) : Prop :=
  ∀ w, Disk.on v (clearDir dir) = (.ok (), w) →
    ∃ p, w.find .item dir = .ok (p, .dir) ∧ ¬ p <+: s ∧ ∀ q t, w.item? (p ++ q) ≠ some (.link t)

/-- Clearing a directory takes no file away that is out of reach. -/
theorem Tree.OutOfReach.clearDir {r : Except Fault Unit} (h : OutOfReach v dir s)
    (hs : v.item? s = some (.file c)) (hrun : Disk.on v (clearDir dir) = (r, w)) :
    w.item? s = some (.file c) := by
  rcases clearDir_cases hrun with ⟨p, hf, -, rfl⟩ | ⟨-, rfl⟩
  · obtain ⟨q, hq, hout, -⟩ := h _ (clearDir_of_find hf)
    have hsame := find_of_clear hq
    rw [hf] at hsame
    cases hsame
    rw [item?_clear, if_neg fun hin => hout hin.1, hs]
  · exact (grows_made v dir).kept s _ hs

/-- The file of the archive is where it was, whatever comes of extracting it, and is found at its path as before if
clearing the directory does not cut the path. -/
theorem Archive.extract_spares {h : Handle} {r : Except Fault CopyReport} (hv : v.Sound)
    (hf : v.find .item source = .ok (s, .file c)) (hfile : h.file? = some (v.opened s))
    (hreach : Tree.OutOfReach v dir s) (hrun : Disk.on v (extract h dir f) = (r, w)) :
    w.item? s = some (.file c) ∧
      ((∀ r u, Disk.on v (Tree.clearDir dir) = (r, u) → u.find .item source = .ok (s, .file c)) →
        w.find .item source = .ok (s, .file c)) := by
  have hs := (find_eq_ok_iff.mp hf).2
  rcases Disk.on_bind_cases hrun with ⟨e, hclear, -⟩ | ⟨⟨⟩, u, hclear, hrun⟩
  · exact ⟨hreach.clearDir hs hclear, fun hway => hway _ w hclear⟩
  obtain ⟨p, hp, hout, hlink⟩ := hreach u hclear
  have hu := Tree.sound_clearDir hv hclear
  have hstocked : Stocked u dir p fun q => u.file? (p ++ q) := ⟨hu, hp, hlink, fun _ => rfl⟩
  have hlaid := extractEach_eq_layOut hstocked (.inr hout) hfile (h.selected f)
  generalize (h.selected f).map (fun path => (path, h.read u path)) = named at hlaid
  obtain ⟨r', hmake⟩ : ∃ r', Disk.on u (layOut h.path dir named) = (r', w) := by
    rw [← hlaid]
    rcases Disk.on_bind_cases hrun with ⟨e, hmake, -⟩ | ⟨⟨⟩, x, hmake, hrun⟩
    · exact ⟨_, hmake⟩
    · obtain rfl : x = w := (Prod.mk.inj hrun).2
      exact ⟨_, hmake⟩
  have hfills := fills_layOut h.path dir named u hu
  rw [hmake] at hfills
  obtain ⟨-, hkeeps, hhere⟩ := hfills
  obtain ⟨-, hconfined⟩ := (stays_layOut h.path named).confined hstocked hmake
  have hitem : w.item? s = some (.file c) := by rw [hconfined s hout, hreach.clearDir hs hclear]
  refine ⟨hitem, fun hway => ?_⟩
  obtain ⟨hl, -⟩ := find_eq_ok_iff.mp (hway _ u hclear)
  obtain ⟨husable, hlead⟩ := locate_eq_ok_iff.mp hl
  refine find_eq_ok_iff.mpr ⟨locate_eq_ok_iff.mpr ⟨husable, ?_⟩, hitem⟩
  rw [hhere]
  exact hlead.keep hkeeps

theorem Archive.extractAt_spares {r : Except Fault CopyReport} (hv : v.Sound)
    (hf : v.find .item source = .ok (s, .file c)) (hreach : Tree.OutOfReach v dir s)
    (hrun : Disk.on v (extractAt source dir f) = (r, w)) :
    w.item? s = some (.file c) ∧
      ((∀ r u, Disk.on v (Tree.clearDir dir) = (r, u) → u.find .item source = .ok (s, .file c)) →
        w.find .item source = .ok (s, .file c)) := by
  rcases Disk.on_bind_cases hrun with ⟨e, hopen, -⟩ | ⟨h, x, hopen, hrun⟩
  · rw [on_openAt_false] at hopen
    obtain rfl : v = w := (Prod.mk.inj hopen).2
    exact ⟨(find_eq_ok_iff.mp hf).2, fun _ => hf⟩
  · rw [on_openAt_false] at hopen
    obtain ⟨hload, rfl⟩ := Prod.mk.inj hopen
    split at hload
    · obtain ⟨p, d, es, hp, -, rfl⟩ := load_eq_ok hload
      rw [hf] at hp
      cases hp
      exact extract_spares hv hf rfl hreach hrun
    · cases hload

end Patchwork
