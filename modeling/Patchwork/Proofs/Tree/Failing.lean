import Patchwork.Proofs.Volume.Programs
import Patchwork.Tree.Diff

/-!
# How programs fail

A program that is put together from others fails as they do.  Those that find, read and write what is on a volume
fail with faults of that kind, and with no others.
-/
namespace Patchwork

variable {α β ε : Type} {P Q : ε → Prop}

namespace Disk

/-- A program fails in a certain way, if it fails, wherever it is run. -/
def FailsAs (P : ε → Prop) (d : Disk ε α) : Prop := ∀ v e w, on v d = (.error e, w) → P e

theorem FailsAs.mono {d : Disk ε α} (h : FailsAs P d) (himp : ∀ e, P e → Q e) : FailsAs Q d :=
  fun v e w hrun => himp e (h v e w hrun)

theorem FailsAs.bind {d : Disk ε α} {f : α → Disk ε β} (hd : FailsAs P d)
    (hf : ∀ a, FailsAs P (f a)) : FailsAs P (d >>= f) := by
  intro v e w hrun
  rcases on_bind_eq_error hrun with hfail | ⟨a, u, -, hfail⟩
  · exact hd v e w hfail
  · exact hf a u e w hfail

theorem failsAs_ofExcept {r : Except ε α} (h : ∀ e, r = .error e → P e) : FailsAs P (ofExcept r) :=
  fun _ e _ hrun => h e (Prod.mk.inj hrun).1

theorem failsAs_ask {f : Volume → Except ε α} (h : ∀ v e, f v = .error e → P e) : FailsAs P (ask f) :=
  fun v e _ hrun => h v e (Prod.mk.inj hrun).1

theorem failsAs_pure (a : α) : FailsAs P (pure a : Disk ε α) := fun _ _ _ hrun => nomatch hrun

end Disk

/-- Faults of finding, reading and writing what is on a volume. -/
def Fault.OfVolume : Fault → Prop
  | io _ | notFound _ => True
  | _ => False

theorem Fault.ofVolume_ofIo (path : Text) (cause : IoError) : (Fault.ofIo path cause).OfVolume := by
  rw [Fault.ofIo]
  split <;> exact trivial

namespace Disk

theorem ofVolume_io (d : Disk IoError α) : FailsAs Fault.OfVolume (io d) := by
  intro v e w hrun
  rw [on_io] at hrun
  cases hd : (on v d).1 with
  | ok a =>
    rw [hd] at hrun
    cases hrun
  | error cause =>
    rw [hd] at hrun
    cases hrun
    exact trivial

theorem ofVolume_naming (path : Text) (d : Disk IoError α) : FailsAs Fault.OfVolume (naming path d) := by
  intro v e w hrun
  rw [on_naming] at hrun
  cases hd : (on v d).1 with
  | ok a =>
    rw [hd] at hrun
    cases hrun
  | error cause =>
    rw [hd] at hrun
    cases hrun
    exact Fault.ofVolume_ofIo path cause

end Disk

namespace Tree

open Disk

theorem ofVolume_clearDir (dir : Text) : FailsAs Fault.OfVolume (clearDir dir) := by
  intro v e w hrun
  simp only [Disk.on, ExceptT.run, clearDir] at hrun
  split at hrun
  · cases hrun
  · cases hrun
    exact trivial
  · exact ofVolume_io (createDirAll dir) v e w hrun

theorem ofVolume_listFiles (root : Text) : FailsAs Fault.OfVolume (listFiles root) :=
  failsAs_ask fun v e herr => by
    split at herr
    · cases herr
    · cases herr
      exact trivial

theorem ofVolume_copyFiles (source dir : Text) (files : List Text) :
    FailsAs Fault.OfVolume (copyFiles source dir files) := by
  induction files with
  | nil => exact failsAs_pure ()
  | cons file files ih =>
    have hrest : FailsAs Fault.OfVolume (do
        io (copyFile (Path.join source file) (Path.join dir file))
        copyFiles source dir files) := (ofVolume_io _).bind fun _ => ih
    rw [copyFiles]
    dsimp only
    split
    · exact (ofVolume_io _).bind fun _ => hrest
    · exact hrest

theorem ofVolume_copyTree (source dir : Text) : FailsAs Fault.OfVolume (copyTree source dir) :=
  (ofVolume_listFiles source).bind fun files => (ofVolume_copyFiles source dir files).bind fun _ => failsAs_pure files

end Tree

end Patchwork
