import Patchwork.Archive.Extract
import Patchwork.Proofs.Archive.Entries
import Patchwork.Proofs.Tree.Inputs

/-!
# Reading an archive while files are made

What is extracted from an archive is known before the first file is made: the file of the archive is out of
reach of what is made below a directory that has been cleared, even if it stood there.
-/
namespace Patchwork

open Volume
open Patchwork.Tree (Stays Stocked)

variable {u v w : Volume} {p : Place} {o : Opened} {c data : Bytes} {h : Handle} {α β : Type} {ε : Type}
  {archive dir target name path : Text} {files : Place → Option Bytes}

/-! ### The file of the archive -/

/-- A file that was opened is out of reach of what is done below a place: it was taken away, or stands
somewhere else. -/
def Aside (p : Place) (v : Volume) (o : Opened) : Prop := (v.lost? o).isSome ∨ ¬ p <+: o.place

theorem aside_of_empty (hreads : Reads v o c) (hp : v.item? p = some .dir)
    (hempty : ∀ q, q ≠ [] → v.item? (p ++ q) = none) : Aside p v o := by
  rcases hreads.holds with hlost | ⟨-, hi⟩
  · rw [Aside, hlost]
    exact .inl rfl
  · refine .inr ?_
    rintro ⟨q, hq⟩
    rw [← hq] at hi
    by_cases hnil : q = []
    · rw [hnil, List.append_nil, hp] at hi
      cases hi
    · rw [hempty q hnil] at hi
      cases hi

theorem Aside.keep (ha : Aside p v o) (hlost : w.lost = v.lost) (hc : Confined p v w) :
    Aside p w o ∧ w.contentOf o = v.contentOf o := by
  have hsame : w.lost? o = v.lost? o := by rw [lost?, lost?, hlost]
  refine ⟨by rwa [Aside, hsame], ?_⟩
  rcases ha with hgone | hout
  · obtain ⟨c, hc⟩ := Option.isSome_iff_exists.mp hgone
    have hcontent {x : Volume} (hx : x.lost? o = some c) : x.contentOf o = c := by
      obtain ⟨q, hq, rfl⟩ := Option.map_eq_some_iff.mp hx
      rw [contentOf, hq]
    rw [hcontent hc, hcontent (hsame.trans hc)]
  · rw [contentOf, contentOf, hlost, hc _ hout]

theorem read_congr (hbytes : h.bytes w = h.bytes v) (path : Text) : h.read w path = h.read v path := by
  unfold Handle.read Handle.entryOf
  rw [hbytes]

theorem bytes_of_file? (hfile : h.file? = some o) : h.bytes v = v.contentOf o := by
  rw [Handle.bytes, hfile]
  rfl

/-- Programs that take no file away. -/
def KeepsLost (d : Disk ε α) : Prop := ∀ v, (Disk.on v d).2.lost = v.lost

theorem KeepsLost.bind {d : Disk ε α} {f : α → Disk ε β} (hd : KeepsLost d) (hf : ∀ a, KeepsLost (f a)) :
    KeepsLost (d >>= f) := by
  intro v
  have hfirst := hd v
  rw [Disk.on_bind]
  split
  · next a u hrun =>
    rw [hrun] at hfirst
    exact (hf a u).trans hfirst
  · next e u hrun =>
    rw [hrun] at hfirst
    exact hfirst

theorem KeepsLost.io {d : Disk IoError α} (hd : KeepsLost d) : KeepsLost (Disk.io d) := by
  intro v
  rw [Disk.on_io]
  exact hd v

theorem keepsLost_createDirAll (path : Text) : KeepsLost (Disk.createDirAll path) :=
  fun v => (Disk.grows_createDirAll path v).lost

theorem keepsLost_write (path : Text) (data : Bytes) : KeepsLost (Disk.write path data) := by
  intro v
  simp only [Disk.on, ExceptT.run, Disk.write, Disk.change]
  split
  · next w hw =>
    unfold Volume.write at hw
    split at hw
    · split at hw
      · cases hw
      · cases hw
        rfl
    · cases hw
  · rfl

/-! ### Laying out -/

namespace Archive

/-- Makes a file, and the directories above it. -/
def layFile (target : Text) (data : Bytes) : Disk Fault Unit := do
  match Path.parent? target with
  | some above => Disk.io (Disk.createDirAll above)
  | none => pure ()
  Disk.io (Disk.write target data)

/-- Makes files below a directory of what was read from an archive, each under the path of its entry. -/
def layOut (archive dir : Text) : List (Text × Except Fault Bytes) → Disk Fault Unit
  | [] => pure ()
  | (path, data) :: rest => do
    match Path.resolve? dir path with
    | none => throw (.malformedArchive archive (.entryEscapes path))
    | some target =>
      let data ← Disk.ofExcept data
      layFile target data
      layOut archive dir rest

theorem layFile_bind (rest : Disk Fault α) : (layFile target data >>= fun _ => rest) =
    match Path.parent? target with
    | some above => Disk.io (Disk.createDirAll above) >>= fun _ =>
        Disk.io (Disk.write target data) >>= fun _ => rest
    | none => Disk.io (Disk.write target data) >>= fun _ => rest := by
  unfold layFile
  split
  · rw [bind_assoc]
  · rfl

theorem keepsLost_layFile (target : Text) (data : Bytes) : KeepsLost (layFile target data) := by
  unfold layFile
  split
  · exact (keepsLost_createDirAll _).io.bind fun _ => (keepsLost_write _ _).io
  · exact (keepsLost_write _ _).io

theorem stays_layFile (hn : Path.Plain name) (data : Bytes) :
    Stays dir p (layFile (Path.join dir name) data) :=
  Stays.parent hn (fun _ habove => habove.io) (Tree.stays_write hn data).io

theorem stays_layOut (archive : Text) (named : List (Text × Except Fault Bytes)) :
    Stays dir p (layOut archive dir named) := by
  induction named with
  | nil => exact Tree.stays_ask fun _ => .ok ()
  | cons e named ih =>
    obtain ⟨path, data⟩ := e
    rw [layOut]
    split
    · exact Tree.stays_ask fun _ => .error _
    · next target htarget =>
      obtain ⟨hplain, -, hresolve⟩ := Path.resolve?_eq_some htarget
      rw [hresolve] at htarget
      cases htarget
      exact (Tree.stays_ask fun _ => data).bind fun _ => (stays_layFile hplain _).bind fun _ => ih

/-- What is extracted is read as if all of it were read first. -/
theorem extractEach_eq_layOut (hs : Stocked u dir p files) (ha : Aside p u o) (hfile : h.file? = some o)
    (paths : List Text) : Disk.on u (extractEach h dir paths) =
      Disk.on u (layOut h.path dir (paths.map fun path => (path, h.read u path))) := by
  induction paths generalizing u files with
  | nil => rfl
  | cons path paths ih =>
    rw [extractEach, List.map_cons, layOut]
    cases htarget : Path.resolve? dir path with
    | none => rfl
    | some target =>
      obtain ⟨hplain, -, hresolve⟩ := Path.resolve?_eq_some htarget
      rw [hresolve] at htarget
      cases htarget
      have hread : Disk.on u (Disk.ask fun v => h.read v path) = (h.read u path, u) := rfl
      have hgiven : Disk.on u (Disk.ofExcept (h.read u path)) = (h.read u path, u) := rfl
      dsimp only
      rw [Disk.on_bind, Disk.on_bind, hread, hgiven]
      cases h.read u path with
      | error e => rfl
      | ok data =>
        dsimp only
        refine (congrArg (Disk.on u) (layFile_bind (extractEach h dir paths)).symm).trans ?_
        rw [Disk.on_bind, Disk.on_bind]
        obtain ⟨⟨after, hafter⟩, hconf⟩ := stays_layFile hplain data u files hs
        have hlost := keepsLost_layFile (Path.join dir (Path.ofParts (Path.steps path))) data u
        generalize Disk.on u (layFile (Path.join dir (Path.ofParts (Path.steps path))) data) = run
          at hafter hconf hlost
        obtain ⟨r, w⟩ := run
        cases r with
        | error e => rfl
        | ok =>
          obtain ⟨haside, hcontent⟩ := ha.keep hlost hconf
          have hbytes : h.bytes w = h.bytes u := by
            rw [bytes_of_file? hfile, bytes_of_file? hfile, hcontent]
          have hsame : (paths.map fun path => (path, h.read w path)) =
              paths.map fun path => (path, h.read u path) :=
            List.map_congr_left fun path _ => by rw [read_congr hbytes]
          dsimp only
          rw [ih hafter haside, hsame]

end Archive

end Patchwork
