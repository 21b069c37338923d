import Patchwork.Proofs.Archive.Calls
import Patchwork.Proofs.Archive.Entries
import Patchwork.Proofs.Volume.Rename

/-!
# Closing a handle

When a handle is closed, the archive lists what it listed before and then what was added, and it answers
for every path as the handle did.
-/
namespace Patchwork

open Handle Volume
open Zip (Listed Member)

variable {v v₀ w : Volume} {present : List Text}

/-- Each addition is found again at the path that it was added for, without slashes at the end, and
that path is present. -/
def Reappear (present : List Text) (adds : List Addition) : Prop :=
  ∀ a ∈ adds, Entry.normalize a.2.name = Entry.normalize a.1 ∧ Entry.normalize a.1 ∈ present

theorem Reappear.mono {more : List Text} {adds : List Addition} (h : Reappear present adds)
    (hsub : ∀ p ∈ present, p ∈ more) : Reappear more adds :=
  fun a ha => ⟨(h a ha).1, hsub _ (h a ha).2⟩

theorem Reappear.append {adds adds' : List Addition} (h : Reappear present adds)
    (h' : Reappear present adds') : Reappear present (adds ++ adds') := fun a ha =>
  (List.mem_append.mp ha).elim (h a) (h' a)

theorem contentOf_opened {p : Place} {content : Bytes} (hp : v.item? p = some (.file content)) :
    v.contentOf (v.opened p) = content := by
  simp [Volume.contentOf, Volume.opened, hp]

theorem openFile_eq_ok {path : Text} {o : Opened} {bytes : Bytes}
    (h : v.openFile path = .ok (o, bytes)) :
    ∃ p, v.find .item path = .ok (p, .file bytes) ∧ o = v.opened p := by
  unfold openFile at h
  split at h
  · next p content hf =>
    cases h
    exact ⟨p, hf, rfl⟩
  · cases h
  · cases h

theorem load_eq_ok {path : Text} {h : Handle} (hload : load v path = .ok h) :
    ∃ p bytes es, v.find .item path = .ok (p, .file bytes) ∧ Zip.index bytes = .ok es ∧
      h = ofEntries path (some (v.opened p)) es := by
  unfold load at hload
  split at hload
  · cases hload
  · next o bytes hopen =>
    obtain ⟨p, hf, rfl⟩ := openFile_eq_ok hopen
    split at hload
    · next es hes =>
      cases hload
      exact ⟨p, bytes, es, hf, hes, rfl⟩
    · cases hload

theorem load_of_find {path : Text} {p : Place} {bytes : Bytes} {es : List Listed}
    (hf : v.find .item path = .ok (p, .file bytes)) (hes : Zip.index bytes = .ok es) :
    load v path = .ok (ofEntries path (some (v.opened p)) es) := by
  simp only [load, openFile, hf, hes]

/-- The volume once the directories above a path have been made, or some of them. -/
def Volume.parentsMade (v : Volume) (path : Text) : Volume :=
  match (Path.parent? path).filter (· ≠ []) with
  | some dir => (Disk.on v (Disk.createDirAll dir)).2
  | none => v

theorem grows_parentsMade (v : Volume) (path : Text) :
    Grows v (v.parentsMade path) ∧ ∀ r, (v.parentsMade path).file? r = v.file? r := by
  unfold Volume.parentsMade
  split
  · next dir _ =>
    have hg := Disk.grows_createDirAll dir v
    exact ⟨hg, hg.file? (Disk.onlyDirs_createDirAll dir v)⟩
  · exact ⟨.refl v, fun _ => rfl⟩

theorem on_write (v : Volume) (path : Text) (content : Bytes) :
    (∃ e, Disk.on v (Disk.write path content) = (.error e, v)) ∨
      ∃ w, v.write path content = .ok w ∧ Disk.on v (Disk.write path content) = (.ok (), w) := by
  simp only [Disk.on, ExceptT.run, Disk.write, Disk.change]
  cases v.write path content with
  | ok w => exact .inr ⟨w, rfl, rfl⟩
  | error e => exact .inl ⟨e, rfl⟩

theorem on_openAt (v : Volume) (path : Text) (create : Bool) : Disk.on v (openAt path create) =
    if v.isFile path then (load v path, v)
    else if create then Disk.on v do
      match (Path.parent? path).filter (· ≠ []) with
      | some dir => Disk.io (Disk.createDirAll dir)
      | none => pure ()
      Disk.io (Disk.write path Zip.emptyArchive)
      Disk.ask (load · path)
    else (.error (.notFound path), v) := by
  have hget : Disk.on v (get : Disk Fault Volume) = (.ok v, v) := rfl
  unfold openAt
  rw [Disk.on_bind, hget]
  cases hfile : v.isFile path with
  | true => simp [hfile]
  | false =>
    simp only [hfile, Bool.not_false, if_true, Bool.false_eq_true, if_false]
    cases create <;> rfl

/-- An archive is loaded from the volume as it is, unless no file is there: then an empty archive is put
there behind the directories above it. -/
theorem openAt_cases {path : Text} {create : Bool} {r : Except Fault Handle}
    (hrun : Disk.on v (openAt path create) = (r, w)) :
    (w = v ∧ ∀ h, r = .ok h → v.isFile path ∧ load v path = .ok h) ∨
      create = true ∧ v.isFile path = false ∧ (w = v.parentsMade path ∧ (∃ f, r = .error f) ∨
        (v.parentsMade path).write path Zip.emptyArchive = .ok w ∧ r = load w path) := by
  have hwrite {u : Volume} (hu : Disk.on u (do
      Disk.io (Disk.write path Zip.emptyArchive)
      Disk.ask (load · path)) = (r, w)) : w = u ∧ (∃ f, r = .error f) ∨
        u.write path Zip.emptyArchive = .ok w ∧ r = load w path := by
    rcases on_write u path Zip.emptyArchive with ⟨e, hrun⟩ | ⟨x, hx, hrun⟩
    · rw [Disk.on_bind, Disk.on_io, hrun] at hu
      cases hu
      exact .inl ⟨rfl, _, rfl⟩
    · rw [Disk.on_bind_of_ok (Disk.on_io_of_ok hrun)] at hu
      cases hu
      exact .inr ⟨hx, rfl⟩
  rw [on_openAt] at hrun
  split at hrun
  · next hfile =>
    cases hrun
    exact .inl ⟨rfl, fun h hh => ⟨hfile, hh⟩⟩
  · next hfile =>
    split at hrun
    · next hcreate =>
      refine .inr ⟨hcreate, Bool.eq_false_iff.mpr hfile, ?_⟩
      unfold Volume.parentsMade
      split at hrun
      · next dir _ =>
        rcases Disk.on_bind_cases hrun with ⟨e, hdirs, rfl⟩ | ⟨⟨⟩, u, hdirs, hrest⟩
        · obtain ⟨e, hdirs⟩ := Disk.on_io_eq_error hdirs
          rw [hdirs]
          exact .inl ⟨rfl, _, rfl⟩
        · rw [Disk.on_io_eq_ok hdirs]
          exact hwrite hrest
      · exact hwrite hrun
    · cases hrun
      exact .inl ⟨rfl, nofun⟩

theorem write_eq_ok {path : Text} {content : Bytes} (hw : v.write path content = .ok w) :
    ∃ p, v.locate .file path = .ok p ∧ v.item? p ≠ some .dir ∧ w = v.put p (.file content) := by
  unfold Volume.write at hw
  split at hw
  · next p hl =>
    split at hw
    · cases hw
    · next hdir =>
      cases hw
      exact ⟨p, hl, hdir, rfl⟩
  · cases hw

theorem openAt_eq_ok {path : Text} {create : Bool} {h : Handle} (hv : v₀.Sound)
    (hrun : Disk.on v₀ (openAt path create) = (.ok h, v)) : v.Sound ∧ load v path = .ok h := by
  rcases openAt_cases hrun with ⟨rfl, hload⟩ | ⟨-, -, ⟨-, f, hf⟩ | ⟨hwrite, hload⟩⟩
  · exact ⟨hv, (hload h rfl).2⟩
  · cases hf
  · obtain ⟨p, hl, hdir, rfl⟩ := write_eq_ok hwrite
    have hsound := (grows_parentsMade v₀ path).1.sound hv
    exact ⟨hsound.put (fun he => hdir (by rw [he]; rfl)) (hsound.locate_above hl) hdir _, hload.symm⟩

theorem on_openAt_false (v : Volume) (path : Text) : Disk.on v (openAt path false) =
    (if v.isFile path then load v path else .error (.notFound path), v) := by
  rw [on_openAt]
  split <;> rfl

end Patchwork
