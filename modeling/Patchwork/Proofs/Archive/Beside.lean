import Patchwork.Archive.Copy
import Patchwork.Proofs.Archive.Advance
import Patchwork.Proofs.Archive.Commit
import Patchwork.Proofs.Volume.Replaced

/-!
# What stands beside an archive

As long as something is staged through a handle, there is one temporary file beside its archive, in a
directory that is made with those above it.  A program that fails takes the file away again, wherever it
fails: all items are as they are once the directories are made.
-/
namespace Patchwork

open Handle Volume
open Disk (dirsMade)

/-! ### Directories above an archive -/

/-- Opening an archive makes the same directories as starting one. -/
theorem parentsMade_eq (v : Volume) (path : Text) : v.parentsMade path = dirsMade v path := by
  unfold Volume.parentsMade Disk.dirsMade Path.directory
  cases hp : Path.parent? path with
  | none => exact (Disk.createDirAll_dot v).symm
  | some dir =>
    by_cases hdir : dir = []
    · simp only [hdir]
      exact (Disk.createDirAll_dot v).symm
    · simp [Option.filter, hdir]

/-! ### The temporary file -/

variable {u v w : Volume} {h h' : Handle} {adds : List Addition} {α : Type} {f : Fault} {path : Text}

/-- Staging starts with a temporary file and nothing else that is new, once the directories above the archive
are made; if that fails, all items are left as they are then, and files that were opened hold what they held. -/
theorem begin_cases {r : Except Fault Handle} (hv : v.Sound) (hstage : h.stage = none)
    (hrun : Disk.on v h.begin = (r, w)) :
    (∃ f, r = .error f) ∧ SameItems (dirsMade v h.path) w ∧ (∀ o, w.contentOf o = v.contentOf o) ∨
      ∃ s p, r = .ok { h with stage := some s } ∧ s.temp.getLast? ≠ some '/' ∧
        Grows (dirsMade v h.path) w ∧ NewFile (dirsMade v h.path) w s.temp p := by
  have hdirsGrow := Disk.grows_dirsMade v h.path
  have hsound := hdirsGrow.sound hv
  unfold Handle.begin at hrun
  rw [hstage] at hrun
  rcases Disk.on_bind_cases hrun with ⟨f, hdirs, rfl⟩ | ⟨⟨⟩, u, hdirs, hrun⟩
  · obtain ⟨e, hdirs⟩ := Disk.on_io_eq_error hdirs
    rw [dirsMade, hdirs] at hdirsGrow ⊢
    exact .inl ⟨⟨f, rfl⟩, .refl w, hdirsGrow.contentOf⟩
  · have hu : dirsMade v h.path = u := by rw [dirsMade, Disk.on_io_eq_ok hdirs]
    rw [hu] at hdirsGrow hsound ⊢
    rcases Disk.on_bind_cases hrun with ⟨f, htemp, rfl⟩ | ⟨temp, x, htemp, hrun⟩
    · obtain ⟨e, htemp⟩ := Disk.on_io_eq_error htemp
      rw [Disk.createTemp_eq_error htemp]
      exact .inl ⟨⟨f, rfl⟩, .refl u, hdirsGrow.contentOf⟩
    · obtain ⟨hg, hslash, p, hnew⟩ := Disk.createTemp_eq_ok (Disk.on_io_eq_ok htemp)
      rw [Disk.on_bind_of_ok Disk.on_outcome_ask] at hrun
      split at hrun
      · cases hrun
        exact .inr ⟨_, p, rfl, hslash, hg, hnew⟩
      · cases hrun
        have hempty := (find_eq_ok_iff.mp hnew.find).2
        refine .inl ⟨⟨_, rfl⟩, ?_⟩
        show SameItems u (Disk.without temp x) ∧ ∀ o, (Disk.without temp x).contentOf o = v.contentOf o
        rw [without_of_find hnew.find hslash]
        refine ⟨hnew.sameItems_erase hg (hg.sound hsound), fun o => ?_⟩
        rw [contentOf_erase (hg.sound hsound) hempty, (hdirsGrow.trans hg).contentOf]

/-- What a handle has beside its archive since a volume: nothing, or a temporary file. -/
inductive Beside (v : Volume) (path : Text) : Volume → Handle → Prop
  | nothing {h : Handle} (hpath : h.path = path) (hstage : h.stage = none) : Beside v path v h
  | temp {w : Volume} {h : Handle} {s : Stage} {p : Place} (hstage : h.stage = some s)
      (hslash : s.temp.getLast? ≠ some '/') (hg : Grows (dirsMade v path) w)
      (hnew : NewFile (dirsMade v path) w s.temp p) : Beside v path w h

theorem beside_add {r : Except Fault Handle} (hv : v.Sound) (hb : Beside v path u h)
    (hrun : Disk.on u (h.add adds) = (r, w)) :
    (∃ f, r = .error f) ∧ h.stage = none ∧ SameItems (dirsMade v path) w ∨
      ∃ h', r = .ok h' ∧ Beside v path w h' := by
  unfold Handle.add at hrun
  split at hrun
  · cases hrun
    exact .inr ⟨h, rfl, hb⟩
  · cases hb with
    | nothing hpath hstage =>
      rcases Disk.on_bind_cases hrun with ⟨f, hbegin, rfl⟩ | ⟨b, x, hbegin, hrun⟩
      · rcases begin_cases hv hstage hbegin with ⟨-, hsame, -⟩ | ⟨s, p, hok, -⟩
        · exact .inl ⟨⟨f, rfl⟩, hstage, hpath ▸ hsame⟩
        · cases hok
      · rcases begin_cases hv hstage hbegin with ⟨⟨f, hf⟩, -⟩ | ⟨s, p, hok, hslash, hg, hnew⟩
        · cases hf
        · cases hok
          cases hrun
          subst hpath
          exact .inr ⟨_, rfl, .temp rfl hslash hg hnew⟩
    | @temp _ _ s p hstage hslash hg hnew =>
      rw [Disk.on_bind_of_ok (begin_of_stage hstage)] at hrun
      cases hrun
      refine .inr ⟨_, rfl, .temp (s := { s with members := s.members ++ adds.map (·.2) }) ?_ hslash hg hnew⟩
      rw [Handle.put, hstage]
      rfl

/-- Members are added behind a temporary file that is made once, and an attempt to make it that fails ends
the program. -/
theorem Additive.beside {s : Staging α} {r : Except Fault α} (hs : Additive s) (hv : v.Sound)
    (hb : Beside v path u h) (hrun : Staging.on u h s = ((r, h'), w)) :
    (∃ f, r = .error f) ∧ h'.stage = none ∧ SameItems (dirsMade v path) w ∨ Beside v path w h' := by
  induction hs generalizing u h h' w with
  | ask f =>
    cases hrun
    exact .inr hb
  | add adds =>
    cases r with
    | ok =>
      rcases beside_add hv hb (Staging.on_change_eq_ok hrun) with ⟨⟨f, hf⟩, -⟩ | ⟨h'', hok, hb'⟩
      · cases hf
      · cases hok
        exact .inr hb'
    | error f =>
      obtain ⟨hadd, rfl⟩ := Staging.on_change_eq_error hrun
      rcases beside_add hv hb hadd with ⟨-, hspoiled⟩ | ⟨h'', hok, -⟩
      · exact .inl ⟨⟨f, rfl⟩, hspoiled⟩
      · cases hok
  | bind _ _ ihs ihf =>
    rw [Staging.on_bind] at hrun
    split at hrun
    · next a g x hfirst =>
      rcases ihs hb hfirst with ⟨⟨f, hf⟩, -⟩ | hb'
      · cases hf
      · exact ihf a hb' hrun
    · next f g x hfirst =>
      cases hrun
      exact (ihs hb hfirst).imp_left fun ⟨_, hspoiled⟩ => ⟨⟨f, rfl⟩, hspoiled⟩

theorem beside_discard (hv : v.Sound) (hb : Beside v path u h) :
    ∃ w, Disk.on u h.discard = (.ok (), w) ∧ (w = v ∨ SameItems (dirsMade v path) w) := by
  unfold Handle.discard
  cases hb with
  | nothing _ hstage =>
    rw [hstage]
    exact ⟨_, rfl, .inl rfl⟩
  | @temp _ _ s p hstage hslash hg hnew =>
    rw [hstage]
    refine ⟨u.erase p, ?_, .inr (hnew.sameItems_erase hg ?_)⟩
    · rw [← without_of_find hnew.find hslash]
      rfl
    · exact hg.sound ((Disk.grows_dirsMade _ path).sound hv)

theorem beside_close_error (hv : v.Sound) (hb : Beside v path u h)
    (hrun : Disk.on u h.close = (.error f, w)) : SameItems (dirsMade v path) w := by
  unfold Handle.close at hrun
  cases hb with
  | nothing _ hstage =>
    rw [hstage] at hrun
    cases hrun
  | temp hstage hslash hg hnew =>
    rw [hstage] at hrun
    obtain ⟨e, hpersist⟩ := Disk.on_io_eq_error hrun
    rcases persist_cases hnew.find hslash hpersist with ⟨hok, -⟩ | ⟨-, -, rfl⟩
    · cases hok
    · exact hnew.sameItems hg (hg.sound ((Disk.grows_dirsMade v path).sound hv)) _

/-- A handle is closed behind a program that succeeds. -/
theorem on_finish_ok {s : Staging α} {a : α} (hs : Staging.on u h s = ((.ok a, h'), w)) :
    Disk.on u (h.finish s) = Disk.on w (h'.close >>= fun _ => pure a) := by
  show h.finish s u = _
  rw [finish, hs]
  rfl

/-- What a program has staged that fails is given up. -/
theorem on_finish_error {s : Staging α} (hs : Staging.on u h s = ((.error f, h'), w)) :
    Disk.on u (h.finish s) = Disk.on w (h'.discard >>= fun _ => throw f) := by
  show h.finish s u = _
  rw [finish, hs]
  rfl

/-- A program that stages through a handle and fails leaves all items as they were, or as they are once the
directories above the archive are made. -/
theorem finish_error {s : Staging α} (hs : Additive s) (hv : v.Sound) (hb : Beside v path u h)
    (hrun : Disk.on u (h.finish s) = (.error f, w)) : w = v ∨ SameItems (dirsMade v path) w := by
  rcases hstaged : Staging.on u h s with ⟨⟨e | a, g⟩, x⟩
  · rw [on_finish_error hstaged] at hrun
    rcases hs.beside hv hb hstaged with ⟨-, hstage, hsame⟩ | hb'
    · rw [Handle.discard, hstage] at hrun
      cases hrun
      exact .inr hsame
    · obtain ⟨y, hdiscard, hleft⟩ := beside_discard hv hb'
      rw [Disk.on_bind_of_ok hdiscard] at hrun
      cases hrun
      exact hleft
  · rw [on_finish_ok hstaged] at hrun
    rcases hs.beside hv hb hstaged with ⟨⟨e, he⟩, -⟩ | hb'
    · cases he
    · rcases Disk.on_bind_cases hrun with ⟨e, hclose, -⟩ | ⟨⟨⟩, y, -, hrun⟩
      · exact .inr (beside_close_error hv hb' hclose)
      · cases hrun

end Patchwork
