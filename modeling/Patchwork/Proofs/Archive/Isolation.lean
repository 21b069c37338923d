import Patchwork.Proofs.Archive.InUse

/-!
# Isolation of handles

Whatever is done in a session, each handle goes on answering as when it was got, and the only files that
change are the archives that are put in place and the temporary files beside them, as long as the events are
calm.  Each event is shown to keep this, by what it does to the files; a run follows by induction.
-/
namespace Patchwork

open Handle Volume
open Zip (Member)

variable {v w : Volume} {s : Session} {name path : Text} {p q : Place} {h : Handle}
  {taken : Place → Prop}

namespace Session

/-- The temporary file of a handle, if it is in use, is at a place. -/
def HasRoom (o : Option Use) (p : Place) : Prop := ∃ u, o = some u ∧ u.room = some p

@[simp] theorem hasRoom_none : ¬ HasRoom none p := fun ⟨_, hu, _⟩ => by cases hu

@[simp] theorem hasRoom_some {u : Use} : HasRoom (some u) p ↔ u.room = some p := by simp [HasRoom]

/-- The file that is to be at a place: the archive that was put there, or what was there at first. -/
def expected (v : Volume) (archives : Place → Option (List Member)) (p : Place) : Option Bytes :=
  match archives p with
  | some ms => some (Zip.write ms)
  | none => v.file? p

theorem expected_congr {archives archives' : Place → Option (List Member)} (h : archives' p = archives p) :
    expected v archives' p = expected v archives p := by
  rw [expected, h, expected]

theorem expected_update_self (archives : Place → Option (List Member)) (p : Place) (ms : List Member) :
    expected v (Function.update archives p (some ms)) p = some (Zip.write ms) := by
  rw [expected, Function.update_self]

theorem expected_update_of_ne {archives : Place → Option (List Member)} (hq : q ≠ p) (ms : List Member) :
    expected v (Function.update archives p (some ms)) q = expected v archives q :=
  expected_congr (Function.update_of_ne hq _ _)

/-- What holds between two events. -/
structure Sane (v : Volume) (s : Session) : Prop where
  sound : s.volume.Sound
  uses : ∀ name u, s.uses name = some u → InUse s.volume u
  apart : ∀ name other p, HasRoom (s.uses name) p → HasRoom (s.uses other) p → name = other
  rooms : ∀ name p, HasRoom (s.uses name) p → expected v s.archives p = none
  files : ∀ p, (∀ name, ¬ HasRoom (s.uses name) p) → s.volume.file? p = expected v s.archives p

theorem sane_start (hv : v.Sound) : Sane v (start v) :=
  ⟨hv, nofun, fun _ _ _ h => (hasRoom_none h).elim, fun _ _ h => (hasRoom_none h).elim, fun _ _ => rfl⟩

/-- The temporary file stands empty at its place. -/
theorem Sane.room_file (hs : Sane v s) (hr : HasRoom (s.uses name) p) : s.volume.file? p = some [] := by
  obtain ⟨u, hu, hroom⟩ := hr
  obtain ⟨-, temp, -, hfind⟩ := (hs.uses name u hu).of_room hroom
  exact file?_eq_some_iff.mpr (find_eq_ok_iff.mp hfind).2

/-- One handle is got, used or given up, while the others keep their files. -/
theorem Sane.update (hs : Sane v s) {o : Option Use} {archives : Place → Option (List Member)}
    (hw : w.Sound) (hreads : ∀ f c, c ≠ [] → Reads s.volume f c → Reads w f c)
    (htemps : ∀ other u temp p, other ≠ name → s.uses other = some u → u.handle.temp? = some temp →
      s.volume.find .entry temp = .ok (p, .file []) → w.find .entry temp = .ok (p, .file []))
    (hself : ∀ u, o = some u → InUse w u)
    (hroom : ∀ p, HasRoom o p → HasRoom (s.uses name) p ∨ s.volume.file? p = none)
    (harch : ∀ p, HasRoom o p ∨ (∃ other, other ≠ name ∧ HasRoom (s.uses other) p) →
      archives p = s.archives p)
    (hfiles : ∀ p, ¬ HasRoom o p → (∀ other, other ≠ name → ¬ HasRoom (s.uses other) p) →
      w.file? p = expected v archives p) :
    Sane v ⟨w, Function.update s.uses name o, archives⟩ := by
  have hself' : Function.update s.uses name o name = o := Function.update_self _ _ _
  have hother {other : Text} (hn : other ≠ name) : Function.update s.uses name o other = s.uses other :=
    Function.update_of_ne hn _ _
  have hnew {other : Text} {p : Place} (hr : HasRoom (s.uses other) p) (hn : other ≠ name) : ¬ HasRoom o p := by
    intro ho
    rcases hroom p ho with hold | hnone
    · exact hn (hs.apart _ _ p hr hold)
    · rw [hs.room_file hr] at hnone
      cases hnone
  refine ⟨hw, fun other u hu => ?_, fun a b p ha hb => ?_, fun other p hr => ?_, fun p hp => ?_⟩
  · by_cases hn : other = name
    · subst hn
      exact hself u (hself'.symm.trans hu)
    · have hu := (hother hn).symm.trans hu
      exact (hs.uses other u hu).keep hreads fun temp p => htemps other u temp p hn hu
  · by_cases han : a = name
    · by_cases hbn : b = name
      · rw [han, hbn]
      · simp only [han, hself'] at ha
        simp only [hother hbn] at hb
        exact (hnew hb hbn ha).elim
    · simp only [hother han] at ha
      by_cases hbn : b = name
      · simp only [hbn, hself'] at hb
        exact (hnew ha han hb).elim
      · simp only [hother hbn] at hb
        exact hs.apart a b p ha hb
  · by_cases hn : other = name
    · simp only [hn, hself'] at hr
      refine (expected_congr (harch p (.inl hr))).trans ?_
      rcases hroom p hr with hold | hnone
      · exact hs.rooms _ p hold
      · rw [← hs.files p fun n hn => ?_, hnone]
        rw [hs.room_file hn] at hnone
        cases hnone
    · simp only [hother hn] at hr
      exact (expected_congr (harch p (.inr ⟨other, hn, hr⟩))).trans (hs.rooms other p hr)
  · refine hfiles p (fun ho => hp name ?_) fun other hn hr => hp other ?_
    · simp only [hself', ho]
    · simp only [hother hn, hr]

/-- The temporary files of the other handles stand where they stood. -/
theorem Sane.temps (hs : Sane v s) (hf : Frame taken s.volume w)
    (htaken : ∀ p, taken p → HasRoom (s.uses name) p ∨ s.volume.file? p = none) {other temp : Text} {u : Use}
    (hn : other ≠ name) (hu : s.uses other = some u) (htemp : u.handle.temp? = some temp)
    (hfind : s.volume.find .entry temp = .ok (p, .file [])) : w.find .entry temp = .ok (p, .file []) := by
  refine hf.find hfind fun hp => ?_
  rcases htaken p hp with hr | hnone
  · exact hn (hs.apart other name p ⟨u, hu, (hs.uses other u hu).room_of_find htemp hfind⟩ hr)
  · rw [file?_eq_some_iff.mpr (find_eq_ok_iff.mp hfind).2] at hnone
    cases hnone

/-- The file at a place where no handle has its temporary one. -/
theorem Sane.file?_eq (hs : Sane v s) (hn : ∀ other, other ≠ name → ¬ HasRoom (s.uses other) p)
    (hr : ¬ HasRoom (s.uses name) p) : s.volume.file? p = expected v s.archives p := by
  refine hs.files p fun other ho => ?_
  by_cases he : other = name
  · exact hr (he ▸ ho)
  · exact hn other he ho

/-- Nothing is done but that directories are made. -/
theorem Sane.frame (hs : Sane v s) (hf : Frame (fun _ => False) s.volume w) :
    Sane v ⟨w, s.uses, s.archives⟩ := by
  refine ⟨hf.sound, fun other u hu => ?_, hs.apart, hs.rooms, fun p hp => ?_⟩
  · exact (hs.uses other u hu).keep hf.reads fun temp p _ hfind => hf.find hfind id
  · rw [hf.files p id]
    exact hs.files p hp

/-- A handle comes, stays or goes without a temporary file being made or taken away. -/
theorem Sane.same (hs : Sane v s) {o : Option Use} (hf : Frame (fun _ => False) s.volume w)
    (hself : ∀ u, o = some u → InUse w u) (hroom : ∀ p, HasRoom o p ↔ HasRoom (s.uses name) p) :
    Sane v ⟨w, Function.update s.uses name o, s.archives⟩ := by
  refine hs.update hf.sound hf.reads (fun other u temp p hn hu ht => hs.temps hf nofun hn hu ht) hself
    (fun p hp => .inl ((hroom p).mp hp)) (fun _ _ => rfl) fun p hp hn => ?_
  rw [hf.files p id, hs.file?_eq hn fun hr => hp ((hroom p).mpr hr)]

/-- A handle gets its temporary file. -/
theorem Sane.fresh (hs : Sane v s) {u : Use} {temp : Text} (hin : InUse w u) (hg : Grows s.volume w)
    (hfresh : Fresh s.volume w temp p) (hroom : u.room = some p) (hold : ∀ q, ¬ HasRoom (s.uses name) q) :
    Sane v ⟨w, Function.update s.uses name (some u), s.archives⟩ := by
  have hnone : s.volume.file? p = none := by rw [Volume.file?, hfresh.absent]
  have hf : Frame (· = p) s.volume w := hg.frame hs.sound hfresh.files
  refine hs.update hf.sound hf.reads (fun other u temp q hn hu ht => hs.temps hf (fun q hq => .inr ?_) hn hu ht)
    (fun u' hu => by cases hu; exact hin) (fun q hq => .inr ?_) (fun _ _ => rfl) fun q hq hn => ?_
  · rw [hq, hnone]
  · obtain rfl : p = q := Option.some.inj (hroom.symm.trans (hasRoom_some.mp hq))
    exact hnone
  · have hne : q ≠ p := fun he => hq (hasRoom_some.mpr (he ▸ hroom))
    rw [hf.files q hne, hs.file?_eq hn (hold q)]

/-- A handle goes, and its temporary file is taken away. -/
theorem Sane.erase (hs : Sane v s) (hroom : HasRoom (s.uses name) p) (hf : Frame (· = p) s.volume w)
    (hp : w.file? p = none) : Sane v ⟨w, Function.update s.uses name none, s.archives⟩ := by
  refine hs.update hf.sound hf.reads (fun other u temp q hn hu ht => hs.temps hf (fun q hq => .inl ?_) hn hu ht)
    nofun (fun _ h => (hasRoom_none h).elim) (fun _ _ => rfl) fun q _ hn => ?_
  · rw [hq]
    exact hroom
  · by_cases he : q = p
    · rw [he, hp, hs.rooms name p hroom]
    · rw [hf.files q he]
      refine hs.file?_eq hn fun hr => he ?_
      obtain ⟨u, hu, hp⟩ := hroom
      rw [hu, hasRoom_some] at hr
      exact Option.some.inj (hr.symm.trans hp)

/-- Another handle does not have its temporary file where an archive is put. -/
theorem Sane.place_ne (hs : Sane v s) {ms : List Member} (hplaced : w.file? q = some (Zip.write ms))
    (hcalm : ∀ other u temp, other ≠ name → s.uses other = some u → u.handle.temp? = some temp →
      w.find .entry temp = s.volume.find .entry temp) {other : Text} (hn : other ≠ name)
    (hr : HasRoom (s.uses other) p) : p ≠ q := by
  rintro rfl
  obtain ⟨u, hu, hroom⟩ := hr
  obtain ⟨-, temp, ht, hfind⟩ := (hs.uses other u hu).of_room hroom
  rw [← hcalm other u temp hn hu ht] at hfind
  have hempty := file?_eq_some_iff.mpr (find_eq_ok_iff.mp hfind).2
  rw [hplaced] at hempty
  exact Zip.write_ne_nil _ (Option.some.inj hempty)

/-- A handle goes, and its temporary file with it, while an archive is put somewhere. -/
theorem Sane.moved (hs : Sane v s) {ms : List Member} (hroom : HasRoom (s.uses name) p)
    (hkept : Preserves (fun r => r = p ∨ r = q) s.volume w) (hplaced : w.file? q = some (Zip.write ms))
    (hgone : p ≠ q → w.file? p = none)
    (hcalm : ∀ other u temp, other ≠ name → s.uses other = some u → u.handle.temp? = some temp →
      w.find .entry temp = s.volume.find .entry temp) :
    Sane v ⟨w, Function.update s.uses name none, Function.update s.archives q (some ms)⟩ := by
  refine hs.update hkept.sound hkept.reads (fun other u temp r hn hu ht hfind => ?_) nofun
    (fun _ h => (hasRoom_none h).elim) (fun r hr => ?_) fun r _ hn => ?_
  · rw [hcalm other u temp hn hu ht, hfind]
  · refine Function.update_of_ne ?_ _ _
    rcases hr with hr | ⟨other, hn, hr⟩
    · exact (hasRoom_none hr).elim
    · exact hs.place_ne hplaced hcalm hn hr
  · by_cases hrq : r = q
    · rw [hrq, hplaced, expected_update_self]
    · rw [expected_update_of_ne hrq]
      by_cases hrp : r = p
      · rw [hrp, hgone (fun he => hrq (hrp.trans he)), hs.rooms name p hroom]
      · rw [hkept.files r (fun h => h.elim hrp hrq)]
        refine hs.file?_eq hn fun hr => hrp ?_
        obtain ⟨u, hu, hp⟩ := hroom
        rw [hu, hasRoom_some] at hr
        exact Option.some.inj (hr.symm.trans hp)

theorem Sane.openAt (hs : Sane v s) {create : Bool} (hc : s.Calm (.openAt name path create)) :
    Sane v (s.step (.openAt name path create)) := by
  have hcalm : create = true → s.volume.isFile path = false →
      (s.volume.parentsMade path).isFile path = false := by
    rintro rfl
    exact hc
  cases huse : s.uses name with
  | some u =>
    simp only [step, get, huse]
    exact hs
  | none =>
    simp only [step, get, huse]
    cases hrun : Disk.on s.volume (Handle.openAt path create) with
    | mk r w =>
      rcases openAt_frame hs.sound hrun hcalm with ⟨hf, hfile⟩ | ⟨h, p, rfl, hfile, hcan, hf, hnone, hput⟩
      · cases r with
        | error f => exact hs.frame hf
        | ok h =>
          obtain ⟨hin, hroom⟩ := inUse_opened hs.sound hrun
          simp only [hfile h rfl, if_true]
          refine hs.same hf (fun u hu => by cases hu; exact hin) fun p => ?_
          simp [huse, hroom]
      · obtain ⟨hin, hroom⟩ := inUse_opened hs.sound hrun
        simp only [hfile, Bool.false_eq_true, if_false, put, hcan]
        have hno (q : Place) : ¬ HasRoom (some (Use.ofStart s.volume w h)) q := by simp [hroom]
        refine hs.update hf.sound hf.reads
          (fun other u temp q hn hu ht => hs.temps hf (fun q hq => .inr ?_) hn hu ht)
          (fun u hu => by cases hu; exact hin) (fun q hq => (hno q hq).elim) (fun q hq => ?_) fun q _ hn => ?_
        · rw [hq, hnone]
        · refine Function.update_of_ne (fun he => ?_) _ _
          rcases hq with hq | ⟨other, hn, hr⟩
          · exact hno q hq
          · rw [← he, hs.room_file hr] at hnone
            cases hnone
        · by_cases he : q = p
          · rw [he, hput, expected_update_self, Zip.write_nil]
          · rw [hf.files q he, hs.file?_eq hn (by simp [huse]), expected_update_of_ne he]

theorem Sane.create (hs : Sane v s) : Sane v (s.step (.create name path)) := by
  cases huse : s.uses name with
  | some u =>
    simp only [step, get, huse]
    exact hs
  | none =>
    simp only [step, get, huse]
    cases hrun : Disk.on s.volume (Handle.create path) with
    | mk r w =>
      cases r with
      | error f =>
        have hh : (ofEntries path none []).Holds s.volume [] := rfl
        obtain ⟨hg, hfiles⟩ := begin_eq_error hh rfl hrun
        exact hs.frame (hg.frame hs.sound fun p _ => hfiles p)
      | ok h =>
        obtain ⟨hin, hg, temp, p, hroom, hfresh⟩ := inUse_created hs.sound hrun
        exact hs.fresh hin hg hfresh hroom (by simp [huse])

theorem Sane.call (hs : Sane v s) {c : Call} (hc : ∀ f, ¬ c.Unreadable s.volume f) : Sane v (s.call name c) := by
  cases huse : s.uses name with
  | none =>
    simp only [Session.call, huse]
    exact hs
  | some u =>
    simp only [Session.call, huse]
    cases hrun : Staging.on s.volume u.handle c.run with
    | mk rh w =>
      obtain ⟨r, h⟩ := rh
      obtain ⟨hin, hg, ⟨hroom, hfiles⟩ | ⟨hnone, temp, p, hroom, hfresh⟩⟩ := (hs.uses name u huse).called hc hrun
      · refine hs.same (hg.frame hs.sound fun p _ => hfiles p) (fun u hu => by cases hu; exact hin) fun p => ?_
        simp [huse, hroom]
      · exact hs.fresh hin hg hfresh hroom (by simp [huse, hnone])

theorem Sane.drop (hs : Sane v s) : Sane v (s.step (.drop name)) := by
  cases huse : s.uses name with
  | none =>
    simp only [step, finish, huse]
    exact hs
  | some u =>
    simp only [step, finish, huse]
    have hin := hs.uses name u huse
    cases hroom : u.room with
    | none =>
      rw [Handle.discard, (hin.of_roomless hroom).1]
      exact hs.same (.refl hs.sound) (fun u hu => by cases hu) (by simp [huse, hroom])
    | some p =>
      obtain ⟨temp, hstage, hslash, hfind⟩ := hin.stage hroom
      have hp := (find_eq_ok_iff.mp hfind).2
      have hdir : s.volume.item? p ≠ some .dir := by
        rw [hp]
        intro he
        cases he
      simp only [Handle.discard, hstage, Disk.discard, Disk.on_update, without_of_find hfind hslash]
      refine hs.erase ⟨u, huse, hroom⟩ (frame_erase hs.sound hp) ?_
      rw [Volume.file?, item?_erase_self hdir]

theorem Sane.close (hs : Sane v s) (hc : s.Calm (.close name)) : Sane v (s.step (.close name)) := by
  cases huse : s.uses name with
  | none =>
    simp only [step, finish, huse]
    exact hs
  | some u =>
    simp only [Calm, step, finish, huse] at hc ⊢
    have hin := hs.uses name u huse
    cases hroom : u.room with
    | none =>
      obtain ⟨hstage, hidle⟩ := hin.of_roomless hroom
      simp only [Handle.close, hstage, hidle, Bool.true_eq_false, and_false, if_false]
      exact hs.same (.refl hs.sound) (fun u hu => by cases hu) (by simp [huse, hroom])
    | some p =>
      have hr : HasRoom (s.uses name) p := ⟨u, huse, hroom⟩
      obtain ⟨temp, hstage, hslash, hfind⟩ := hin.stage hroom
      have hp := (find_eq_ok_iff.mp hfind).2
      have hidle := (hin.of_room hroom).1
      have hclose : u.handle.close = Disk.io (Disk.persist temp u.start.path (Zip.write u.staged)) := by
        rw [Handle.close, hstage, hin.pending.path]
      rw [hclose, Disk.on_io] at hc ⊢
      cases hrun : Disk.on s.volume (Disk.persist temp u.start.path (Zip.write u.staged)) with
      | mk r w =>
        rw [hrun] at hc
        dsimp only at hc ⊢
        rcases persist_cases hfind hslash hrun with ⟨rfl, q, hl, hdir, hw⟩ | ⟨e, rfl, rfl⟩
        · obtain ⟨hpreserves, hplaced, hgone⟩ := preserves_moved hs.sound hp hdir (hs.sound.locate_above hl) hw
          have hok : (Except.mapError Fault.io (.ok () : Except IoError Unit)).isOk = true ∧ u.idle = false :=
            ⟨rfl, hidle⟩
          simp only [if_pos hok, Session.put, hl]
          exact hs.moved hr hpreserves hplaced hgone hc
        · have herror : ¬ ((Except.mapError Fault.io (.error e : Except IoError Unit)).isOk = true ∧
              u.idle = false) := fun h => by cases h.1
          rw [if_neg herror]
          obtain ⟨hframe, hnone, -⟩ := frame_filled hs.sound hp (Zip.write u.staged)
          refine hs.erase hr hframe ?_
          rw [Volume.file?, hnone]

/-- Every event keeps what holds of a session, as long as it is calm. -/
theorem Sane.step (hs : Sane v s) {e : Event} (hc : s.Calm e) : Sane v (s.step e) := by
  cases e with
  | openAt name path create => exact hs.openAt hc
  | create name path => exact hs.create
  | write name path data => exact hs.call (c := .write path data) fun _ h => h
  | createDirAll name path => exact hs.call (c := .createDirAll path) fun _ h => h
  | copyFrom name source path =>
    simp only [Session.step]
    split
    · next u hu =>
      refine hs.call fun f hunread => ?_
      obtain ⟨e, he, hf⟩ := hunread
      have hmem : e ∈ u.handle.opened := List.mem_reverse.mp (List.mem_of_find?_eq_some he)
      obtain ⟨m, hm⟩ := (hs.uses source u hu).pending.holds.readable hmem
      rw [hm] at hf
      cases hf
    · exact hs
  | close name => exact hs.close hc
  | drop name => exact hs.drop

theorem Sane.run {events : List Event} (hs : Sane v s) (hc : CalmRun s events) : Sane v (s.run events) := by
  induction events generalizing s with
  | nil => exact hs
  | cons e events ih => exact ih (hs.step hc.1) hc.2

theorem Sane.isolated (hs : Sane v s) : Isolated v s where
  original name u hu := (hs.uses name u hu).got.original
  answers name u hu := (hs.uses name u hu).answer
  room name u hu := (hs.uses name u hu).room_eq_none_iff
  temporary name u p hu hp := hs.room_file ⟨u, hu, hp⟩
  archive p ms hms := by
    have hexpected : expected v s.archives p = some (Zip.write ms) := by rw [expected, hms]
    have hfile : s.volume.file? p = some (Zip.write ms) := by
      rw [hs.files p fun name hr => ?_, hexpected]
      rw [hs.rooms name p hr] at hexpected
      cases hexpected
    exact ⟨hfile, fun hzip => ⟨_, _, file?_eq_some_iff.mp hfile, hzip, rfl⟩⟩
  others p hnone hroom := by
    rw [hs.files p fun name ⟨u, hu, hp⟩ => hroom name u hu hp, expected, hnone]

/-- However many handles are got, used and given up, in whatever order, each of them goes on answering as
when it was got, and no file changes but where an archive is put in place. -/
theorem isolated_run {events : List Event} (hv : v.Sound) (hc : CalmRun (start v) events) :
    Isolated v ((start v).run events) := ((sane_start hv).run hc).isolated

/-- An archive with one file in it. -/
def oneArchive : Volume :=
  { Volume.empty with items := [([['f']], .file (Zip.write [.file ['a'] [104, 105]]))] }

theorem sound_oneArchive : oneArchive.Sound := ⟨by decide, by decide, by decide⟩

/-- The archive is opened twice, and a file is added through the second handle. -/
def added : List Event :=
  [.openAt ['x'] ['f'] false, .openAt ['y'] ['f'] true, .write ['y'] ['b'] [106]]

/-- Closing the second handle is calm, since no other one has a temporary file. -/
theorem calmRun_added : CalmRun (start oneArchive) (added ++ [.close ['y']]) := by
  have hfile : ((start oneArchive).step (.openAt ['x'] ['f'] false)).volume.isFile ['f'] = true := by
    decide +kernel
  refine calmRun_concat.mpr ⟨⟨trivial, fun hmissing => ?_, trivial, trivial⟩, fun other u temp hn hu htemp => ?_⟩
  · rw [hfile] at hmissing
    cases hmissing
  · have hnone : (((start oneArchive).run added).uses other).bind (·.handle.temp?) = none := by
      by_cases hx : other = ['x']
      · rw [hx]
        decide +kernel
      · have hunused : ((start oneArchive).run added).uses other = none := by
          refine uses_run fun e he => ?_
          simp only [added, List.mem_cons, List.not_mem_nil, or_false] at he
          rcases he with rfl | rfl | rfl
          · exact hx
          · exact hn
          · exact hn
        rw [hunused, Option.bind_none]
    rw [hu, Option.bind_some, htemp] at hnone
    cases hnone

/-- The first handle still reads the archive of one file when that of two has taken its place. -/
theorem isolated_run_added : oneArchive.Sound ∧ CalmRun (start oneArchive) (added ++ [.close ['y']]) ∧
    Isolated oneArchive ((start oneArchive).run (added ++ [.close ['y']])) ∧
    (((start oneArchive).run (added ++ [.close ['y']])).uses ['x']).map (fun u =>
      (Question.read ['a']).answer u.handle ((start oneArchive).run (added ++ [.close ['y']])).volume) =
        some (.content (.ok [104, 105])) ∧
    ((start oneArchive).run (added ++ [.close ['y']])).volume.file? [['f']] =
      some (Zip.write [(Member.file ['a'] [104, 105]).copied, .file ['b'] [106]]) :=
  ⟨sound_oneArchive, calmRun_added, isolated_run sound_oneArchive calmRun_added, by decide +kernel,
    by decide +kernel⟩

/-- A path leads to the archive once a directory on its way is made, and then an empty one is put there: the
handle that was opened before reads nothing any more. -/
theorem openAt_empties_archive : oneArchive.Sound ∧ oneArchive.isFile "d/../f".toList = false ∧
    ¬ Isolated oneArchive
      ((start oneArchive).run [.openAt ['x'] ['f'] false, .openAt ['y'] "d/../f".toList true]) := by
  refine ⟨sound_oneArchive, rfl, fun h => ?_⟩
  generalize hs : (start oneArchive).run [.openAt ['x'] ['f'] false, .openAt ['y'] "d/../f".toList true] = s at h
  have hread : (s.uses ['x']).map (fun u => decide ((Question.read ['a']).answer u.handle s.volume =
      (Question.read ['a']).answer u.start u.begun)) = some false := by
    rw [← hs]
    decide +kernel
  obtain ⟨u, hu, hchanged⟩ := Option.map_eq_some_iff.mp hread
  exact of_decide_eq_false hchanged (h.answers _ u hu _)

end Session

end Patchwork
