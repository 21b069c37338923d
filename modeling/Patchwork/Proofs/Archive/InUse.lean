import Patchwork.Proofs.Archive.Session
import Patchwork.Proofs.Volume.Opened

/-!
# Handles in use

What holds of a handle as long as it is in use: it reads what it read when it was got, what was added is
pending, and its temporary file, if there is one, stands empty at its place.
-/
namespace Patchwork

open Handle Volume
open Zip (Member)

variable {v v₀ w : Volume} {h h' : Handle} {u : Use} {p : Place} {path temp : Text} {old : List Member}

structure InUse (v : Volume) (u : Use) : Prop where
  got : Started u.before u.begun u.start.path u.start u.old
  pending : Handle.Pending u.start u.handle v u.old u.added
  reads : ∀ o, u.start.file? = some o → ∃ c, c ≠ [] ∧ Reads u.begun o c ∧ Reads v o c
  room : (u.room = none ∧ u.handle.temp? = none) ∨ ∃ p temp, u.room = some p ∧ u.idle = false ∧
    u.handle.temp? = some temp ∧ v.find .entry temp = .ok (p, .file [])

theorem temp?_eq_none (h : Handle) : h.temp? = none ↔ h.stage = none := Option.map_eq_none_iff

theorem room?_of_find (htemp : h.temp? = some temp) (hf : v.find .entry temp = .ok (p, .file [])) :
    h.room? v = some p := by
  rw [room?, htemp, Option.bind_some, (find_eq_ok_iff.mp hf).1]
  rfl

theorem Handle.Holds.members (hh : h.Holds v old) : h.members v = old := by
  rw [Handle.members, hh]
  rfl

namespace InUse

/-- The file that is read holds what it held. -/
theorem bytes (hu : InUse v u) : u.handle.bytes v = u.start.bytes u.begun := by
  rw [Handle.bytes, Handle.bytes, hu.pending.file?]
  cases hfile : u.start.file? with
  | none => rfl
  | some o =>
    obtain ⟨c, -, hbegun, hnow⟩ := hu.reads o hfile
    rw [Option.map_some, Option.map_some, hbegun.contentOf, hnow.contentOf]

theorem answer (hu : InUse v u) (q : Question) : q.answer u.handle v = q.answer u.start u.begun := by
  have hentry : u.handle.entryOf v = u.start.entryOf u.begun := by
    funext e
    rw [entryOf, entryOf, hu.bytes, hu.pending.path]
  have hopened := hu.pending.opened
  have hentries : u.handle.entries = u.start.entries := by rw [entries, entries, hopened]
  cases q with
  | len => rw [Question.answer, Question.answer, size, size, hopened]
  | files => rw [Question.answer, Question.answer, files, files, hentries]
  | entries => rw [Question.answer, Question.answer, hentries]
  | walk =>
    rw [Question.answer, Question.answer, Handle.walk, Handle.walk, implied, implied, hentry, hopened, hentries]
  | read path => simp only [Question.answer, Handle.read, entry?, hentry, hopened]

theorem of_room (hu : InUse v u) (hroom : u.room = some p) : u.idle = false ∧
    ∃ temp, u.handle.temp? = some temp ∧ v.find .entry temp = .ok (p, .file []) := by
  rcases hu.room with ⟨hnone, -⟩ | ⟨q, temp, hsome, hidle, htemp, hfind⟩
  · rw [hroom] at hnone
    cases hnone
  · obtain rfl : p = q := Option.some.inj (hroom.symm.trans hsome)
    exact ⟨hidle, temp, htemp, hfind⟩

theorem room_of_find (hu : InUse v u) (htemp : u.handle.temp? = some temp)
    (hfind : v.find .entry temp = .ok (p, .file [])) : u.room = some p := by
  rcases hu.room with ⟨-, hnone⟩ | ⟨q, temp', hroom, -, hsome, hfind'⟩
  · rw [htemp] at hnone
    cases hnone
  · obtain rfl : temp = temp' := Option.some.inj (htemp.symm.trans hsome)
    rw [hfind] at hfind'
    cases hfind'
    exact hroom

theorem of_roomless (hu : InUse v u) (hroom : u.room = none) : u.handle.stage = none ∧ u.idle = true := by
  have htemp : u.handle.temp? = none := by
    rcases hu.room with ⟨-, hnone⟩ | ⟨q, temp, hsome, -⟩
    · exact hnone
    · rw [hroom] at hsome
      cases hsome
  have hstage := (temp?_eq_none _).mp htemp
  refine ⟨hstage, ?_⟩
  rcases hu.pending.stage with ⟨-, hstart, hadded⟩ | ⟨temp, hsome, -⟩
  · rw [Use.idle, hstart, hadded]
    rfl
  · rw [hstage] at hsome
    cases hsome

theorem room_eq_none_iff (hu : InUse v u) : u.room = none ↔ u.idle := by
  refine ⟨fun hroom => (hu.of_roomless hroom).2, fun hidle => ?_⟩
  cases hroom : u.room with
  | none => rfl
  | some p =>
    rw [(hu.of_room hroom).1] at hidle
    cases hidle

/-- What is staged is complete once there is a temporary file. -/
theorem stage (hu : InUse v u) (hroom : u.room = some p) : ∃ temp, u.handle.stage = some ⟨temp, u.staged⟩ ∧
    temp.getLast? ≠ some '/' ∧ v.find .entry temp = .ok (p, .file []) := by
  obtain ⟨-, temp, htemp, hfind⟩ := hu.of_room hroom
  rcases hu.pending.stage with ⟨hnone, -, -⟩ | ⟨temp', hstage, hstands⟩
  · rw [(temp?_eq_none _).mpr hnone] at htemp
    cases htemp
  · obtain rfl : temp' = temp := by simpa [temp?, hstage] using htemp
    exact ⟨temp', hstage, hstands.noSlash, hfind⟩

/-- A handle stays in use while its file is not written to and its temporary file stands. -/
theorem keep (hu : InUse v u) (hreads : ∀ o c, c ≠ [] → Reads v o c → Reads w o c)
    (htemps : ∀ temp p, u.handle.temp? = some temp → v.find .entry temp = .ok (p, .file []) →
      w.find .entry temp = .ok (p, .file [])) : InUse w u := by
  have hfile : ∀ o, u.start.file? = some o → ∃ c, c ≠ [] ∧ Reads u.begun o c ∧ Reads w o c := by
    intro o ho
    obtain ⟨c, hc, hbegun, hnow⟩ := hu.reads o ho
    exact ⟨c, hc, hbegun, hreads o c hc hnow⟩
  have hbytes : u.handle.bytes w = u.handle.bytes v := by
    rw [hu.bytes, Handle.bytes, Handle.bytes, hu.pending.file?]
    cases hstart : u.start.file? with
    | none => rfl
    | some o =>
      obtain ⟨c, -, hbegun, hnow⟩ := hfile o hstart
      rw [Option.map_some, Option.map_some, hbegun.contentOf, hnow.contentOf]
  have hstage := hu.pending.stage
  rcases hu.room with ⟨hroom, htemp⟩ | ⟨p, temp, hroom, hidle, htemp, hfind⟩
  · refine ⟨hu.got, { hu.pending with holds := hu.pending.holds.congr hbytes, stage := ?_ }, hfile,
      .inl ⟨hroom, htemp⟩⟩
    refine hstage.imp_right fun ⟨temp, hsome, _⟩ => ?_
    rw [(temp?_eq_none _).mp htemp] at hsome
    cases hsome
  · have hfind := htemps temp p htemp hfind
    refine ⟨hu.got, { hu.pending with holds := hu.pending.holds.congr hbytes, stage := ?_ }, hfile,
      .inr ⟨p, temp, hroom, hidle, htemp, hfind⟩⟩
    refine hstage.imp_right fun ⟨temp', hsome, hstands⟩ => ⟨temp', hsome, hstands.noSlash, p, [], ?_⟩
    obtain rfl : temp' = temp := by simpa [temp?, hsome] using htemp
    exact hfind

end InUse

/-- A path that may be written leads to a file, or nothing stands there. -/
theorem absent_of_locate_file (hv : v.Sound) (hl : v.locate .file path = .ok p) (hdir : v.item? p ≠ some .dir)
    (hfile : v.isFile path = false) : v.item? p = none := by
  obtain ⟨hu, hlead⟩ := locate_eq_ok_iff.mp hl
  have hstart := locate_dir_start hl
  cases hi : v.item? p with
  | none => rfl
  | some i =>
    cases i with
    | dir => exact absurd hi hdir
    | link t => exact absurd hi (hlead.not_link hv nofun (fun t ht => by rw [hstart] at ht; cases ht) t)
    | file c =>
      have hfind : v.find .item path = .ok (p, .file c) :=
        find_eq_ok_iff.mpr ⟨locate_eq_ok_iff.mpr ⟨hu, hlead.item_of_file⟩, hi⟩
      rw [isFile, hfind] at hfile
      cases hfile

/-- An empty archive that is put where no file is can be opened at its path. -/
theorem load_written (hv : v.Sound) (hfile : v.isFile path = false)
    (hwrite : v.write path Zip.emptyArchive = .ok w) :
    ∃ p, load w path = .ok (ofEntries path (some (w.opened p)) []) ∧ w.canonical path = .ok p ∧
      Frame (· = p) v w ∧ v.item? p = none ∧ w.file? p = some Zip.emptyArchive := by
  obtain ⟨p, hl, hdir, hw⟩ := write_eq_ok hwrite
  have hnone := absent_of_locate_file hv hl hdir hfile
  have hne : p ≠ [] := fun he => hdir (by rw [he]; rfl)
  have hput := frame_put hv hne (hv.locate_above hl) (.inl hnone) Zip.emptyArchive
  have hitem : w.item? p = some (.file Zip.emptyArchive) := by
    rw [hw, item?_put _ p p _ hne, if_pos rfl]
  rw [← hw] at hput
  obtain ⟨hu, hlead⟩ := locate_eq_ok_iff.mp hl
  have hfind : w.find .item path = .ok (p, .file Zip.emptyArchive) := by
    refine find_eq_ok_iff.mpr ⟨locate_eq_ok_iff.mpr ⟨hu, ?_⟩, hitem⟩
    rw [hput.here]
    exact hlead.item_of_file.keepWays hput.toKeepsWays fun _ _ => ⟨_, hitem⟩
  have hindex : Zip.index Zip.emptyArchive = .ok [] := rfl
  refine ⟨p, load_of_find hfind hindex, ?_, hput, hnone, file?_eq_some_iff.mpr hitem⟩
  rw [canonical, hfind]
  rfl

/-- Opening makes directories, or puts an empty archive where no file is. -/
theorem openAt_frame {create : Bool} {r : Except Fault Handle} (hv : v.Sound)
    (hrun : Disk.on v (openAt path create) = (r, w))
    (hcalm : create = true → v.isFile path = false → (v.parentsMade path).isFile path = false) :
    (Frame (fun _ => False) v w ∧ ∀ h, r = .ok h → v.isFile path) ∨
      ∃ h p, r = .ok h ∧ v.isFile path = false ∧ w.canonical path = .ok p ∧ Frame (· = p) v w ∧
        v.file? p = none ∧ w.file? p = some Zip.emptyArchive := by
  obtain ⟨hg, hfiles⟩ := grows_parentsMade v path
  rcases openAt_cases hrun with ⟨rfl, hload⟩ | ⟨hcreate, hfile, ⟨rfl, f, rfl⟩ | ⟨hwrite, hload⟩⟩
  · exact .inl ⟨.refl hv, fun h hh => (hload h hh).1⟩
  · exact .inl ⟨hg.frame hv fun r _ => hfiles r, nofun⟩
  · obtain ⟨p, hopens, hcan, hput, hnone, hitem⟩ := load_written (hg.sound hv) (hcalm hcreate hfile) hwrite
    refine .inr ⟨_, p, hload.trans hopens, hfile, hcan, (hg.frame hv fun r _ => hfiles r).trans hput, ?_, hitem⟩
    rw [← hfiles p, Volume.file?, hnone]

theorem inUse_opened {create : Bool} (hv : v.Sound) (hrun : Disk.on v (openAt path create) = (.ok h, w)) :
    InUse w (.ofStart v w h) ∧ (Use.ofStart v w h).room = none := by
  obtain ⟨old, hs⟩ := started_openAt hv hrun
  obtain ⟨p, bytes, es, hf, hindex, rfl⟩ := load_eq_ok (openAt_eq_ok hv hrun).2
  obtain rfl := hs.pending.holds.members
  refine ⟨⟨hs, hs.pending, fun o ho => ?_, .inl ⟨rfl, rfl⟩⟩, rfl⟩
  cases ho
  have hreads := reads_opened (find_eq_ok_iff.mp hf).2
  refine ⟨bytes, ?_, hreads, hreads⟩
  rintro rfl
  cases hindex

theorem inUse_created (hv : v.Sound) (hrun : Disk.on v (Handle.create path) = (.ok h, w)) :
    InUse w (.ofStart v w h) ∧ Grows v w ∧
      ∃ temp p, (Use.ofStart v w h).room = some p ∧ Fresh v w temp p := by
  have hs := started_create hv hrun
  obtain ⟨hg, temp, p, heq, hfresh⟩ := create_eq_ok hrun
  have htemp : h.temp? = some temp := by
    rw [heq]
    rfl
  have hfile : h.file? = none := by
    rw [heq]
    rfl
  have hroom : (Use.ofStart v w h).room = some p := room?_of_find htemp hfresh.find
  have hmembers : h.members w = [] := hs.pending.holds.members
  have hidle : (Use.ofStart v w h).idle = false := by
    rw [Use.idle, Use.ofStart, heq]
    rfl
  refine ⟨⟨?_, ?_, fun o ho => ?_, .inr ⟨p, temp, hroom, hidle, htemp, hfresh.find⟩⟩, hg, temp, p, hroom, hfresh⟩
  · show Started v w h.path h (h.members w)
    rw [hmembers, hs.named]
    exact hs
  · show Handle.Pending h h w (h.members w) []
    rw [hmembers]
    exact hs.pending
  · cases hfile.symm.trans ho

theorem idle_called {c : Call} {r : Except Fault Unit} (h : u.idle = false) : (u.called v w c r h').idle = false := by
  rw [Use.idle, Bool.and_eq_false_iff] at h ⊢
  refine h.imp_right fun hadded => ?_
  rw [List.isEmpty_eq_false_iff] at hadded ⊢
  exact fun hnil => hadded (List.append_eq_nil_iff.mp hnil).1

/-- A handle in which more has come to be present is not idle. -/
theorem not_idle_of_longer (hp : Handle.Pending u.start h v old u.added)
    (hlen : u.start.present.length < h.present.length) : u.idle = false := by
  rw [Use.idle, Bool.and_eq_false_iff]
  refine .inr (List.isEmpty_eq_false_iff.mpr fun hnil => ?_)
  rw [hp.present, hnil, List.map_nil, List.append_nil] at hlen
  exact Nat.lt_irrefl _ hlen

/-- What a call leaves of a handle: its temporary file is made with the first member that is added. -/
theorem InUse.called (hu : InUse v u) {c : Call} {r : Except Fault Unit} (hc : ∀ f, ¬ c.Unreadable v f)
    (hrun : Staging.on v u.handle c.run = ((r, h'), w)) : InUse w (u.called v w c r h') ∧ Grows v w ∧
      ((u.called v w c r h').room = u.room ∧ (∀ q, w.file? q = v.file? q) ∨
        u.room = none ∧ ∃ temp p, (u.called v w c r h').room = some p ∧ Fresh v w temp p) := by
  have ha := advances_run c v u.handle u.old hu.pending.holds
  rw [hrun] at ha
  have hp : Handle.Pending u.start h' w u.old (u.called v w c r h').added := by
    cases r with
    | ok => exact (hu.pending.call_ok (.refl v) hrun).2
    | error f =>
      have hp := (hu.pending.call_error hrun (hc f)).2
      rw [← List.append_nil u.added] at hp
      exact hp
  have hreads : ∀ o, u.start.file? = some o → ∃ c, c ≠ [] ∧ Reads u.begun o c ∧ Reads w o c := by
    intro o ho
    obtain ⟨c, hc, hbegun, hnow⟩ := hu.reads o ho
    exact ⟨c, hc, hbegun, hnow.congr ha.grows.lost (ha.grows.kept _ _)⟩
  have hroom : (u.called v w c r h').room = u.room.or (h'.room? w) := rfl
  rcases ha.temp with ⟨htemp, hfiles⟩ | ⟨hnone, hlen, temp, p, hsome, hfresh⟩
  · rcases hu.room with ⟨hold, hnone⟩ | ⟨p, temp, hold, hidle, hsome, hfind⟩
    · have hnone := htemp.trans hnone
      have hnew : (u.called v w c r h').room = none := by
        rw [hroom, hold, room?, hnone]
        rfl
      exact ⟨⟨hu.got, hp, hreads, .inl ⟨hnew, hnone⟩⟩, ha.grows, .inl ⟨hnew.trans hold.symm, hfiles⟩⟩
    · have hnew : (u.called v w c r h').room = some p := by rw [hroom, hold, Option.some_or]
      exact ⟨⟨hu.got, hp, hreads, .inr ⟨p, temp, hnew, idle_called hidle, htemp.trans hsome, ha.grows.find hfind⟩⟩,
        ha.grows, .inl ⟨hnew.trans hold.symm, hfiles⟩⟩
  · have hold : u.room = none := by
      rcases hu.room with ⟨hold, -⟩ | ⟨p, temp, -, -, htemp, -⟩
      · exact hold
      · rw [hnone] at htemp
        cases htemp
    have hnew : (u.called v w c r h').room = some p := by
      rw [hroom, hold, Option.none_or, room?_of_find hsome hfresh.find]
    have hidle : (u.called v w c r h').idle = false := by
      refine not_idle_of_longer hp (Nat.lt_of_le_of_lt ?_ hlen)
      rw [hu.pending.present, List.length_append]
      exact Nat.le_add_right _ _
    exact ⟨⟨hu.got, hp, hreads, .inr ⟨p, temp, hnew, hidle, hsome, hfresh.find⟩⟩, ha.grows,
      .inr ⟨hold, temp, p, hnew, hfresh⟩⟩

end Patchwork
