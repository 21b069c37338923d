import Patchwork.Archive.Staging
import Patchwork.Proofs.Volume.Files
import Patchwork.Proofs.Volume.Programs

/-!
# What is pending in a handle

Between two calls a handle has the paths of all that was added present, and its stage, if it has one,
holds the members of the archive as it was opened and then what was added.
-/
namespace Patchwork.Handle

open Volume
open Zip (Listed Member)

variable {h h' start : Handle} {u v w : Volume} {old : List Member} {added adds : List Addition}

/-- The members of the archive, as it was when the handle got it. -/
def Holds (h : Handle) (v : Volume) (old : List Member) : Prop :=
  h.opened.mapM (h.memberOf v) = .ok old

/-- There is a file under a name that does not end in a slash. -/
structure Stands (v : Volume) (temp : Text) : Prop where
  noSlash : temp.getLast? ≠ some '/'
  file : ∃ p c, v.find .entry temp = .ok (p, .file c)

/-- The state of a handle when some members have been added since the start. -/
structure Pending (start h : Handle) (v : Volume) (old : List Member) (added : List Addition) :
    Prop where
  path : h.path = start.path
  file? : h.file? = start.file?
  opened : h.opened = start.opened
  holds : h.Holds v old
  present : h.present = start.present ++ added.map (·.1)
  stage : (h.stage = none ∧ start.stage = none ∧ added = []) ∨
    ∃ temp, h.stage = some ⟨temp, old.map Member.copied ++ added.map (·.2)⟩ ∧ Stands v temp

/-- A temporary file is new and empty at a place, and no other file is new. -/
structure Fresh (v w : Volume) (temp : Text) (p : Place) : Prop where
  noSlash : temp.getLast? ≠ some '/'
  absent : v.item? p = none
  find : w.find .entry temp = .ok (p, .file [])
  files : ∀ r, r ≠ p → w.file? r = v.file? r

theorem Fresh.stands {temp : Text} {p : Place} (hf : Fresh v w temp p) : Stands w temp :=
  ⟨hf.noSlash, p, [], hf.find⟩

theorem Fresh.grow {temp : Text} {p : Place} (hf : Fresh u v temp p) (hg : Grows v w)
    (hfiles : ∀ r, w.file? r = v.file? r) : Fresh u w temp p :=
  ⟨hf.noSlash, hf.absent, hg.find hf.find, fun r hr => (hfiles r).trans (hf.files r hr)⟩

theorem Fresh.of_grow {temp : Text} {p : Place} (hf : Fresh v w temp p) (hg : Grows u v)
    (hfiles : ∀ r, v.file? r = u.file? r) : Fresh u w temp p :=
  ⟨hf.noSlash, hg.absent hf.absent, hf.find, fun r hr => (hf.files r hr).trans (hfiles r)⟩

theorem Stands.grow {temp : Text} (hs : Stands v temp) (hg : Grows v w) : Stands w temp := by
  obtain ⟨p, c, hf⟩ := hs.file
  exact ⟨hs.noSlash, p, c, hg.find hf⟩

theorem memberOf_eq_ok_iff {e : Listed} {m : Member} :
    h.memberOf v e = .ok m ↔ e.member (h.bytes v) = .ok m := by
  unfold memberOf
  cases e.member (h.bytes v) with
  | ok m' =>
    show Except.ok m' = .ok m ↔ Except.ok m' = .ok m
    simp only [Except.ok.injEq]
  | error failure => exact ⟨nofun, nofun⟩

/-- What succeeds on every element of a list with one function does so with another one. -/
theorem mapM_ok_of_imp {α β ε ε' : Type} {f : α → Except ε β} {g : α → Except ε' β}
    (hfg : ∀ a b, f a = .ok b → g a = .ok b) {as : List α} {bs : List β} (h : as.mapM f = .ok bs) :
    as.mapM g = .ok bs := by
  induction as generalizing bs with
  | nil =>
    cases h
    rfl
  | cons a as ih =>
    rw [List.mapM_cons] at h ⊢
    simp only [bind, Except.bind] at h ⊢
    split at h
    · cases h
    · next b hb =>
      split at h
      · cases h
      · next bs' hbs =>
        rw [hfg a b hb]
        cases h
        simp only [ih hbs]
        rfl

theorem mapM_memberOf {es : List Listed} {ms : List Member}
    (hms : es.mapM (·.member (h.bytes v)) = .ok ms) : es.mapM (h.memberOf v) = .ok ms :=
  mapM_ok_of_imp (fun _ _ => memberOf_eq_ok_iff.mpr) hms

theorem memberOf_congr (hbytes : h.bytes w = h.bytes v) : h.memberOf w = h.memberOf v := by
  funext e
  rw [memberOf, memberOf, hbytes]

theorem Holds.congr (hh : h.Holds v old) (hbytes : h.bytes w = h.bytes v) : h.Holds w old := by
  rw [Holds, memberOf_congr hbytes]
  exact hh

theorem bytes_grow (hg : Grows v w) (h : Handle) : h.bytes w = h.bytes v := by
  unfold bytes
  cases h.file? with
  | none => rfl
  | some o => rw [Option.map_some, Option.map_some, hg.contentOf]

theorem memberOf_grow (hg : Grows v w) (h : Handle) (e : Listed) : h.memberOf w e = h.memberOf v e :=
  congrFun (memberOf_congr (bytes_grow hg h)) e

theorem Holds.grow (hh : h.Holds v old) (hg : Grows v w) : h.Holds w old := hh.congr (bytes_grow hg h)

/-- Every entry of an archive that a handle holds can be read. -/
theorem Holds.readable (hh : h.Holds v old) {e : Listed} (he : e ∈ h.opened) : ∃ m, h.memberOf v e = .ok m := by
  unfold Holds at hh
  generalize h.opened = es at hh he
  induction es generalizing old with
  | nil => cases he
  | cons e' es ih =>
    rw [List.mapM_cons] at hh
    simp only [bind, Except.bind] at hh
    split at hh
    · cases hh
    · next m hm =>
      split at hh
      · cases hh
      · next ms hms =>
        rcases List.mem_cons.mp he with rfl | he
        · exact ⟨m, hm⟩
        · exact ih hms he

theorem Pending.grow (hp : Pending start h v old added) (hg : Grows v w) :
    Pending start h w old added := by
  refine { hp with holds := hp.holds.grow hg, stage := hp.stage.imp_right ?_ }
  rintro ⟨temp, hstage, hstands⟩
  exact ⟨temp, hstage, hstands.grow hg⟩

/-- Staging starts with the members of the archive, which can be read then, in a new file beside it. -/
theorem begin_reads (hstage : h.stage = none) (hrun : Disk.on v h.begin = (.ok h', w)) :
    Grows v w ∧ ∃ old temp p, h.Holds v old ∧ h' = { h with stage := some ⟨temp, old.map Member.copied⟩ } ∧
      Fresh v w temp p := by
  unfold begin at hrun
  rw [hstage] at hrun
  obtain ⟨⟨⟩, u, hdirs, hrun⟩ := Disk.on_bind_eq_ok hrun
  obtain ⟨temp, x, htemp, hrun⟩ := Disk.on_bind_eq_ok hrun
  have hgrow := Disk.grows_createDirAll (Path.directory h.path) v
  have honly := Disk.onlyDirs_createDirAll (Path.directory h.path) v
  rw [Disk.on_io_eq_ok hdirs] at hgrow honly
  obtain ⟨hgrow', hslash, p, habsent, hfind, hothers⟩ := Disk.createTemp_eq_ok (Disk.on_io_eq_ok htemp)
  have hg := hgrow.trans hgrow'
  rw [Disk.on_bind_of_ok Disk.on_outcome_ask] at hrun
  split at hrun
  · next old hread =>
    cases hrun
    have hh : h.Holds v old := Holds.congr (v := w) hread (bytes_grow hg h).symm
    refine ⟨hg, old, temp, p, hh, rfl, hslash, hgrow.absent habsent, hfind, fun r hr => ?_⟩
    rw [Volume.file?, hothers r hr]
    exact hgrow.file? honly r
  · cases hrun

theorem begin_eq_ok (hh : h.Holds v old) (hstage : h.stage = none)
    (hrun : Disk.on v h.begin = (.ok h', w)) :
    Grows v w ∧ ∃ temp p, h' = { h with stage := some ⟨temp, old.map Member.copied⟩ } ∧
      Fresh v w temp p := by
  obtain ⟨hg, old', temp, p, hh', rfl, hfresh⟩ := begin_reads hstage hrun
  obtain rfl : old' = old := Except.ok.inj (hh'.symm.trans hh)
  exact ⟨hg, temp, p, rfl, hfresh⟩

/-- A new archive has nothing staged, in a new file beside its place. -/
theorem create_eq_ok {path : Text} (hrun : Disk.on v (Handle.create path) = (.ok h, w)) :
    Grows v w ∧ ∃ temp p, h = { ofEntries path none [] with stage := some ⟨temp, []⟩ } ∧ Fresh v w temp p := by
  have hh : (ofEntries path none []).Holds v [] := rfl
  exact begin_eq_ok hh rfl hrun

/-- Staging fails before it has put anything beside the archive. -/
theorem begin_eq_error {f : Fault} (hh : h.Holds v old) (hstage : h.stage = none)
    (hrun : Disk.on v h.begin = (.error f, w)) : Grows v w ∧ ∀ r, w.file? r = v.file? r := by
  unfold begin at hrun
  rw [hstage] at hrun
  have hgrow := Disk.grows_createDirAll (Path.directory h.path) v
  have honly := Disk.onlyDirs_createDirAll (Path.directory h.path) v
  rcases Disk.on_bind_eq_error hrun with hdirs | ⟨⟨⟩, u, hdirs, hrun⟩
  · obtain ⟨e, hdirs⟩ := Disk.on_io_eq_error hdirs
    rw [hdirs] at hgrow honly
    exact ⟨hgrow, hgrow.file? honly⟩
  · rw [Disk.on_io_eq_ok hdirs] at hgrow honly
    rcases Disk.on_bind_eq_error hrun with htemp | ⟨temp, x, htemp, hrun⟩
    · obtain ⟨e, htemp⟩ := Disk.on_io_eq_error htemp
      rw [Disk.createTemp_eq_error htemp]
      exact ⟨hgrow, hgrow.file? honly⟩
    · obtain ⟨hgrow', _⟩ := Disk.createTemp_eq_ok (Disk.on_io_eq_ok htemp)
      rcases Disk.on_bind_eq_error hrun with hread | ⟨r, y, hread, hrun⟩
      · cases hread
      · rw [Disk.on_outcome_ask, hh.grow (hgrow.trans hgrow')] at hread
        cases hread
        cases hrun

theorem begin_of_stage {s : Stage} (hstage : h.stage = some s) :
    Disk.on v h.begin = (.ok h, v) := by
  unfold begin
  rw [hstage]
  rfl

theorem Pending.put (hp : Pending start h v old added) {temp : Text}
    (hstage : h.stage = some ⟨temp, old.map Member.copied ++ added.map (·.2)⟩)
    (hstands : Stands v temp) (adds : List Addition) :
    Pending start (h.put adds) v old (added ++ adds) where
  path := hp.path
  file? := hp.file?
  opened := hp.opened
  holds := hp.holds
  present := by
    show h.present ++ _ = _
    rw [hp.present, List.map_append, List.append_assoc]
  stage := by
    refine Or.inr ⟨temp, ?_, hstands⟩
    show h.stage.map _ = _
    rw [hstage, Option.map_some, List.map_append, List.append_assoc]

theorem Pending.add (hp : Pending start h v old added)
    (hrun : Disk.on v (h.add adds) = (.ok h', w)) :
    Grows v w ∧ Pending start h' w old (added ++ adds) := by
  unfold Handle.add at hrun
  split at hrun
  · next hnil =>
    cases hrun
    rw [hnil, List.append_nil]
    exact ⟨.refl v, hp⟩
  · obtain ⟨b, u, hbegin, hrun⟩ := Disk.on_bind_eq_ok hrun
    cases hrun
    rcases hp.stage with ⟨hstage, _, hadded⟩ | ⟨temp, hstage, hstands⟩
    · obtain ⟨hg, temp, p, rfl, hfresh⟩ := begin_eq_ok hp.holds hstage hbegin
      have hpw := hp.grow hg
      subst hadded
      have hstaged : some (Stage.mk temp (old.map Member.copied)) =
          some ⟨temp, old.map Member.copied ++ ([] : List Addition).map (·.2)⟩ := by
        rw [List.map_nil, List.append_nil]
      have hpb : Pending start { h with stage := some ⟨temp, old.map Member.copied⟩ } w old [] :=
        ⟨hpw.path, hpw.file?, hpw.opened, hpw.holds, hpw.present, Or.inr ⟨temp, hstaged, hfresh.stands⟩⟩
      exact ⟨hg, hpb.put hstaged hfresh.stands adds⟩
    · rw [begin_of_stage hstage] at hbegin
      cases hbegin
      exact ⟨.refl v, hp.put hstage hstands adds⟩

/-- Adding fails only where nothing was staged before. -/
theorem add_eq_error {f : Fault} (hrun : Disk.on v (h.add adds) = (.error f, w)) :
    h.stage = none ∧ Disk.on v h.begin = (.error f, w) := by
  unfold Handle.add at hrun
  split at hrun
  · cases hrun
  · rcases Disk.on_bind_eq_error hrun with hbegin | ⟨b, u, hbegin, hrun⟩
    · cases hstage : h.stage with
      | none => exact ⟨rfl, hbegin⟩
      | some s =>
        rw [begin_of_stage hstage] at hbegin
        cases hbegin
    · cases hrun

theorem Pending.add_error {f : Fault} (hp : Pending start h v old added)
    (hrun : Disk.on v (h.add adds) = (.error f, w)) : Grows v w ∧ added = [] := by
  obtain ⟨hnone, hbegin⟩ := add_eq_error hrun
  rcases hp.stage with ⟨hstage, _, hadded⟩ | ⟨temp, hstage, _⟩
  · exact ⟨(begin_eq_error hp.holds hstage hbegin).1, hadded⟩
  · rw [hnone] at hstage
    cases hstage

end Patchwork.Handle
