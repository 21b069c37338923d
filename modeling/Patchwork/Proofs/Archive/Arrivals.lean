import Patchwork.Proofs.Archive.LaidOut
import Patchwork.Proofs.Archive.Selection
import Patchwork.Proofs.Archive.Transfer

/-!
# What arrives in an archive

Copying entries one after the other does what adding everything at once does: for each entry the directories on the
way to it that are not there yet, and then the entry, unless it is a directory that is there.  It gets stuck at a
regular file whose path is taken by then.
-/
namespace Patchwork

open Handle Volume
open Zip (Listed Member)

variable {u v w : Volume} {h h' input : Handle} {e : Listed} {m : Member} {ms more : List Member} {es : List Listed}
  {s : Stage} {adds : List Addition} {f : FilterSet} {path : Text} {present : List Text} {α β : Type}

/-! ### Adding -/

theorem Handle.put_nil (h : Handle) : h.put [] = h := by
  cases h with
  | mk path file? opened present stage => cases stage <;> simp [Handle.put]

theorem Handle.put_put (h : Handle) (adds more : List Addition) :
    (h.put adds).put more = h.put (adds ++ more) := by
  cases h with
  | mk path file? opened present stage => cases stage <;> simp [Handle.put]

theorem Handle.stage_put (hstage : h.stage = some s) (adds : List Addition) :
    (h.put adds).stage = some { s with members := s.members ++ adds.map (·.2) } := by
  rw [Handle.put, hstage]
  rfl

theorem Staging.on_bind_congr {p : Staging α} {f g : α → Staging β}
    (hfg : ∀ a h' w, on v h p = ((.ok a, h'), w) → on w h' (f a) = on w h' (g a)) :
    on v h (p >>= f) = on v h (p >>= g) := by
  rw [on_bind, on_bind]
  split
  · next a h' w hp => exact hfg a h' w hp
  · rfl

/-- Adds members to what is staged through a handle. -/
def Staging.add (adds : List Addition) : Staging Unit := change (·.add adds)

theorem Staging.on_add_nil : on v h (add []) = ((.ok (), h), v) := rfl

theorem Staging.on_add (hadds : adds ≠ []) : on v h (add adds) = match Disk.on v h.begin with
    | (.ok b, w) => ((.ok (), b.put adds), w)
    | (.error e, w) => ((.error e, h), w) := by
  have hadd : h.add adds v = Disk.on v (h.begin >>= fun b => pure (b.put adds)) := by
    rw [Handle.add, if_neg hadds]
    rfl
  simp only [Staging.add, on, change, hadd, Disk.on_bind]
  cases Disk.on v h.begin with
  | mk r w => cases r <;> rfl

theorem Staging.on_add_staged (hstage : h.stage = some s) (adds : List Addition) :
    on v h (add adds) = ((.ok (), h.put adds), v) := by
  by_cases hadds : adds = []
  · rw [hadds, on_add_nil, put_nil]
  · rw [on_add hadds, begin_of_stage hstage]

/-- Adding some members and then others is adding all of them. -/
theorem Staging.on_add_add (v : Volume) (h : Handle) (adds more : List Addition) :
    on v h (add adds >>= fun _ => add more) = on v h (add (adds ++ more)) := by
  by_cases hadds : adds = []
  · rw [hadds, on_bind, on_add_nil, List.nil_append]
  · rw [on_bind, on_add hadds, on_add (List.append_ne_nil_of_left_ne_nil hadds more)]
    cases hbegin : Disk.on v h.begin with
    | mk r w =>
      cases r with
      | error e => rfl
      | ok b =>
        obtain ⟨s, hs⟩ := Option.ne_none_iff_exists'.mp (begin_staged hbegin).2
        dsimp only
        rw [on_add_staged (stage_put hs adds), put_put]

theorem grows_begin (hrun : Disk.on v h.begin = (.ok h', w)) : Grows v w := by
  cases hstage : h.stage with
  | some s =>
    rw [begin_of_stage hstage] at hrun
    cases hrun
    exact .refl v
  | none =>
    unfold Handle.begin at hrun
    rw [hstage] at hrun
    obtain ⟨⟨⟩, u, hdirs, hrun⟩ := Disk.on_bind_eq_ok hrun
    obtain ⟨temp, x, htemp, hrun⟩ := Disk.on_bind_eq_ok hrun
    obtain ⟨r, y, hread, hrun⟩ := Disk.on_bind_eq_ok hrun
    have hgrow := Disk.grows_createDirAll (Path.directory h.path) v
    rw [Disk.on_io_eq_ok hdirs] at hgrow
    rw [Disk.on_outcome_ask] at hread
    cases hread
    have hg := hgrow.trans (Disk.createTemp_eq_ok (Disk.on_io_eq_ok htemp)).1
    split at hrun
    · cases hrun
      exact hg
    · obtain ⟨⟨⟩, z, -, hthrow⟩ := Disk.on_bind_eq_ok hrun
      cases hthrow

theorem grows_add (hrun : Staging.on v h (Staging.add adds) = ((.ok (), h'), w)) : Grows v w := by
  by_cases hadds : adds = []
  · rw [hadds, Staging.on_add_nil] at hrun
    cases hrun
    exact .refl v
  · rw [Staging.on_add hadds] at hrun
    split at hrun
    · next hbegin =>
      cases hrun
      exact grows_begin hbegin
    · cases hrun

theorem present_add (hrun : Staging.on v h (Staging.add adds) = ((.ok (), h'), w)) :
    h'.present = h.present ++ adds.map (·.1) := (add_staged (Staging.on_change_eq_ok hrun)).present

/-! ### Entries that are copied -/

/-- No regular file among some members comes to a path that is taken by then. -/
def Admits (present : List Text) : List Member → Prop
  | [] => True
  | m :: ms => (m.kind = .file → m.path ∉ present) ∧ Admits (present ++ (arrival present m).map (·.1)) ms

/-- Where nothing lies below a regular file, all members of an archive are admitted. -/
theorem Orderly.admits (ho : Orderly ms) (hfree : ∀ m ∈ ms, m.kind = .file → m.path ∉ present) :
    Admits present ms := by
  induction ms generalizing present with
  | nil => trivial
  | cons m ms ih => exact ⟨hfree m List.mem_cons_self, ih ho.tail (ho.free hfree)⟩

/-- An entry is copied by adding what arrives with it. -/
theorem on_copyFrom_add (he : input.entry? (Entry.normalize path) = some e) (hm : input.memberOf v e = .ok m)
    (hfree : m.kind = .file → m.path ∉ h.present) :
    Staging.on v h (Staging.copyFrom input path) = Staging.on v h (Staging.add (arrival h.present m)) := by
  have hheader := memberOf_header hm
  have hkind : e.kind = m.kind := (congrArg Zip.Header.kind hheader).symm
  have hpath : Entry.normalize path = m.path := (path_entry he).symm.trans (congrArg Zip.Header.path hheader).symm
  have hget : Staging.on v h (getThe Handle : Staging Handle) = ((.ok h, h), v) := rfl
  unfold Staging.copyFrom arrival
  dsimp only
  rw [he, hpath]
  dsimp only
  rw [Staging.on_bind, hget]
  dsimp only
  rw [hkind]
  split
  · rfl
  · next hgoes =>
    have habsent : m.path ∉ h.present := by
      cases hk : m.kind with
      | file => exact hfree hk
      | dir => exact fun hin => hgoes ⟨hk, hin⟩
    rw [Staging.on_bind, Staging.on_requireAbsent, if_neg habsent]
    dsimp only
    rw [← Staging.on_add_add]
    have hparents : Staging.on v h (Staging.createParents m.path) =
        Staging.on v h (Staging.add (missingParents h.present m.path)) := rfl
    rw [Staging.on_bind, hparents, ← Staging.on_bind]
    refine Staging.on_bind_congr fun _ g w hmade => ?_
    rw [Staging.on_bind, Staging.on_ask, memberOf_grow (grows_add hmade), hm]
    rfl

/-- By induction on the entries.  What is read of them stays the same while the volume grows. -/
theorem on_copyEach_add (hfound : ∀ e ∈ es, input.entry? e.path = some e)
    (hread : List.Forall₂ (fun e m => input.memberOf v e = .ok m) es ms) (hg : Grows v w)
    (hfree : Admits h.present ms) :
    Staging.on w h (Staging.copyEach input (es.map (·.path))) =
      Staging.on w h (Staging.add (arrivals h.present ms)) := by
  induction hread generalizing w h with
  | nil => rfl
  | @cons e m es ms hm _ ih =>
    have he : input.entry? (Entry.normalize e.path) = some e := by
      rw [show Entry.normalize e.path = e.path from Entry.normalize_normalize e.name]
      exact hfound e List.mem_cons_self
    rw [← memberOf_grow hg] at hm
    rw [List.map_cons, Staging.copyEach, arrivals, ← Staging.on_add_add, Staging.on_bind,
      on_copyFrom_add he hm hfree.1, ← Staging.on_bind]
    refine Staging.on_bind_congr fun _ g x hadd => ?_
    have hpresent := present_add hadd
    rw [← hpresent]
    refine ih (fun e he => hfound e (List.mem_cons_of_mem _ he)) (hg.trans (grows_add hadd)) ?_
    rw [hpresent]
    exact hfree.2

theorem copyEach_append (input : Handle) (paths rest : List Text) (v : Volume) (h : Handle) :
    Staging.on v h (Staging.copyEach input (paths ++ rest)) =
      Staging.on v h (Staging.copyEach input paths >>= fun _ => Staging.copyEach input rest) := by
  induction paths generalizing v h with
  | nil => rfl
  | cons path paths ih =>
    rw [List.cons_append, Staging.copyEach, Staging.copyEach, bind_assoc]
    exact Staging.on_bind_congr fun _ g w _ => ih w g

/-! ### The archive that is read -/

theorem forall₂_of_mapM {α β ε : Type} {f : α → Except ε β} {as : List α} {bs : List β}
    (hrun : as.mapM f = .ok bs) : List.Forall₂ (fun a b => f a = .ok b) as bs := by
  induction as generalizing bs with
  | nil =>
    cases hrun
    exact .nil
  | cons a as ih =>
    rw [List.mapM_cons] at hrun
    simp only [bind, Except.bind] at hrun
    split at hrun
    · cases hrun
    · next b hb =>
      split at hrun
      · cases hrun
      · next bs' hbs =>
        cases hrun
        exact .cons hb (ih hbs)

theorem Handle.Holds.paths (hh : input.Holds v ms) : input.opened.map (·.path) = ms.map (·.path) := by
  have hheaders := Zip.mapM_header (mapM_ok_of_imp (fun _ _ => memberOf_eq_ok_iff.mp) hh)
  have hpaths := congrArg (List.map Zip.Header.path) hheaders
  rw [List.map_map, List.map_map] at hpaths
  exact hpaths.symm

/-- Of entries with different paths, each is found at its own. -/
theorem Handle.Holds.found (hh : input.Holds v ms) (hnodup : (ms.map (·.path)).Nodup)
    (hsub : ∀ e ∈ es, e ∈ input.opened) : ∀ e ∈ es, input.entry? e.path = some e := by
  rw [← hh.paths] at hnodup
  exact fun e he => entry?_of_nodup hnodup (hsub e he)

/-- What is chosen by kind and path is chosen among the entries as it is among the members. -/
theorem Handle.Holds.filter (hh : input.Holds v ms) (keep : EntryKind → Text → Bool) :
    List.Forall₂ (fun e m => input.memberOf v e = .ok m) (input.opened.filter fun e => keep e.kind e.path)
      (ms.filter fun m => keep m.kind m.path) := by
  refine List.rel_filter (fun e m hm => ?_) (forall₂_of_mapM hh)
  have hheader : m.toHeader = e.toHeader := memberOf_header hm
  have hpath : m.path = e.path := congrArg Zip.Header.path hheader
  have hkind : m.kind = e.kind := congrArg Zip.Header.kind hheader
  dsimp only
  rw [hpath, hkind]

/-- The entries that are taken are those of the files that are accepted. -/
theorem Handle.Holds.taken (hh : input.Holds v ms) :
    List.Forall₂ (fun e m => input.memberOf v e = .ok m) (input.taken f) (accepted f.accepts ms) :=
  hh.filter fun kind path => kind = .file && f.accepts path

/-- The report counts the regular files of the archive. -/
theorem Handle.Holds.report (hh : input.Holds v ms) (f : FilterSet) :
    (input.report f).copied = (accepted f.accepts ms).length ∧
      (input.report f).copied + (input.report f).skipped = (ms.filter (·.kind = .file)).length := by
  have hlength (f : FilterSet) : (input.selected f).length = (accepted f.accepts ms).length := by
    rw [selected_eq, List.length_map]
    exact hh.taken.length_eq
  have hall : accepted FilterSet.all.accepts ms = ms.filter (·.kind = .file) :=
    List.filter_congr fun m _ => Bool.and_true _
  have hfiles : input.files.length = (ms.filter (·.kind = .file)).length := by
    rw [← hall, ← hlength]
    exact congrArg List.length (List.filter_true _).symm
  have hle : (input.selected f).length ≤ input.files.length := List.length_filter_le _ _
  refine ⟨hlength f, ?_⟩
  rw [← hfiles]
  exact Nat.add_sub_of_le hle

end Patchwork
