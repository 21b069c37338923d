import Patchwork.Proofs.Archive.Arrivals

/-!
# Copying into a new archive

Copying the accepted files of an archive into a new one does what writing a file as a whole does.  Whether it
goes well therefore depends on the destination alone, and afterwards the new archive stands there.
-/
namespace Patchwork

open Handle Volume
open Zip (Listed Member)
open Disk (dirsMade)

variable {v w : Volume} {h input : Handle} {e : Listed} {m : Member} {ms : List Member} {s : Stage}
  {f : FilterSet} {source dest path : Text} {c : Bytes} {α : Type}

/-! ### Staging the files -/

theorem on_change_staged (hstage : h.stage = some s) (adds : Handle → List Addition) :
    Staging.on v h (Staging.change fun h => h.add (adds h)) = ((.ok (), h.put (adds h)), v) :=
  Staging.on_add_staged hstage (adds h)

/-- What is copied to a free path is staged behind the directories on the way to it. -/
theorem on_copyFrom (he : input.entry? (Entry.normalize path) = some e)
    (hm : input.memberOf v e = .ok m) (hstage : h.stage = some s) (hfree : m.path ∉ h.present) :
    Staging.on v h (Staging.copyFrom input path) =
      ((.ok (), h.put (missingParents h.present m.path ++ [(m.path, m.copied)])), v) := by
  rw [on_copyFrom_add he hm fun _ => hfree, Staging.on_add_staged hstage, arrival, if_neg fun hd => hfree hd.2]

/-! ### The archive that is read -/

/-- There is an archive of some members at a path. -/
def Volume.HasArchive (v : Volume) (path : Text) (ms : List Member) : Prop :=
  ∃ bytes a, v.read path = .ok bytes ∧ Zip.read bytes = .ok a ∧ a.members = ms

theorem Volume.HasArchive.opens (ha : v.HasArchive source ms) :
    ∃ input, Disk.on v (openAt source false) = (.ok input, v) ∧ input.Holds v ms := by
  obtain ⟨bytes, a, hread, harch, rfl⟩ := ha
  obtain ⟨p, hf⟩ := read_eq_ok_iff.mp hread
  obtain ⟨es, hes, hms⟩ := Zip.index_of_read harch
  refine ⟨ofEntries source (some (v.opened p)) es, ?_, mapM_memberOf ?_⟩
  · rw [on_openAt_false, if_pos (isFile_iff.mpr ⟨p, bytes, hf⟩), load_of_find hf hes]
  · have hbytes : (ofEntries source (some (v.opened p)) es).bytes v = bytes :=
      contentOf_opened (find_eq_ok_iff.mp hf).2
    rw [hbytes]
    exact hms

theorem on_filterCopy (hh : input.Holds v ms) (ho : Orderly ms) (hstage : h.stage = some s)
    (hpresent : h.present = []) : Staging.on v h (Staging.filterCopy input f) =
      ((.ok (input.report f), h.put (copies [] (accepted f.accepts ms))), v) := by
  have hfound : ∀ e ∈ input.taken f, input.entry? e.path = some e :=
    hh.found ho.nodup fun e he => List.mem_of_mem_filter he
  have hfree : Admits h.present (accepted f.accepts ms) := by
    rw [hpresent]
    exact (ho.accepted f.accepts).admits fun _ _ _ => List.not_mem_nil
  rw [Staging.filterCopy, Staging.on_bind, selected_eq, on_copyEach_add hfound hh.taken (.refl v) hfree,
    Staging.on_add_staged hstage, hpresent, arrivals_files fun _ => kind_accepted]
  rfl

/-! ### The archive that is written -/

/-- A handle for a new archive with its temporary file. -/
def Handle.fresh (dest temp : Text) : Handle := { ofEntries dest none [] with stage := some ⟨temp, []⟩ }

theorem create_eq (dest : Text) : Handle.create dest = (do
    Disk.io (Disk.createDirAll (Path.directory dest))
    let temp ← Disk.io (Disk.createTemp (Path.directory dest))
    pure (Handle.fresh dest temp)) := rfl

/-- Staging members through a new handle and closing it writes all of them at once. -/
theorem on_create_finish {p : Staging α} {a : α} {adds : List Addition} (hp : ∀ temp x, Grows v x →
      Staging.on x (Handle.fresh dest temp) p = ((.ok a, (Handle.fresh dest temp).put adds), x)) :
    Disk.on v (Handle.create dest >>= fun output => output.finish p) =
      Disk.on v (Disk.writeAtomic dest (Zip.write (adds.map (·.2))) >>= fun _ => pure a) := by
  rw [create_eq, Disk.writeAtomic]
  simp only [bind_assoc, pure_bind]
  refine Disk.on_bind_congr fun _ u hdirs => Disk.on_bind_congr fun temp x htemp => ?_
  have hmade := Disk.grows_createDirAll (Path.directory dest) v
  rw [Disk.on_io_eq_ok hdirs] at hmade
  have hg := hmade.trans (Disk.createTemp_eq_ok (Disk.on_io_eq_ok htemp)).1
  rw [on_finish_ok (hp temp x hg)]
  rfl

/-- Copying into a new archive writes all of it at once. -/
theorem on_copyFresh (ha : v.HasArchive source ms) (ho : Orderly ms) (dest : Text) (f : FilterSet) :
    ∃ report, Disk.on v (Archive.copyFresh source dest f) = Disk.on v
      (Disk.writeAtomic dest (Zip.write (copyOf f.accepts ms)) >>= fun _ => pure report) := by
  obtain ⟨input, hopen, hh⟩ := ha.opens
  refine ⟨input.report f, ?_⟩
  rw [Archive.copyFresh, Disk.on_bind_of_ok hopen]
  exact on_create_finish fun temp x hg => on_filterCopy (hh.grow hg) ho rfl rfl

theorem on_create_close (v : Volume) (dest : Text) : Disk.on v (Handle.create dest >>= Handle.close) =
    Disk.on v (Disk.writeAtomic dest (Zip.write [])) := by
  rw [create_eq, Disk.writeAtomic]
  simp only [bind_assoc, pure_bind]
  rfl

/-- A new archive can be put at a path. -/
def Creatable (v : Volume) (dest : Text) : Prop :=
  ∃ w, Disk.on v (Handle.create dest >>= Handle.close) = (.ok (), w)

theorem writeAtomic_iff_creatable : (∃ w, Disk.on v (Disk.writeAtomic dest c) = (.ok (), w)) ↔ Creatable v dest := by
  have hiff (x : Except Fault Unit × Volume) : (∃ w, x = (.ok (), w)) ↔ x.1 = .ok () :=
    ⟨fun ⟨w, hx⟩ => by rw [hx], fun hx => ⟨x.2, Prod.ext hx rfl⟩⟩
  rw [Creatable, on_create_close, hiff, hiff, Disk.writeAtomic_result v dest c (Zip.write [])]

/-- A program that writes a file as a whole, and then answers, has written it if it succeeds. -/
theorem writes_of_eq {d : Disk Fault α} {a r : α}
    (hd : Disk.on v d = Disk.on v (Disk.writeAtomic dest c >>= fun _ => pure a))
    (hrun : Disk.on v d = (.ok r, w)) : r = a ∧ Disk.on v (Disk.writeAtomic dest c) = (.ok (), w) := by
  rw [hd] at hrun
  obtain ⟨⟨⟩, x, hwrite, hrest⟩ := Disk.on_bind_eq_ok hrun
  cases hrest
  exact ⟨rfl, hwrite⟩

/-- It succeeds wherever a new archive can be put. -/
theorem creatable_of_eq {d : Disk Fault α} {a : α}
    (hd : Disk.on v d = Disk.on v (Disk.writeAtomic dest c >>= fun _ => pure a)) :
    (∃ r w, Disk.on v d = (.ok r, w)) ↔ Creatable v dest := by
  refine Iff.trans ⟨fun ⟨r, w, hrun⟩ => ⟨w, (writes_of_eq hd hrun).2⟩, fun ⟨w, hwrite⟩ => ?_⟩
    (writeAtomic_iff_creatable (c := c))
  exact ⟨a, w, by rw [hd, Disk.on_bind_of_ok hwrite]; rfl⟩

/-- What is copied into a new archive has been written as a whole. -/
theorem copyFresh_writes {r : CopyReport} (ha : v.HasArchive source ms) (ho : Orderly ms)
    (hrun : Disk.on v (Archive.copyFresh source dest f) = (.ok r, w)) :
    Disk.on v (Disk.writeAtomic dest (Zip.write (copyOf f.accepts ms))) = (.ok (), w) := by
  obtain ⟨report, hcopy⟩ := on_copyFresh ha ho dest f
  exact (writes_of_eq hcopy hrun).2

/-- Copying goes well wherever a new archive can be put. -/
theorem copyFresh_iff_creatable (ha : v.HasArchive source ms) (ho : Orderly ms) :
    (∃ r w, Disk.on v (Archive.copyFresh source dest f) = (.ok r, w)) ↔ Creatable v dest := by
  obtain ⟨report, hcopy⟩ := on_copyFresh ha ho dest f
  exact creatable_of_eq hcopy

/-! ### The archive that is left -/

theorem sound_written (hv : v.Sound) (hrun : Disk.on v (Disk.writeAtomic dest c) = (.ok (), w)) : w.Sound := by
  rcases Disk.writeAtomic_cases hv hrun with ⟨_, hfail, -⟩ | ⟨-, hsound, -⟩
  · cases hfail
  · exact hsound

/-- What is read at the path that a file was written to is what was written. -/
theorem read_written {d : Bytes} (hv : v.Sound) (hrun : Disk.on v (Disk.writeAtomic dest c) = (.ok (), w))
    (hd : w.read dest = .ok d) : d = c := by
  rcases Disk.writeAtomic_cases hv hrun with ⟨_, hfail, -⟩ | ⟨-, -, q, hq, hw, hc⟩
  · cases hfail
  obtain ⟨r, hr⟩ := read_eq_ok_iff.mp hd
  have hi := (find_eq_ok_iff.mp hr).2
  rw [hw.find_self hq hr, hc] at hi
  cases hi
  rfl

/-- A file that is found once another one has been written is the one that was found, or the new one. -/
theorem read_beside_written {b d : Bytes} (hv : v.Sound)
    (hrun : Disk.on v (Disk.writeAtomic dest c) = (.ok (), w)) (hb : v.read path = .ok b)
    (hd : w.read path = .ok d) : d = b ∨ d = c := by
  rcases Disk.writeAtomic_cases hv hrun with ⟨_, hfail, -⟩ | ⟨-, -, q, -, hw, hc⟩
  · cases hfail
  obtain ⟨p, hp⟩ := read_eq_ok_iff.mp hb
  obtain ⟨r, hr⟩ := read_eq_ok_iff.mp hd
  rcases hw.find_file ((Disk.grows_dirsMade v dest).find hp) hr with rfl | hi
  · have hi := (find_eq_ok_iff.mp hr).2
    rw [hc] at hi
    cases hi
    exact .inr rfl
  · cases hi
    exact .inl rfl

/-- A new archive that lists some members stands where a path named it, and the path leads there, unless it
led through a link by that name. -/
def PutAt (v w : Volume) (path : Text) (ms : List Member) : Prop :=
  ∃ p, Lists w p ms ∧ (dirsMade v path).locate .entry path = .ok p ∧
    (w.canonical path = .ok p ∨ LostWithLink (dirsMade v path) w path p)

theorem PutAt.congr {ns : List Member} (h : PutAt v w path ms) (hsame : ms.map Member.record = ns.map Member.record) :
    PutAt v w path ns := by
  obtain ⟨p, ⟨bytes, a, hi, hread, hrecords⟩, hp⟩ := h
  exact ⟨p, ⟨bytes, a, hi, hread, hrecords.trans hsame⟩, hp⟩

theorem putAt_written (hv : v.Sound) (hzip : Zip.ReadsBack ms)
    (hrun : Disk.on v (Disk.writeAtomic dest (Zip.write ms)) = (.ok (), w)) : PutAt v w dest ms := by
  rcases Disk.writeAtomic_cases hv hrun with ⟨_, hfail, -⟩ | ⟨-, -, q, hq, hw, hc⟩
  · cases hfail
  refine ⟨q, ⟨_, _, hc, hzip, rfl⟩, hq, ?_⟩
  obtain ⟨hu, hl⟩ := locate_eq_ok_iff.mp hq
  by_cases hfile : w.isFile dest = true
  · obtain ⟨r, d, hr⟩ := isFile_iff.mp hfile
    refine .inl ?_
    rw [canonical, hr, hw.find_self hq hr]
    rfl
  · refine .inr ⟨hq, ?_, ?_⟩
    · refine (hw.leads_self hl).resolve_left fun hself => hfile (isFile_iff.mpr ⟨q, Zip.write ms, ?_⟩)
      exact find_eq_ok_iff.mpr ⟨locate_eq_ok_iff.mpr ⟨hu, hw.here ▸ hself⟩, hc⟩
    · rw [on_openAt_false, if_neg hfile]

end Patchwork
