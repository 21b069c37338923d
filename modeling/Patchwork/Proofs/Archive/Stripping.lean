import Patchwork.Proofs.Archive.Composition

/-!
# What stripping keeps

An archive is stripped by copying the files that are accepted and the directories that are accepted or lead to one of
them, in the order of the archive, into a new one.  This does what writing a file as a whole does.  The new archive
records just the directories that lead to one of these files, and those that are accepted with the ones on the way to
them; each stands once, before everything that is below it.
-/
namespace Patchwork

open Handle Volume
open Zip (Listed Member)

variable {v w : Volume} {h input : Handle} {f : FilterSet} {m : Member} {ms : List Member} {s : Stage}
  {source dest : Text} {r : CopyReport} {accepts : Text → Bool}

/-! ### What is kept -/

/-- Whether an entry is kept: it is accepted, or it is a directory on the way to a file that is accepted. -/
def keeps (accepts : Text → Bool) (ms : List Member) (kind : EntryKind) (path : Text) : Bool :=
  accepts path || (kind = .dir && decide (∃ m ∈ accepted accepts ms, path ∈ Entry.ancestors m.path))

/-- The members that are kept. -/
def kept (accepts : Text → Bool) (ms : List Member) : List Member :=
  ms.filter fun m => keeps accepts ms m.kind m.path

/-- The members of the archive that is left. -/
def stripOf (accepts : Text → Bool) (ms : List Member) : List Member := (arrivals [] (kept accepts ms)).map (·.2)

/-- A stripped archive has the regular files that are accepted, in their order and as they are stored.  A directory is
recorded in it just if it leads to one of them, or if it is recorded in the archive and accepted, or leads to such a
directory.  Each is recorded once, and before everything that is below it. -/
structure Strips (accepts : Text → Bool) (ms out : List Member) : Prop where
  files : (out.filter (·.kind = .file)).map Member.record = (accepted accepts ms).map Member.record
  dirs : ∀ d, (∃ m ∈ out, m.kind = .dir ∧ m.path = d) ↔ (∃ m ∈ accepted accepts ms, d ∈ Entry.ancestors m.path) ∨
    ∃ m ∈ ms, m.kind = .dir ∧ accepts m.path = true ∧ (m.path = d ∨ d ∈ Entry.ancestors m.path)
  nodup : (out.map (·.path)).Nodup
  below : ∀ before m after, out = before ++ m :: after →
    ∀ d ∈ Entry.ancestors m.path, ∃ n ∈ before, n.kind = .dir ∧ n.path = d

theorem keeps_file (accepts : Text → Bool) (ms : List Member) (path : Text) :
    keeps accepts ms .file path = accepts path := Bool.or_false _

theorem keeps_iff {kind : EntryKind} {path : Text} : keeps accepts ms kind path = true ↔ accepts path = true ∨
    kind = .dir ∧ ∃ m ∈ accepted accepts ms, path ∈ Entry.ancestors m.path := by
  rw [keeps, Bool.or_eq_true, Bool.and_eq_true, decide_eq_true_eq, decide_eq_true_eq]

theorem mem_kept : m ∈ kept accepts ms ↔ m ∈ ms ∧ (accepts m.path = true ∨
    m.kind = .dir ∧ ∃ n ∈ accepted accepts ms, m.path ∈ Entry.ancestors n.path) := by
  rw [kept, List.mem_filter, keeps_iff]

theorem files_kept (accepts : Text → Bool) (ms : List Member) :
    (kept accepts ms).filter (·.kind = .file) = accepted accepts ms := by
  rw [kept, accepted, List.filter_filter]
  refine List.filter_congr fun m _ => ?_
  cases hkind : m.kind with
  | file => rw [keeps_file]
  | dir => rfl

/-- The directories that are recorded because of what is kept. -/
theorem dirs_kept (d : Text) : (∃ m ∈ kept accepts ms, d ∈ Entry.ancestors m.path ∨ m.kind = .dir ∧ m.path = d) ↔
    (∃ m ∈ accepted accepts ms, d ∈ Entry.ancestors m.path) ∨
      ∃ m ∈ ms, m.kind = .dir ∧ accepts m.path = true ∧ (m.path = d ∨ d ∈ Entry.ancestors m.path) := by
  constructor
  · rintro ⟨m, hm, hd⟩
    obtain ⟨hin, haccepts | ⟨hdir, n, hn, habove⟩⟩ := mem_kept.mp hm
    · cases hkind : m.kind with
      | dir => exact .inr ⟨m, hin, hkind, haccepts, hd.symm.imp_left (·.2)⟩
      | file =>
        refine .inl ⟨m, mem_accepted.mpr ⟨hin, hkind, haccepts⟩, hd.resolve_right fun hdir => ?_⟩
        cases hkind.symm.trans hdir.1
    · refine .inl ⟨n, hn, ?_⟩
      rcases hd with hd | ⟨-, rfl⟩
      · exact Entry.mem_ancestors_of_prefix hd (Entry.prefix_of_mem_ancestors habove)
      · exact habove
  · rintro (⟨m, hm, hd⟩ | ⟨m, hm, hdir, haccepts, hd⟩)
    · obtain ⟨hin, -, haccepts⟩ := mem_accepted.mp hm
      exact ⟨m, mem_kept.mpr ⟨hin, .inl haccepts⟩, .inl hd⟩
    · exact ⟨m, mem_kept.mpr ⟨hm, .inl haccepts⟩, hd.symm.imp_right fun hd => ⟨hdir, hd⟩⟩

theorem strips_stripOf (ho : Orderly ms) (accepts : Text → Bool) : Strips accepts ms (stripOf accepts ms) := by
  have hgathers : Gathers (kept accepts ms) (stripOf accepts ms) := gathers_arrivals (ho.filter _)
  refine ⟨by rw [hgathers.files, files_kept], fun d => ?_, hgathers.nodup, hgathers.below⟩
  rw [hgathers.dirs, dirs_kept]

/-- Each member that is kept is there under its path, as a directory or as a regular file. -/
theorem Gathers.mem {out : List Member} (hg : Gathers ms out) (hm : m ∈ ms) :
    ∃ n ∈ out, n.path = m.path ∧ n.kind = m.kind := by
  cases hkind : m.kind with
  | dir =>
    obtain ⟨n, hn, hdir, hsame⟩ := (hg.dirs m.path).mpr ⟨m, hm, .inr ⟨hkind, rfl⟩⟩
    exact ⟨n, hn, hsame, hdir⟩
  | file =>
    have hin : m.record ∈ (out.filter (·.kind = .file)).map Member.record := by
      rw [hg.files]
      exact List.mem_map_of_mem (List.mem_filter.mpr ⟨hm, decide_eq_true hkind⟩)
    obtain ⟨n, hn, hrecord⟩ := List.mem_map.mp hin
    obtain ⟨hn, hfile⟩ := List.mem_filter.mp hn
    have hname : n.name = m.name := congrArg (·.1) hrecord
    exact ⟨n, hn, congrArg Entry.normalize hname, of_decide_eq_true hfile⟩

/-- Where everything is accepted, everything is kept. -/
theorem kept_all (hall : ∀ p, accepts p = true) (ms : List Member) : kept accepts ms = ms :=
  List.filter_eq_self.mpr fun m _ => keeps_iff.mpr (.inl (hall m.path))

/-! ### How it is written -/

theorem Handle.Holds.selected (hh : input.Holds v ms) (f : FilterSet) :
    input.selected f = (accepted f.accepts ms).map (·.path) := by
  have hpaths : List.Forall₂ (· = ·) ((input.taken f).map (·.path)) ((accepted f.accepts ms).map (·.path)) :=
    List.forall₂_map_left_iff.mpr (List.forall₂_map_right_iff.mpr
      (hh.taken.imp fun _ _ hm => (congrArg Zip.Header.path (memberOf_header hm)).symm))
  rwa [List.forall₂_eq_eq_eq, ← selected_eq] at hpaths

theorem mem_files_of_opened {e : Listed} (he : e ∈ h.opened) (hfile : e.kind = .file) : e.path ∈ h.files :=
  List.mem_map.mpr ⟨(e.path, e.kind), List.mem_filter.mpr ⟨List.mem_map_of_mem he, decide_eq_true hfile⟩, rfl⟩

/-- What is planned are the entries of the members that are kept. -/
theorem Handle.Holds.keptEntries (hh : input.Holds v ms) (f : FilterSet) : Archive.keptEntries input f =
    (input.opened.filter fun e => keeps f.accepts ms e.kind e.path).map (·.path) := by
  unfold Archive.keptEntries Handle.entries
  dsimp only
  rw [List.filter_map, List.map_map]
  refine congrArg _ (List.filter_congr fun e he => Bool.eq_iff_iff.mpr ?_)
  rw [keeps_iff, Function.comp_apply]
  cases hkind : e.kind with
  | dir => simp [hh.selected, or_comm]
  | file => simp [Handle.selected, mem_files_of_opened he hkind]

theorem Handle.Holds.kept (hh : input.Holds v ms) (f : FilterSet) :
    List.Forall₂ (fun e m => input.memberOf v e = .ok m)
      (input.opened.filter fun e => keeps f.accepts ms e.kind e.path) (kept f.accepts ms) :=
  hh.filter (keeps f.accepts ms)

/-- What is kept is staged through a handle that has nothing yet. -/
theorem on_copyKept (hh : input.Holds v ms) (hnodup : (ms.map (·.path)).Nodup)
    (hfree : Admits [] (kept f.accepts ms)) (hstage : h.stage = some s) (hpresent : h.present = []) :
    Staging.on v h (Staging.copyEach input (Archive.keptEntries input f)) =
      ((.ok (), h.put (arrivals [] (kept f.accepts ms))), v) := by
  have hfound : ∀ e ∈ input.opened.filter (fun e => keeps f.accepts ms e.kind e.path),
      input.entry? e.path = some e := hh.found hnodup fun e he => List.mem_of_mem_filter he
  rw [← hpresent] at hfree
  rw [hh.keptEntries, on_copyEach_add hfound (hh.kept f) (.refl v) hfree, Staging.on_add_staged hstage, hpresent]

/-- Stripping an archive whose entries that are kept find their paths free writes what is left of it at once. -/
theorem on_strip_admitted (ha : v.HasArchive source ms) (hnodup : (ms.map (·.path)).Nodup)
    (hfree : Admits [] (kept f.accepts ms)) (dest : Text) :
    ∃ input : Handle, input.Holds v ms ∧ Disk.on v (Archive.strip source dest f) = Disk.on v
      (Disk.writeAtomic dest (Zip.write (stripOf f.accepts ms)) >>= fun _ => pure (input.report f)) := by
  obtain ⟨input, hopen, hh⟩ := ha.opens
  refine ⟨input, hh, ?_⟩
  rw [Archive.strip, Disk.on_bind_of_ok hopen]
  refine on_create_finish fun temp x hg => ?_
  rw [Staging.on_bind, on_copyKept (hh.grow hg) hnodup hfree rfl rfl]
  rfl

/-- Stripping an archive in which nothing lies below a regular file writes what is left of it at once. -/
theorem on_strip (ha : v.HasArchive source ms) (ho : Orderly ms) (dest : Text) (f : FilterSet) :
    ∃ input : Handle, input.Holds v ms ∧ Disk.on v (Archive.strip source dest f) = Disk.on v
      (Disk.writeAtomic dest (Zip.write (stripOf f.accepts ms)) >>= fun _ => pure (input.report f)) :=
  on_strip_admitted ha ho.nodup ((ho.filter _).admits fun _ _ _ => List.not_mem_nil) dest

/-- What is left is read back as it was written unless it is too long, or a locator seems to stand at its end. -/
theorem readsBack_stripOf (ho : Orderly ms) (hms : ∀ m ∈ ms, Zip.Fits m) (hend : Zip.EndFits (stripOf accepts ms)) :
    Zip.ReadsBack (stripOf accepts ms) :=
  Zip.read_write (fits_arrivals (ho.filter _) fun m hm => hms m (List.mem_of_mem_filter hm)) hend

/-- Stripping an archive goes well wherever a new archive can be put, and then the archive there has what is kept: the
files that copying into a new archive takes, and the directories that lead to them or are kept for themselves. -/
theorem strip_keeps (hv : v.Sound) (ha : v.HasArchive source ms) (ho : Orderly ms)
    (hzip : Zip.ReadsBack (stripOf f.accepts ms)) :
    ((∃ r w, Disk.on v (Archive.strip source dest f) = (.ok r, w)) ↔ Creatable v dest) ∧
    ∀ r w, Disk.on v (Archive.strip source dest f) = (.ok r, w) →
      r.copied = (accepted f.accepts ms).length ∧
      r.copied + r.skipped = (ms.filter (·.kind = .file)).length ∧
      ∃ out, PutAt v w dest out ∧ Strips f.accepts ms out ∧
        ((∀ p, f.accepts p = true) → ∀ m ∈ ms, ∃ n ∈ out, n.path = m.path ∧ n.kind = m.kind) ∧
        ∀ b r' x, Zip.ReadsBack (copyOf f.accepts ms) → Disk.on v (Archive.copyFresh source b f) = (.ok r', x) →
          ∃ copy, PutAt v x b copy ∧
            (copy.filter (·.kind = .file)).map Member.record = (out.filter (·.kind = .file)).map Member.record := by
  obtain ⟨input, hh, hstrip⟩ := on_strip ha ho dest f
  refine ⟨creatable_of_eq hstrip, fun r w hrun => ?_⟩
  obtain ⟨rfl, hwrite⟩ := writes_of_eq hstrip hrun
  obtain ⟨hcopied, hfiles⟩ := hh.report f
  have hstrips := strips_stripOf ho f.accepts
  refine ⟨hcopied, hfiles, _, putAt_written hv hzip hwrite, hstrips, fun hall m hm => ?_,
    fun b r' x hcopy hrun' => ?_⟩
  · rw [stripOf, kept_all hall]
    exact (gathers_arrivals ho).mem hm
  · refine ⟨_, putAt_written hv hcopy (copyFresh_writes ha ho hrun'), ?_⟩
    rw [(selects_copyOf ho f.accepts).files, hstrips.files]

/-! ### Archives that are stripped -/

/-- A directory in front of the one that it is in, with a file, and a file in a directory that is not recorded. -/
def nestedMembers : List Member :=
  [.directory "d/e/".toList, .directory "d/".toList, .file "d/e/f".toList [104], .file "x/e".toList [105]]

def nested : Volume := { Volume.empty with items := [([['s']], .file (Zip.write nestedMembers))] }

theorem sound_nested : nested.Sound := ⟨by decide, by decide, by decide⟩

theorem hasArchive_nested : nested.HasArchive ['s'] nestedMembers ∧ Orderly nestedMembers ∧
    Zip.ReadsBack (stripOf (onePattern "**e".toList).accepts nestedMembers) := by
  unfold Zip.ReadsBack
  exact ⟨⟨Zip.write nestedMembers, ⟨[], nestedMembers⟩, by decide +kernel, by decide +kernel, rfl⟩, by decide +kernel,
    by decide +kernel⟩

/-- An archive is stripped in place: the inner directory is kept for itself, and the outer one because of it. -/
theorem strip_keeps_nested : ∃ w out, nested.Sound ∧ nested.HasArchive ['s'] nestedMembers ∧ Orderly nestedMembers ∧
    Disk.on nested (Archive.strip ['s'] ['s'] (onePattern "**e".toList)) = (.ok ⟨1, 1⟩, w) ∧
    PutAt nested w ['s'] out ∧
    (out.filter (·.kind = .file)).map Member.record = [(Member.file "x/e".toList [105]).record] ∧
    ∀ d, (∃ m ∈ out, m.kind = .dir ∧ m.path = d) ↔ d ∈ ["/x".toList, "/d/e".toList, "/d".toList] := by
  obtain ⟨hsource, ho, hzip⟩ := hasArchive_nested
  have hreport : (Disk.on nested (Archive.strip ['s'] ['s'] (onePattern "**e".toList))).1 = .ok ⟨1, 1⟩ := by
    decide +kernel
  generalize hrun : Disk.on nested (Archive.strip ['s'] ['s'] (onePattern "**e".toList)) = run at hreport
  obtain ⟨r, w⟩ := run
  obtain rfl : r = _ := hreport
  obtain ⟨-, -, out, hput, hstrips, -⟩ := (strip_keeps sound_nested hsource ho hzip).2 _ _ hrun
  have hfiles : accepted (onePattern "**e".toList).accepts nestedMembers = [.file "x/e".toList [105]] := by
    decide +kernel
  have hkept : nestedMembers.filter (fun m => m.kind = .dir && (onePattern "**e".toList).accepts m.path) =
      [.directory "d/e/".toList] := by decide +kernel
  have hpaths : Entry.ancestors (Member.file "x/e".toList [105]).path = ["/x".toList] ∧
      (Member.directory "d/e/".toList).path = "/d/e".toList ∧
      Entry.ancestors "/d/e".toList = ["/d".toList] := by decide +kernel
  have hdirs (d : Text) : (∃ m ∈ nestedMembers, m.kind = .dir ∧ (onePattern "**e".toList).accepts m.path = true ∧
      (m.path = d ∨ d ∈ Entry.ancestors m.path)) ↔ d = "/d/e".toList ∨ d = "/d".toList := by
    have hmem (m : Member) : m ∈ nestedMembers ∧ m.kind = .dir ∧ (onePattern "**e".toList).accepts m.path = true ↔
        m ∈ [Member.directory "d/e/".toList] := by
      rw [← hkept, List.mem_filter, Bool.and_eq_true, decide_eq_true_eq]
    constructor
    · rintro ⟨m, hm, hdir, haccepts, hd⟩
      obtain rfl := List.mem_singleton.mp ((hmem m).mp ⟨hm, hdir, haccepts⟩)
      rw [hpaths.2.1, hpaths.2.2] at hd
      exact hd.imp Eq.symm List.mem_singleton.mp
    · intro hd
      obtain ⟨hm, hdir, haccepts⟩ := (hmem _).mpr (List.mem_singleton_self _)
      refine ⟨_, hm, hdir, haccepts, ?_⟩
      rw [hpaths.2.1, hpaths.2.2]
      exact hd.imp Eq.symm List.mem_singleton.mpr
  refine ⟨w, out, sound_nested, hsource, ho, rfl, hput, by rw [hstrips.files, hfiles]; rfl, fun d => ?_⟩
  rw [hstrips.dirs, hdirs, hfiles]
  simp only [exists_eq_left, hpaths.1, List.mem_cons, List.not_mem_nil, or_false]

/-- A directory that a link leads to, and an archive. -/
def besideLink : Volume :=
  { Volume.empty with
    items := [([['d']], .dir), ([['l']], .link ['d']), ([['s']], .file (Zip.write [.file ['a'] [104]]))] }

theorem hasArchive_besideLink : besideLink.HasArchive ['s'] [.file ['a'] [104]] ∧ Orderly [.file ['a'] [104]] :=
  ⟨⟨Zip.write [.file ['a'] [104]], ⟨[], [.file ['a'] [104]]⟩, by decide +kernel, by decide +kernel, rfl⟩,
    by decide +kernel⟩

/-- A stripped archive that cannot be opened, as one run tells. -/
theorem strip_unopened {e : Fault} (hruns : (Disk.on v (Archive.strip source dest f >>= fun r => Disk.ask fun v =>
      .ok (r, (if v.isFile dest then load v dest else .error (.notFound dest)).map fun _ => ()))).1 =
        .ok (r, .error e)) :
    ∃ w, Disk.on v (Archive.strip source dest f) = (.ok r, w) ∧ Disk.on w (openAt dest false) = (.error e, w) := by
  generalize hrun : Disk.on v (Archive.strip source dest f >>= fun r => Disk.ask fun v =>
    .ok (r, (if v.isFile dest then load v dest else .error (.notFound dest)).map fun _ => ())) = run at hruns
  obtain ⟨answer, x⟩ := run
  obtain rfl : answer = _ := hruns
  obtain ⟨r', w, hstrip, hask⟩ := Disk.on_bind_eq_ok hrun
  obtain ⟨hasked, rfl⟩ := Disk.on_ask_eq_ok hask
  simp only [Except.ok.injEq, Prod.mk.injEq] at hasked
  obtain ⟨rfl, hopen⟩ := hasked
  refine ⟨w, hstrip, ?_⟩
  rw [on_openAt_false]
  generalize (if w.isFile dest = true then load w dest else .error (.notFound dest)) = opened at hopen
  cases opened with
  | ok h => cases hopen
  | error e' =>
    cases hopen
    rfl

theorem strip_lost :
    (∃ w, Disk.on marked (Archive.strip ['s'] ['a'] (onePattern "PK*".toList)) = (.ok ⟨1, 1⟩, w) ∧
      Disk.on w (openAt ['a'] false) = (.error (.malformedArchive ['a'] .severalDisks), w)) ∧
    ∃ w, Disk.on besideLink (Archive.strip ['s'] "l/../l".toList .all) = (.ok ⟨1, 0⟩, w) ∧
      Disk.on w (openAt "l/../l".toList false) = (.error (.notFound "l/../l".toList), w) :=
  ⟨strip_unopened (by decide +kernel), strip_unopened (by decide +kernel)⟩

/-- What is left of an archive cannot be read if it looks like the end of a larger one; and it is not found by the
path that it was put at if that leads through the link which it replaces. -/
theorem strip_unreadable :
    (∃ w, marked.HasArchive ['s'] markedMembers ∧ Orderly markedMembers ∧
      Disk.on marked (Archive.strip ['s'] ['a'] (onePattern "PK*".toList)) = (.ok ⟨1, 1⟩, w) ∧
      Disk.on w (openAt ['a'] false) = (.error (.malformedArchive ['a'] .severalDisks), w)) ∧
    ∃ w, besideLink.HasArchive ['s'] [.file ['a'] [104]] ∧ Orderly [.file ['a'] [104]] ∧
      Disk.on besideLink (Archive.strip ['s'] "l/../l".toList .all) = (.ok ⟨1, 0⟩, w) ∧
      Disk.on w (openAt "l/../l".toList false) = (.error (.notFound "l/../l".toList), w) := by
  obtain ⟨⟨w, hstrip, hopen⟩, x, hstrip', hopen'⟩ := strip_lost
  exact ⟨⟨w, hasArchive_marked.1, hasArchive_marked.2, hstrip, hopen⟩,
    x, hasArchive_besideLink.1, hasArchive_besideLink.2, hstrip', hopen'⟩

end Patchwork
