import Patchwork.Proofs.Archive.Isolation
import Patchwork.Proofs.Archive.LaidOut

/-!
# What extracting an archive leaves

Whatever the entries are called, nothing changes outside the directory that an archive is extracted to.  If it
succeeds, the directory holds the files that were asked for and no others, and what else is in the archive
makes no difference.
-/
namespace Patchwork

open Handle (load)
open Volume
open Patchwork.Tree (Clears Outside Stocked made)
open Zip (Listed)

variable {u v w : Volume} {p q s : Place} {o : Opened} {c : Bytes} {h h' : Handle} {f : FilterSet}
  {archive dir : Text} {named : List (Text × Except Fault Bytes)}

/-! ### Another archive -/

theorem blind_layOut (s : Place) (named : List (Text × Except Fault Bytes)) :
    Disk.Blind s (Archive.layOut archive dir named) := by
  have hfile (target : Text) (data : Bytes) : Disk.Blind s (Archive.layFile target data) := by
    unfold Archive.layFile
    split
    · exact (Disk.blind_createDirAll _).io.bind fun _ => (Disk.blind_write _ _).io
    · exact (Disk.blind_write _ _).io
  induction named with
  | nil => exact Disk.blind_ofExcept (.ok ())
  | cons e named ih =>
    obtain ⟨path, data⟩ := e
    rw [Archive.layOut]
    split
    · exact Disk.blind_ofExcept (.error _)
    · exact (Disk.blind_ofExcept data).bind fun _ => (hfile _ _).bind fun _ => ih

/-- An entry of another archive has the same path and kind, and if it is extracted, the same content. -/
structure SameFor (f : FilterSet) (bytes bytes' : Bytes) (e e' : Listed) : Prop where
  path : e'.path = e.path
  kind : e'.kind = e.kind
  content : e.kind = .file → f.accepts e.path = true → e'.content bytes' = e.content bytes

/-- Another archive in the place of one, in a volume that is equal but for a file: what is extracted of it is
the same. -/
structure Twin (f : FilterSet) (s : Place) (v : Volume) (h : Handle) (v' : Volume) (h' : Handle) : Prop where
  sound : v'.Sound
  alike : Alike s v v'
  path : h'.path = h.path
  reads : ∃ o c, h'.file? = some o ∧ Reads v' o c
  same : List.Forall₂ (SameFor f (h.bytes v) (h'.bytes v')) h.opened h'.opened

instance (bytes bytes' : Bytes) (e e' : Listed) : Decidable (SameFor f bytes bytes' e e') :=
  decidable_of_iff (e'.path = e.path ∧ e'.kind = e.kind ∧
      (e.kind = .file → f.accepts e.path = true → e'.content bytes' = e.content bytes))
    ⟨fun ⟨hpath, hkind, hcontent⟩ => ⟨hpath, hkind, hcontent⟩,
      fun ⟨hpath, hkind, hcontent⟩ => ⟨hpath, hkind, hcontent⟩⟩

variable {v' : Volume}

theorem bytes_load {path : Text} (hf : v.find .item path = .ok (s, .file c)) (hload : load v path = .ok h) :
    h.bytes v = c ∧ h.path = path ∧ ∃ o, h.file? = some o ∧ Reads v o c := by
  obtain ⟨r, d, es, hf', -, rfl⟩ := load_eq_ok hload
  rw [hf] at hf'
  cases hf'
  have hi := (find_eq_ok_iff.mp hf).2
  exact ⟨contentOf_opened hi, rfl, _, rfl, reads_opened hi⟩

/-- Archives that are opened at one path, once with other bytes in the file that is there. -/
theorem twin_put {d : Bytes} {path : Text} (hv : v.Sound) (hf : v.find .item path = .ok (s, .file c))
    (hload : load v path = .ok h) (hload' : load (v.put s (.file d)) path = .ok h')
    (hsame : List.Forall₂ (SameFor f c d) h.opened h'.opened) : Twin f s v h (v.put s (.file d)) h' := by
  obtain ⟨hlocate, hi⟩ := find_eq_ok_iff.mp hf
  have halike := alike_put hi d
  have hne : s ≠ [] := by
    rintro rfl
    cases hi
  have hi' : (v.put s (.file d)).item? s = some (.file d) := by rw [item?_put v s s _ hne, if_pos rfl]
  have hf' := find_eq_ok_iff.mpr ⟨(halike.locate .item path).trans hlocate, hi'⟩
  obtain ⟨hbytes, hpath, -⟩ := bytes_load hf hload
  obtain ⟨hbytes', hpath', o, hfile, hreads⟩ := bytes_load hf' hload'
  have hdir : v.item? s ≠ some .dir := by
    rw [hi]
    nofun
  refine ⟨hv.put hne (hv.above hi) hdir _, halike, hpath'.trans hpath.symm,
    ⟨o, d, hfile, hreads⟩, ?_⟩
  rwa [hbytes, hbytes']

theorem Twin.entries (ht : Twin f s v h v' h') : h'.entries = h.entries := by
  refine (List.forall₂_eq_eq_eq ▸ ?_ : h.entries = h'.entries).symm
  refine List.forall₂_map_left_iff.mpr (List.forall₂_map_right_iff.mpr (ht.same.imp fun e e' he => ?_))
  rw [he.path, he.kind]

theorem Twin.paths (ht : Twin f s v h v' h') : h'.opened.map (·.path) = h.opened.map (·.path) := by
  simpa only [Handle.entries, List.map_map, Function.comp_def] using congrArg (List.map Prod.fst) ht.entries

theorem read_same {bytes bytes' : Bytes} {es es' : List Listed}
    (h : List.Forall₂ (SameFor f bytes bytes') es es') :
    (es'.filter fun e => e.kind = .file && f.accepts e.path).map (fun e => (e.path, e.content bytes')) =
      (es.filter fun e => e.kind = .file && f.accepts e.path).map fun e => (e.path, e.content bytes) := by
  induction h with
  | nil => rfl
  | @cons e e' _ _ he _ ih =>
    rw [List.filter_cons, List.filter_cons, he.path, he.kind]
    split
    · next hkept =>
      rw [Bool.and_eq_true, decide_eq_true_eq] at hkept
      rw [List.map_cons, List.map_cons, ih, he.path, he.content hkept.1 hkept.2]
    · exact ih

theorem Twin.payloads (ht : Twin f s v h v' h') : h'.payloads v' f = h.payloads v f := by
  have hread := congrArg (List.map fun e : Text × Except Zip.Failure Bytes =>
    (e.1, e.2.mapError (·.fault h.path))) (read_same ht.same)
  rw [List.map_map, List.map_map] at hread
  unfold Handle.payloads
  rw [ht.path]
  exact hread

theorem Twin.report (ht : Twin f s v h v' h') : h'.report f = h.report f := by
  rw [Handle.report, Handle.report, Handle.selected, Handle.selected, Handle.files, Handle.files, ht.entries]

theorem Volume.Alike.empty_dir (h : Alike s v w) (hf : v.find .item dir = .ok (p, .dir))
    (hempty : ∀ q, q ≠ [] → v.item? (p ++ q) = none) :
    w.find .item dir = .ok (p, .dir) ∧ ∀ q, q ≠ [] → w.item? (p ++ q) = none := by
  refine ⟨?_, fun q hq => ?_⟩
  · rcases h.find_cases .item dir with hfind | ⟨c, d, hfile, -⟩
    · exact hfind.trans hf
    · rw [hf] at hfile
      cases hfile
  · have hnone := h.isSome (p ++ q)
    rw [hempty q hq] at hnone
    exact Option.isNone_iff_eq_none.mp (Option.isSome_eq_false_iff.mp hnone)

/-- What clearing does for a directory, it does whatever the file holds. -/
theorem clears_of_alike (hclears : Clears v dir) (h : Alike s v w) : Clears w dir := by
  intro x hrun
  obtain ⟨hsame, halike⟩ := Tree.blind_clearDir s dir v w h
  rw [hrun] at hsame halike
  obtain ⟨p, hf, hempty⟩ := hclears (Disk.on v (Tree.clearDir dir)).2 (Prod.ext hsame.symm rfl)
  exact ⟨p, halike.empty_dir hf hempty⟩

/-! ### Runs -/

/-- What extracting does when everything has been read. -/
def Archive.unpack (archive dir : Text) (named : List (Text × Except Fault Bytes)) (report : CopyReport) :
    Disk Fault CopyReport := do
  Tree.clearDir dir
  layOut archive dir named
  pure report

/-- Once the directory is cleared, it is empty, and the file of the archive is out of reach. -/
theorem extract_eq_unpack (hv : v.Sound) (hfile : h.file? = some o) (hreads : Reads v o c)
    (hnodup : (h.opened.map (·.path)).Nodup) (hclears : Clears v dir) :
    Disk.on v (Archive.extract h dir f) =
      Disk.on v (Archive.unpack h.path dir (h.payloads v f) (h.report f)) := by
  unfold Archive.extract Archive.unpack
  rw [Disk.on_bind, Disk.on_bind]
  cases hclear : Disk.on v (Tree.clearDir dir) with
  | mk r u =>
    cases r with
    | error e => rfl
    | ok =>
      obtain ⟨p, hf, hempty⟩ := hclears u hclear
      have hu := Tree.sound_clearDir hv hclear
      have hreads' := Tree.reads_clearDir hreads hv hclear
      have hs := Tree.stocked_of_inside hu hf fun q hq => .inl (hempty q hq)
      have ha := aside_of_empty hreads' (find_eq_ok_iff.mp hf).2 hempty
      have hbytes : h.bytes u = h.bytes v := by
        rw [bytes_of_file? hfile, bytes_of_file? hfile, hreads'.contentOf, hreads.contentOf]
      have hread : (h.selected f).map (fun path => (path, h.read u path)) = h.payloads v f := by
        rw [← Handle.payloads_eq hnodup]
        exact List.map_congr_left fun path _ => by rw [read_congr hbytes]
      dsimp only
      rw [Disk.on_bind, Disk.on_bind, Archive.extractEach_eq_layOut hs ha hfile, hread]

theorem on_unpack_error {e : Fault} (hclear : Disk.on v (Tree.clearDir dir) = (.error e, u))
    (named : List (Text × Except Fault Bytes)) (report : CopyReport) :
    Disk.on v (Archive.unpack archive dir named report) = (.error e, u) := by
  rw [Archive.unpack, Disk.on_bind, hclear]

theorem on_unpack (hclear : Disk.on v (Tree.clearDir dir) = (.ok (), u))
    (named : List (Text × Except Fault Bytes)) (report : CopyReport) :
    Disk.on v (Archive.unpack archive dir named report) =
      ((Disk.on u (Archive.layOut archive dir named)).1.map fun _ => report,
        (Disk.on u (Archive.layOut archive dir named)).2) := by
  rw [Archive.unpack, Disk.on_bind_of_ok hclear, Disk.on_bind]
  generalize Disk.on u (Archive.layOut archive dir named) = run
  obtain ⟨r, w⟩ := run
  cases r <;> rfl

/-- How a run ends: the directory cannot be cleared, or files are made in it while it is empty. -/
inductive Unpacked (v : Volume) (archive dir : Text) (named : List (Text × Except Fault Bytes))
    (report : CopyReport) : Except Fault CopyReport → Volume → Prop
  | uncleared {e : Fault} {w : Volume} (hclear : Disk.on v (Tree.clearDir dir) = (.error e, w)) :
      Unpacked v archive dir named report (.error e) w
  | cleared {u w : Volume} {p : Place} {r : Except Fault Unit}
      (hclear : Disk.on v (Tree.clearDir dir) = (.ok (), u)) (hs : Stocked u dir p fun _ => none)
      (hempty : ∀ q, q ≠ [] → u.item? (p ++ q) = none)
      (hmake : Disk.on u (Archive.layOut archive dir named) = (r, w)) :
      Unpacked v archive dir named report (r.map fun _ => report) w

theorem unpacked {report : CopyReport} {r : Except Fault CopyReport} (hv : v.Sound) (hclears : Clears v dir)
    (hrun : Disk.on v (Archive.unpack archive dir named report) = (r, w)) :
    Unpacked v archive dir named report r w := by
  cases hclear : Disk.on v (Tree.clearDir dir) with
  | mk r' u =>
    cases r' with
    | error e =>
      rw [on_unpack_error hclear] at hrun
      cases hrun
      exact .uncleared hclear
    | ok =>
      rw [on_unpack hclear] at hrun
      cases hrun
      obtain ⟨p, hf, hempty⟩ := hclears u hclear
      exact .cleared hclear (Tree.stocked_of_inside (Tree.sound_clearDir hv hclear) hf fun q hq =>
        .inl (hempty q hq)) hempty rfl

/-- A run that succeeds makes all files in the empty directory. -/
theorem Unpacked.of_ok {report other : CopyReport} (h : Unpacked v archive dir named report (.ok other) w) :
    other = report ∧ ∃ u p, (Stocked u dir p fun _ => none) ∧
      Disk.on u (Archive.layOut archive dir named) = (.ok (), w) := by
  generalize hr : (Except.ok other : Except Fault CopyReport) = r at h
  cases h with
  | uncleared => cases hr
  | @cleared u _ p r hclear hs hempty hmake =>
    cases r with
    | error => cases hr
    | ok =>
      cases hr
      exact ⟨rfl, u, p, hs, hmake⟩

/-- Nothing changes outside the directory at a path, but that it is made with those above it. -/
def Within (v w : Volume) (dir : Text) : Prop :=
  ∀ q, Outside v dir q → w.item? q = v.item? q ∨
    v.item? q = none ∧ w.item? q = some .dir ∧ (made v dir).item? q = some .dir

theorem Unpacked.within {report : CopyReport} {r : Except Fault CopyReport}
    (h : Unpacked v archive dir named report r w) : Within v w dir := by
  intro q hq
  have hmade : w.item? q = (made v dir).item? q := by
    cases h with
    | uncleared hclear => exact Tree.outside_clearDir hclear hq
    | cleared hclear hs _ hmake =>
      have hconf := ((Archive.stays_layOut archive named).confined hs hmake).2
      rw [hconf q (hq _ (Tree.find_made hclear hs.find)), Tree.outside_clearDir hclear hq]
  rw [hmade]
  cases hi : v.item? q with
  | some i => exact .inl ((Tree.grows_made v dir).kept q i hi)
  | none => exact (Disk.onlyDirs_createDirAll dir v q hi).imp_right fun hdir => ⟨rfl, hdir, hdir⟩

/-- The directory at a path holds what was to be extracted, and no other files. -/
structure Extracted (h : Handle) (f : FilterSet) (v w : Volume) (dir : Text) (p : Place) : Prop where
  find : w.find .item dir = .ok (p, .dir)
  noLink : ∀ q t, w.item? (p ++ q) ≠ some (.link t)
  targets : ∀ e ∈ h.taken f, ∃ target, Path.resolve? dir e.path = some target ∧
    w.canonical target = .ok (p ++ Path.steps e.path)
  files : ∀ q, w.file? (p ++ q) = h.laidOut v f q

theorem Unpacked.extracted {report : CopyReport}
    (hu : Unpacked v archive dir (h.payloads v f) report (.ok report) w) : ∃ p, Extracted h f v w dir p := by
  obtain ⟨-, u, p, hs, hmake⟩ := hu.of_ok
  obtain ⟨hstocked, hall⟩ := hs.layOut hmake
  have hfiles (q : Place) : w.file? (p ++ q) = h.laidOut v f q := by
    rw [hstocked.files, restock_laid hall]
  refine ⟨p, hstocked.find, hstocked.noLink, fun e he => ?_, hfiles⟩
  obtain ⟨hplain, hparts, hresolves, hreaches, -⟩ := hall _ (List.mem_map_of_mem he)
  obtain ⟨c, hc⟩ := isSome_laidOut he hall
  have hthere : w.file? (p ++ Path.parts (Path.ofParts (Path.steps e.path))) = some c := by
    rw [hparts, hfiles, hc]
  refine ⟨_, hresolves, ?_⟩
  rw [canonical, Tree.find_reaches hstocked.sound hstocked.find hplain hthere hreaches, hparts]
  rfl

/-- Volumes are equal but for the file of the archive, which each has as it was. -/
def SameTree (s : Place) (v v' w w' : Volume) : Prop :=
  ∀ q, w'.item? q = w.item? q ∨ q = s ∧ w.item? q = v.item? q ∧ w'.item? q = v'.item? q

theorem item?_of_file? (hv : ∀ c, w.file? s = some c → v.file? s = some c)
    (h : w.item? s = some (.file c)) : w.item? s = v.item? s := by
  rw [h, file?_eq_some_iff.mp (hv c (file?_eq_some_iff.mpr h))]

variable {u' w' : Volume}

/-- The file in which volumes differ stands outside the directory in which files are made, or there is none. -/
theorem layOut_alike (hs : Stocked u dir p fun _ => none) (hs' : Stocked u' dir p fun _ => none)
    (h : Alike s u u') (archive : Text) (named : List (Text × Except Fault Bytes)) :
    (Disk.on u' (Archive.layOut archive dir named)).1 = (Disk.on u (Archive.layOut archive dir named)).1 ∧
      SameTree s u u' (Disk.on u (Archive.layOut archive dir named)).2
        (Disk.on u' (Archive.layOut archive dir named)).2 := by
  have hconf := (Archive.stays_layOut archive named).confined hs rfl
  have hconf' := (Archive.stays_layOut archive named).confined hs' rfl
  by_cases hin : p <+: s
  · obtain ⟨x, rfl⟩ := hin
    have hall (q : Place) : u'.item? q = u.item? q := by
      refine (h.items q).resolve_right fun ⟨hq, c, _, hc, _⟩ => ?_
      have hnone := hs.files x
      rw [file?_eq_some_iff.mpr (hq ▸ hc)] at hnone
      cases hnone
    obtain ⟨hsame, halike⟩ := blind_layOut [] named u u' ⟨h.here, fun q => .inl (hall q)⟩
    refine ⟨hsame, fun q => .inl ((halike.items q).resolve_right fun ⟨hq, c, _, hc, _⟩ => ?_)⟩
    rw [hq] at hc
    cases hc
  · obtain ⟨hsame, halike⟩ := blind_layOut s named u u' h
    refine ⟨hsame, fun q => (halike.items q).imp_right fun ⟨hq, _⟩ => ⟨hq, ?_⟩⟩
    subst hq
    exact ⟨hconf.2 q hin, hconf'.2 q hin⟩

/-- Two runs that start in volumes which are equal but for the archive end in such volumes. -/
theorem Unpacked.sameTree {report : CopyReport} {r : Except Fault CopyReport}
    (hu : Unpacked v archive dir named report r w) (hv' : v'.Sound) (h : Alike s v v') :
    ∃ w', Disk.on v' (Archive.unpack archive dir named report) = (r, w') ∧ SameTree s v v' w w' := by
  obtain ⟨hsame, halike⟩ := Tree.blind_clearDir s dir v v' h
  cases hclear' : Disk.on v' (Tree.clearDir dir) with
  | mk r' u' =>
    rw [hclear'] at hsame halike
    cases hu with
    | uncleared hclear =>
      rw [hclear] at hsame halike
      obtain rfl : r' = _ := hsame
      refine ⟨u', on_unpack_error hclear' named report, fun q => ?_⟩
      refine (halike.items q).imp_right fun ⟨hq, c, d, hc, hd⟩ => ⟨hq, ?_, ?_⟩
      · exact item?_of_file? (fun _ => Tree.file?_of_clearDir hclear) hc
      · exact item?_of_file? (fun _ => Tree.file?_of_clearDir hclear') hd
    | @cleared u _ p r hclear hs hempty hmake =>
      rw [hclear] at hsame halike
      obtain rfl : r' = _ := hsame
      obtain ⟨hf', hempty'⟩ := halike.empty_dir hs.find hempty
      have hs' := Tree.stocked_of_inside (Tree.sound_clearDir hv' hclear') hf' fun q hq => .inl (hempty' q hq)
      obtain ⟨hresult, htree⟩ := layOut_alike hs hs' halike archive named
      rw [hmake] at hresult htree
      rw [on_unpack hclear', hresult]
      refine ⟨_, rfl, fun q => ?_⟩
      rcases htree q with hq | ⟨rfl, hu, hu'⟩
      · exact .inl hq
      · rcases halike.items q with hq | ⟨-, c, d, hc, hd⟩
        · exact .inl (hu'.trans (hq.trans hu.symm))
        · refine .inr ⟨rfl, hu.trans ?_, hu'.trans ?_⟩
          · exact item?_of_file? (fun _ => Tree.file?_of_clearDir hclear) hc
          · exact item?_of_file? (fun _ => Tree.file?_of_clearDir hclear') hd

/-! ### Extracting -/

/-- Whatever the entries are called, extracting an archive changes nothing outside the directory.  If it
succeeds, the directory holds what the filter accepts and nothing else, and what the other entries hold makes no
difference.  All of this rests on the directory being empty once it is cleared. -/
theorem extract_confined_exact (hv : v.Sound) (hfile : h.file? = some o) (hreads : Reads v o c)
    (hnodup : (h.opened.map (·.path)).Nodup) (hclears : Clears v dir) {r : Except Fault CopyReport}
    (hrun : Disk.on v (Archive.extract h dir f) = (r, w)) :
    Within v w dir ∧
      (∀ report, r = .ok report → report = h.report f ∧ ∃ p, Extracted h f v w dir p) ∧
      ∀ s v' h', Twin f s v h v' h' →
        ∃ w', Disk.on v' (Archive.extract h' dir f) = (r, w') ∧ SameTree s v v' w w' := by
  rw [extract_eq_unpack hv hfile hreads hnodup hclears] at hrun
  have hu := unpacked hv hclears hrun
  refine ⟨hu.within, ?_, fun s v' h' ht => ?_⟩
  · rintro report rfl
    obtain rfl := hu.of_ok.1
    exact ⟨rfl, hu.extracted⟩
  · obtain ⟨o', c', hfile', hreads'⟩ := ht.reads
    have hnodup' : (h'.opened.map (·.path)).Nodup := by rwa [ht.paths]
    rw [extract_eq_unpack ht.sound hfile' hreads' hnodup' (clears_of_alike hclears ht.alike), ht.payloads,
      ht.report, ht.path]
    exact hu.sameTree ht.sound ht.alike

/-! ### Instances -/

namespace Session

/-- A directory with a file in it, and an archive with two files in it. -/
def twoMembers : Volume :=
  { Volume.empty with
    items := [([['o']], .dir), ([['o'], ['x']], .file [1]),
      ([['f']], .file (Zip.write [.file ['a'] [104], .file ['b'] [105]]))] }

theorem sound_twoMembers : twoMembers.Sound := ⟨by decide, by decide, by decide⟩

/-- The volume with an archive that differs in the second file. -/
def otherSecond : Volume :=
  twoMembers.put [['f']] (.file (Zip.write [.file ['a'] [104], .file ['b'] [106]]))

/-- An archive with one file in it, and a directory with a file in it. -/
def oneLeft : Volume :=
  { oneArchive with items := oneArchive.items ++ [([['x']], .dir), ([['x'], ['y']], .file [1])] }

end Session

open Session

/-- Of the files of two archives one is extracted, the one that is the same in both. -/
theorem extract_confined_exact_twins : ∃ f h h' w w' p,
    FilterSet.ofPatterns [['a']] = .ok f ∧ load twoMembers ['f'] = .ok h ∧ load otherSecond ['f'] = .ok h' ∧
    Disk.on twoMembers (Archive.extract h ['o'] f) = (.ok ⟨1, 1⟩, w) ∧ Extracted h f twoMembers w ['o'] p ∧
    Disk.on otherSecond (Archive.extract h' ['o'] f) = (.ok ⟨1, 1⟩, w') ∧
    SameTree [['f']] twoMembers otherSecond w w' := by
  have hfind : twoMembers.find .item ['f'] =
      .ok ([['f']], .file (Zip.write [.file ['a'] [104], .file ['b'] [105]])) := by decide +kernel
  have hrun : ((FilterSet.ofPatterns [['a']]).bind fun f => (load twoMembers ['f']).bind fun h =>
      (load otherSecond ['f']).bind fun h' => .ok (decide (
        (Disk.on twoMembers (Archive.extract h ['o'] f)).1 = .ok ⟨1, 1⟩ ∧
          List.Forall₂ (SameFor f (Zip.write [.file ['a'] [104], .file ['b'] [105]])
            (Zip.write [.file ['a'] [104], .file ['b'] [106]])) h.opened h'.opened ∧
          (h.opened.map (·.path)).Nodup))) = .ok true := by decide +kernel
  have hclears : Clears twoMembers ['o'] :=
    (Tree.leaves_of_isDir (by decide +kernel)).clears sound_twoMembers (p := [['o']]) (by decide +kernel)
  cases hpatterns : FilterSet.ofPatterns [['a']] with
  | error e =>
    rw [hpatterns] at hrun
    cases hrun
  | ok f =>
    cases hload : load twoMembers ['f'] with
    | error e =>
      rw [hpatterns, hload] at hrun
      cases hrun
    | ok h =>
      cases hload' : load otherSecond ['f'] with
      | error e =>
        rw [hpatterns, hload, hload'] at hrun
        cases hrun
      | ok h' =>
        rw [hpatterns, hload, hload'] at hrun
        simp only [Except.bind, Except.ok.injEq, decide_eq_true_eq] at hrun
        obtain ⟨hreport, hsame, hnodup⟩ := hrun
        obtain ⟨-, -, o, hfile, hreads⟩ := bytes_load hfind hload
        have htwin := twin_put sound_twoMembers hfind hload hload' hsame
        generalize hextract : Disk.on twoMembers (Archive.extract h ['o'] f) = run at hreport
        obtain ⟨r, w⟩ := run
        obtain rfl : r = _ := hreport
        obtain ⟨-, hok, htwins⟩ := extract_confined_exact sound_twoMembers hfile hreads hnodup hclears hextract
        obtain ⟨-, p, hextracted⟩ := hok _ rfl
        obtain ⟨w', hextract', htree⟩ := htwins _ _ _ htwin
        exact ⟨f, h, h', w, w', p, rfl, rfl, rfl, hextract, hextracted, hextract', htree⟩

/-- The directory is not found before those on the way to it are made, and what is in it stays. -/
theorem extract_keeps_file : ∃ h w, load oneLeft ['f'] = .ok h ∧
    Disk.on oneLeft (Archive.extract h "d/../x".toList .all) = (.ok ⟨1, 0⟩, w) ∧
    w.canonical "d/../x".toList = .ok [['x']] ∧ w.file? [['x'], ['y']] = some [1] ∧
    ¬ ∃ p, Extracted h .all oneLeft w "d/../x".toList p := by
  have hrun : ((load oneLeft ['f']).bind fun h => .ok (decide (
      let run := Disk.on oneLeft (Archive.extract h "d/../x".toList .all)
      run.1 = .ok ⟨1, 0⟩ ∧ run.2.canonical "d/../x".toList = .ok [['x']] ∧
        run.2.file? [['x'], ['y']] = some [1] ∧ h.laidOut oneLeft .all [['y']] = none))) = .ok true := by
    decide +kernel
  cases hload : load oneLeft ['f'] with
  | error e =>
    rw [hload] at hrun
    cases hrun
  | ok h =>
    rw [hload] at hrun
    simp only [Except.bind, Except.ok.injEq, decide_eq_true_eq] at hrun
    generalize hextract : Disk.on oneLeft (Archive.extract h "d/../x".toList .all) = run at hrun
    obtain ⟨r, w⟩ := run
    obtain ⟨hreport, hfound, hthere, hlaid⟩ := hrun
    obtain rfl : r = _ := hreport
    refine ⟨h, w, rfl, hextract, hfound, hthere, fun ⟨p, hextracted⟩ => ?_⟩
    rw [canonical, hextracted.find] at hfound
    obtain rfl : p = [['x']] := Except.ok.inj hfound
    have hfiles := hextracted.files [['y']]
    rw [hlaid, List.singleton_append] at hfiles
    rw [hfiles] at hthere
    cases hthere

end Patchwork
