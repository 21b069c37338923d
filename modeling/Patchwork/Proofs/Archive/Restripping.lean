import Patchwork.Proofs.Archive.Merging
import Patchwork.Proofs.Archive.Stripping
import Patchwork.Proofs.Volume.Rewriting

/-!
# Stripping again

What is left of an archive is left as it is when it is stripped once more.  The second run may not keep a directory
that the first one recorded for the sake of another entry; but this entry is kept, and it brings the directory back to
the same position.
-/
namespace Patchwork

open Handle Volume
open Zip (Listed Member)

variable {u v w x : Volume} {h h' input : Handle} {f : FilterSet} {m : Member} {ms : List Member} {es : List Listed}
  {source dest a b d path : Text} {r : CopyReport} {accepts : Text → Bool} {present names : List Text}

/-! ### Directories that come back -/

/-- The directories on the way to a path begin with those on the way to one of them. -/
theorem Entry.ancestors_split (hd : d ∈ ancestors path) : ∃ rest, ancestors path = ancestors d ++ d :: rest := by
  induction hn : path.length using Nat.strong_induction_on generalizing path with
  | _ n ih =>
    obtain ⟨last, hlast, rfl | ⟨dir, rfl⟩⟩ := Path.exists_last_part path
    · obtain ⟨-, rest, rfl⟩ := mem_ancestors_iff.mp hd
      exact absurd (List.mem_append_left rest List.mem_concat_self) hlast
    · have hbelow := eq_or_mem_ancestors hlast hd
      rw [ancestors_append hlast] at hd ⊢
      have hdir : dir ≠ [] := by
        rintro rfl
        cases hd
      rw [if_neg hdir]
      rcases hbelow with rfl | hbelow
      · exact ⟨[], rfl⟩
      · obtain ⟨rest, hrest⟩ := ih dir.length (by rw [← hn, List.length_append, List.length_cons]; omega) hbelow rfl
        exact ⟨rest ++ [dir], by rw [hrest, List.append_assoc, List.cons_append]⟩

/-- The directories on the way to a path that are not present. -/
def missing (present : List Text) (path : Text) : List Text := (Entry.ancestors path).filter (· ∉ present)

/-- Once a missing directory has been added behind those on the way to it, the others are missing. -/
theorem missing_split (hd : d ∈ missing present path) :
    missing present path = missing present d ++ d :: missing (present ++ (missing present d ++ [d])) path := by
  obtain ⟨hway, hfree⟩ := List.mem_filter.mp hd
  obtain ⟨rest, hrest⟩ := Entry.ancestors_split hway
  have hnodup := Entry.nodup_ancestors path
  rw [hrest] at hnodup
  obtain ⟨-, hnodup, hapart⟩ := List.nodup_append.mp hnodup
  have hself := (List.nodup_cons.mp hnodup).1
  have hfront : (Entry.ancestors d).filter (· ∉ present ++ (missing present d ++ [d])) = [] := by
    refine List.filter_eq_nil_iff.mpr fun c hc hnot => of_decide_eq_true hnot ?_
    by_cases hin : c ∈ present
    · exact List.mem_append_left _ hin
    · have hmissing : c ∈ missing present d := List.mem_filter.mpr ⟨hc, decide_eq_true hin⟩
      exact List.mem_append_right _ (List.mem_append_left _ hmissing)
  have hback : rest.filter (· ∉ present ++ (missing present d ++ [d])) = rest.filter (· ∉ present) := by
    refine List.filter_congr fun c hc => decide_eq_decide.mpr ?_
    have hother : c ∉ missing present d ++ [d] := by
      rw [List.mem_append, List.mem_singleton, not_or]
      refine ⟨fun hin => hapart c (List.mem_of_mem_filter hin) c (List.mem_cons_of_mem d hc) rfl, ?_⟩
      rintro rfl
      exact hself hc
    simp [hother]
  have hthere : ¬ decide (d ∉ present ++ (missing present d ++ [d])) = true := by simp
  have hothers : missing (present ++ (missing present d ++ [d])) path = rest.filter (· ∉ present) := by
    rw [missing, hrest, List.filter_append, hfront, List.nil_append, List.filter_cons, if_neg hthere, hback]
  rw [hothers, missing, missing, hrest, List.filter_append, List.filter_cons, if_pos hfree]

/-- The entry that is made for a directory. -/
def directoryAt (d : Text) : Member := Member.directory (Entry.relative d ++ ['/'])

/-- An addition as it is compared: by its path, and by what is listed of it. -/
def tag (a : Addition) : Text × Text × Nat × Nat × Bytes := (a.1, a.2.record)

/-- Behind the first place of its head in a list, what follows the head is part of what follows there. -/
theorem sublist_behind {front back : List Text} (hd : d ∉ front) (h : (d :: names).Sublist (front ++ d :: back)) :
    names.Sublist back := by
  induction front with
  | nil => exact List.cons_sublist_cons.mp h
  | cons c front ih =>
    obtain ⟨hc, hfront⟩ := List.ne_and_not_mem_of_not_mem_cons hd
    cases h with
    | cons _ h => exact ih hfront h
    | cons_cons _ h => exact absurd rfl hc

theorem tag_copied (path : Text) (m : Member) : tag (path, m.copied) = tag (path, m) :=
  congrArg (Prod.mk path) (Zip.Member.record_copied m)

theorem snd_directories (ds : List Text) :
    (ds.map fun d => (d, directoryAt d)).map (·.2) = ds.map directoryAt := by
  rw [List.map_map]
  rfl

theorem missingParents_eq_missing (hs : Entry.Segmented m.path) :
    missingParents present m.path = (missing present m.path).map fun d => (d, directoryAt d) := by
  have hdirs : Entry.dirsAbove m.path = Entry.ancestors m.path := by
    rw [← normalize_path m]
    exact Entry.dirsAbove_eq (by rw [normalize_path]; exact hs)
  rw [missingParents_eq, missingDirs, hdirs]
  rfl

theorem arrivals_append (present : List Text) (ms ns : List Member) : arrivals present (ms ++ ns) =
    arrivals present ms ++ arrivals (present ++ (arrivals present ms).map (·.1)) ns := by
  induction ms generalizing present with
  | nil => simp [arrivals]
  | cons m ms ih => rw [List.cons_append, arrivals, arrivals, ih, List.map_append, List.append_assoc, List.append_assoc]

/-- If some of the directories on the way to a member come in front of it, the same is added as for the member
alone. -/
theorem arrivals_beneath (hs : Entry.Segmented m.path) (hfree : m.path ∉ present)
    (hnames : names.Sublist (missing present m.path)) :
    (arrivals present (names.map directoryAt ++ [m])).map tag =
      (missingParents present m.path ++ [(m.path, m.copied)]).map tag := by
  rw [missingParents_eq_missing hs]
  induction names generalizing present with
  | nil =>
    rw [List.map_nil, List.nil_append, arrivals, arrivals, arrival, if_neg fun h => hfree h.2, List.append_nil,
      missingParents_eq_missing hs]
  | cons d names ih =>
    have hd : d ∈ missing present m.path := hnames.subset List.mem_cons_self
    obtain ⟨hway, hdfree⟩ := List.mem_filter.mp hd
    have hdpath : (directoryAt d).path = d := by
      rw [directoryAt, path_directory]
      rw [← normalize_path m] at hway
      exact Entry.Segmented.normalize_eq (by rw [normalize_path]; exact hs) hway
    have hdseg : Entry.Segmented (directoryAt d).path := by
      rw [hdpath]
      exact hs.part (Entry.prefix_of_mem_ancestors hway).isInfix
    have hshort := Entry.length_lt_of_mem_ancestors hway
    have hlonger {c : Text} (hc : c ∈ missing present d) : c.length < d.length :=
      Entry.length_lt_of_mem_ancestors (List.mem_of_mem_filter hc)
    have harrival : arrival present (directoryAt d) =
        (missing present d).map (fun c => (c, directoryAt c)) ++ [(d, (directoryAt d).copied)] := by
      rw [arrival, if_neg fun h => of_decide_eq_true hdfree (hdpath ▸ h.2), missingParents_eq_missing hdseg, hdpath]
    have hpaths : (arrival present (directoryAt d)).map (·.1) = missing present d ++ [d] := by
      rw [harrival, List.map_append, List.map_map]
      exact congrArg (· ++ [d]) (List.map_id _)
    have hsplit := missing_split hd
    have hrest : names.Sublist (missing (present ++ (missing present d ++ [d])) m.path) := by
      rw [hsplit] at hnames
      exact sublist_behind (fun hin => Nat.lt_irrefl _ (hlonger hin)) hnames
    have hfree' : m.path ∉ present ++ (missing present d ++ [d]) := by
      simp only [List.mem_append, List.mem_singleton, not_or]
      refine ⟨hfree, fun hin => ?_, fun hself => ?_⟩
      · have := hlonger hin
        omega
      · rw [hself] at hshort
        exact Nat.lt_irrefl _ hshort
    rw [List.map_cons, List.cons_append, arrivals, hpaths, List.map_append, ih hfree' hrest, hsplit, harrival]
    simp only [List.map_append, List.map_cons, List.map_nil, List.append_assoc, List.cons_append, List.nil_append,
      tag_copied]

/-- What was added for some members is added again for those of it that are to be kept, if these members are. -/
theorem arrivals_filter {keep : Member → Bool} (hs : ∀ m ∈ ms, Entry.Segmented m.path) (hfree : Admits present ms)
    (hkeep : ∀ m ∈ ms, keep m.copied = true) :
    (arrivals present (((arrivals present ms).map (·.2)).filter keep)).map tag = (arrivals present ms).map tag := by
  induction ms generalizing present with
  | nil => rfl
  | cons m ms ih =>
    obtain ⟨hs, hss⟩ := List.forall_mem_cons.mp hs
    obtain ⟨hkeep, hkeeps⟩ := List.forall_mem_cons.mp hkeep
    have hfirst : (arrivals present (((arrival present m).map (·.2)).filter keep)).map tag =
        (arrival present m).map tag := by
      unfold arrival
      split
      · rfl
      · next hgoes =>
        have habsent : m.path ∉ present := fun hin => by
          cases hk : m.kind with
          | file => exact hfree.1 hk hin
          | dir => exact hgoes ⟨hk, hin⟩
        have hkept : ((missingParents present m.path ++ [(m.path, m.copied)]).map (·.2)).filter keep =
            ((missing present m.path).filter (keep ∘ directoryAt)).map directoryAt ++ [m.copied] := by
          rw [missingParents_eq_missing hs, List.map_append, snd_directories, List.filter_append, List.filter_map,
            List.map_cons, List.map_nil, List.filter_cons_of_pos hkeep, List.filter_nil]
        have hpath : m.copied.path = m.path := Zip.Member.path_copied m
        have hsegmented : Entry.Segmented m.copied.path := by rwa [hpath]
        have hnew : m.copied.path ∉ present := by rwa [hpath]
        have hnames : ((missing present m.path).filter (keep ∘ directoryAt)).Sublist (missing present m.copied.path) := by
          rw [hpath]
          exact List.filter_sublist
        rw [hkept, arrivals_beneath hsegmented hnew hnames, hpath]
        simp only [List.map_append, List.map_cons, List.map_nil, tag_copied]
    have hpaths := congrArg (List.map Prod.fst) hfirst
    rw [List.map_map, List.map_map] at hpaths
    change (arrivals present (((arrival present m).map (·.2)).filter keep)).map (·.1) =
      (arrival present m).map (·.1) at hpaths
    rw [arrivals, List.map_append, List.filter_append, arrivals_append, List.map_append, List.map_append, hfirst,
      hpaths, ih hss hfree.2 hkeeps]

/-! ### What is free -/

/-- Members are admitted just if no path is added twice, and none that is present. -/
theorem admits_iff_nodup : Admits present ms ↔
    ((arrivals present ms).map (·.1)).Nodup ∧ ∀ p ∈ (arrivals present ms).map (·.1), p ∉ present := by
  induction ms generalizing present with
  | nil => exact ⟨fun _ => ⟨List.nodup_nil, nofun⟩, fun _ => trivial⟩
  | cons m ms ih =>
    rw [Admits, ih, arrivals, List.map_append, List.nodup_append', List.forall_mem_append]
    constructor
    · rintro ⟨hfree, hrest, hapart⟩
      obtain ⟨hfirst, hnew⟩ := nodup_arrival hfree
      exact ⟨⟨hfirst, hrest, fun p hp hq => hapart p hq (List.mem_append_right _ hp)⟩, hnew,
        fun p hp hin => hapart p hp (List.mem_append_left _ hin)⟩
    · rintro ⟨⟨-, hrest, hdisjoint⟩, hnew, hapart⟩
      refine ⟨fun hfile => hnew _ ?_, hrest, fun p hp hin => ?_⟩
      · rw [arrival_file hfile, paths_added]
        exact List.mem_append_right _ (List.mem_singleton_self _)
      · exact (List.mem_append.mp hin).elim (hapart p hp) fun hfirst => hdisjoint hfirst hp

/-- What is left of an archive has the accepted files, and no other ones. -/
theorem files_stripOf (hs : ∀ m ∈ ms, Entry.Segmented m.path) (accepts : Text → Bool) :
    (stripOf accepts ms).filter (·.kind = .file) = (accepted accepts ms).map Member.copied := by
  have hkept (m : Member) (hm : m ∈ kept accepts ms) : Entry.Segmented m.path := hs m (List.mem_of_mem_filter hm)
  rw [stripOf, files_arrivals hkept, files_kept]

/-- What is left of an archive has the same accepted files. -/
theorem accepted_stripOf (hs : ∀ m ∈ ms, Entry.Segmented m.path) (accepts : Text → Bool) :
    accepted accepts (stripOf accepts ms) = (accepted accepts ms).map Member.copied := by
  rw [accepted_eq, files_stripOf hs]
  refine List.filter_eq_self.mpr fun n hn => ?_
  obtain ⟨m, hm, rfl⟩ := List.mem_map.mp hn
  exact (mem_accepted.mp hm).2.2

/-- Of what is left of an archive, what would be kept of the archive is kept. -/
theorem keeps_stripOf (hs : ∀ m ∈ ms, Entry.Segmented m.path) (accepts : Text → Bool) (kind : EntryKind)
    (path : Text) : keeps accepts (stripOf accepts ms) kind path = keeps accepts ms kind path := by
  rw [Bool.eq_iff_iff, keeps_iff, keeps_iff, accepted_stripOf hs]
  simp only [List.mem_map, exists_exists_and_eq_and, Zip.Member.path_copied]

/-- An archive whose members that are kept are admitted can be stripped again, and the same is left. -/
theorem tag_stripOf_again (hs : ∀ m ∈ ms, Entry.Segmented m.path) (hfree : Admits [] (kept accepts ms)) :
    (arrivals [] (kept accepts (stripOf accepts ms))).map tag = (arrivals [] (kept accepts ms)).map tag := by
  have hkept : kept accepts (stripOf accepts ms) =
      (stripOf accepts ms).filter fun m => keeps accepts ms m.kind m.path :=
    List.filter_congr fun m _ => keeps_stripOf hs accepts m.kind m.path
  rw [hkept]
  refine arrivals_filter (fun m hm => hs m (List.mem_of_mem_filter hm)) hfree fun m hm => ?_
  exact (List.mem_filter.mp hm).2

theorem record_stripOf_again (hs : ∀ m ∈ ms, Entry.Segmented m.path) (hfree : Admits [] (kept accepts ms)) :
    (stripOf accepts (stripOf accepts ms)).map Member.record = (stripOf accepts ms).map Member.record := by
  have h := congrArg (List.map Prod.snd) (tag_stripOf_again hs hfree)
  rw [List.map_map, List.map_map] at h
  rw [stripOf, List.map_map, stripOf, List.map_map]
  exact h

theorem admits_stripOf (hs : ∀ m ∈ ms, Entry.Segmented m.path) (hfree : Admits [] (kept accepts ms)) :
    Admits [] (kept accepts (stripOf accepts ms)) := by
  have h := congrArg (List.map Prod.fst) (tag_stripOf_again hs hfree)
  rw [List.map_map, List.map_map] at h
  change (arrivals [] (kept accepts (stripOf accepts ms))).map (·.1) = (arrivals [] (kept accepts ms)).map (·.1) at h
  rw [admits_iff_nodup, h, ← admits_iff_nodup]
  exact hfree

/-! ### Runs -/

/-- Where entries have been copied one after the other, they were admitted. -/
theorem admits_of_copyEach (hfound : ∀ e ∈ es, input.entry? e.path = some e)
    (hread : List.Forall₂ (fun e m => input.memberOf v e = .ok m) es ms) (hg : Grows v w)
    (hrun : Staging.on w h (Staging.copyEach input (es.map (·.path))) = ((.ok (), h'), x)) : Admits h.present ms := by
  induction hread generalizing w h with
  | nil => trivial
  | @cons e m es ms hm _ ih =>
    obtain ⟨he, hfound⟩ := List.forall_mem_cons.mp hfound
    rw [← memberOf_grow hg] at hm
    rw [List.map_cons, Staging.copyEach, Staging.on_bind] at hrun
    have hfree : m.kind = .file → m.path ∉ h.present := fun hfile hin => by
      rw [on_copyFrom_taken he hm hfile hin] at hrun
      cases hrun
    have he' : input.entry? (Entry.normalize e.path) = some e := by
      rwa [show Entry.normalize e.path = e.path from Entry.normalize_normalize e.name]
    rw [on_copyFrom_add he' hm hfree] at hrun
    split at hrun
    · next g y hadd =>
      have hrest := ih hfound (hg.trans (grows_add hadd)) hrun
      rw [present_add hadd] at hrest
      exact ⟨hfree, hrest⟩
    · cases hrun

/-- An archive whose entries have different paths can be stripped only if those that are kept find their paths
free. -/
theorem admits_of_strip (ha : v.HasArchive source ms) (hnodup : (ms.map (·.path)).Nodup)
    (hrun : Disk.on v (Archive.strip source dest f) = (.ok r, w)) : Admits [] (kept f.accepts ms) := by
  obtain ⟨input, hopen, hh⟩ := ha.opens
  rw [Archive.strip, Disk.on_bind_of_ok hopen] at hrun
  obtain ⟨output, x, hcreate, hfinish⟩ := Disk.on_bind_eq_ok hrun
  obtain ⟨hg, temp, p, houtput, -⟩ := create_eq_ok hcreate
  have hpresent : output.present = [] := by
    rw [houtput]
    rfl
  have hfound : ∀ e ∈ input.opened.filter (fun e => keeps f.accepts ms e.kind e.path),
      input.entry? e.path = some e := hh.found hnodup fun e he => List.mem_of_mem_filter he
  rcases hstaged : Staging.on x output (do
    Staging.copyEach input (Archive.keptEntries input f)
    pure (input.report f)) with ⟨⟨e | report, g⟩, y⟩
  · rw [on_finish_error hstaged] at hfinish
    obtain ⟨⟨⟩, z, -, hthrow⟩ := Disk.on_bind_eq_ok hfinish
    cases hthrow
  · rw [Staging.on_bind, hh.keptEntries] at hstaged
    split at hstaged
    · next g' y' hcopied =>
      have hfree := admits_of_copyEach hfound (hh.kept f) hg hcopied
      rwa [hpresent] at hfree
    · cases hstaged

/-- An archive that has been stripped is stripped once more, to any place where a new archive can be put, and in its own
place if a temporary file can be made beside it.  All of its files are copied, and the same entries are left. -/
theorem strip_again (hv : v.Sound) (hsource : v.HasArchive source ms) (hnodup : (ms.map (·.path)).Nodup)
    (hs : ∀ m ∈ ms, Entry.Segmented m.path) (hzip : Zip.ReadsBack (stripOf f.accepts ms))
    (hrun : Disk.on v (Archive.strip source a f) = (.ok r, w)) :
    ∃ left, PutAt v w a left ∧ ∀ u, u.Sound → SameFile w u a →
      (∀ b, (∃ r' x, Disk.on u (Archive.strip a b f) = (.ok r', x)) ↔ Creatable u b) ∧
      ((∃ temp x, Disk.on u (Disk.createTemp (Path.directory a)) = (.ok temp, x)) → Creatable u a) ∧
      ∀ b r' x, Disk.on u (Archive.strip a b f) = (.ok r', x) → r' = ⟨r.copied, 0⟩ ∧
        (Zip.ReadsBack (stripOf f.accepts (stripOf f.accepts ms)) → PutAt u x b left) := by
  have hfree := admits_of_strip hsource hnodup hrun
  obtain ⟨input, hh, hstrip⟩ := on_strip_admitted hsource hnodup hfree a
  obtain ⟨rfl, hwrite⟩ := writes_of_eq hstrip hrun
  have hkept : ∀ m ∈ kept f.accepts ms, Entry.Segmented m.path := fun m hm => hs m (List.mem_of_mem_filter hm)
  have hleft : ((stripOf f.accepts ms).map (·.path)).Nodup := by
    rw [stripOf, paths_arrivals hkept]
    exact (admits_iff_nodup.mp hfree).1
  refine ⟨_, putAt_written hv hzip hwrite, fun u hu hsame => ?_⟩
  obtain ⟨bytes, hbytes, hread⟩ := hsame
  have hagain : u.HasArchive a (stripOf f.accepts ms) :=
    hasArchive_of_write hzip (read_written hv hwrite hbytes ▸ hread)
  have hruns (b : Text) := on_strip_admitted hagain hleft (admits_stripOf hs hfree) b
  refine ⟨fun b => ?_, fun hbeside => ?_, fun b r' x hrun' => ?_⟩
  · obtain ⟨input', -, hstrip'⟩ := hruns b
    exact creatable_of_eq hstrip'
  · obtain ⟨temp, x, htemp⟩ := hbeside
    obtain ⟨hname, hslash⟩ := Disk.endsInName_of_writeAtomic hwrite
    exact writeAtomic_iff_creatable.mp (Disk.writeAtomic_over hread hname hslash htemp [])
  · obtain ⟨input', hh', hstrip'⟩ := hruns b
    obtain ⟨rfl, hwrite'⟩ := writes_of_eq hstrip' hrun'
    refine ⟨?_, fun hzip' => (putAt_written hu hzip' hwrite').congr (record_stripOf_again hs hfree)⟩
    obtain ⟨hcopied, -⟩ := hh.report f
    obtain ⟨hcopied', hfiles'⟩ := hh'.report f
    have hlength := congrArg List.length (accepted_stripOf hs f.accepts)
    rw [List.length_map] at hlength
    rw [files_stripOf hs, List.length_map] at hfiles'
    generalize input'.report f = again at hcopied' hfiles' ⊢
    obtain ⟨copied, skipped⟩ := again
    simp only [CopyReport.mk.injEq] at hcopied' hfiles' ⊢
    omega

/-- The inner directory is kept again, and the outer one because of it. -/
theorem strip_again_nested : ∃ w x left, nested.Sound ∧ nested.HasArchive ['s'] nestedMembers ∧
    (nestedMembers.map (·.path)).Nodup ∧ (∀ m ∈ nestedMembers, Entry.Segmented m.path) ∧
    Disk.on nested (Archive.strip ['s'] ['a'] (onePattern "**e".toList)) = (.ok ⟨1, 1⟩, w) ∧
    Disk.on w (Archive.strip ['a'] ['a'] (onePattern "**e".toList)) = (.ok ⟨1, 0⟩, x) ∧
    PutAt nested w ['a'] left ∧ PutAt w x ['a'] left := by
  obtain ⟨hsource, ho, hzip⟩ := hasArchive_nested
  have hzip' : Zip.ReadsBack (stripOf (onePattern "**e".toList).accepts
      (stripOf (onePattern "**e".toList).accepts nestedMembers)) := by
    unfold Zip.ReadsBack
    decide +kernel
  have hreports : (Disk.on nested (Archive.strip ['s'] ['a'] (onePattern "**e".toList) >>= fun r =>
      Archive.strip ['a'] ['a'] (onePattern "**e".toList) >>= fun r' => pure (r, r'))).1 =
        .ok (⟨1, 1⟩, ⟨1, 0⟩) := by decide +kernel
  obtain ⟨w, x, hrun, hrun'⟩ := Disk.on_both_eq_ok hreports
  obtain ⟨left, hput, hagain⟩ := strip_again sound_nested hsource ho.nodup ho.segmented hzip hrun
  obtain ⟨input, -, hstrip⟩ := on_strip hsource ho ['a'] (onePattern "**e".toList)
  have hw := sound_written sound_nested (writes_of_eq hstrip hrun).2
  obtain ⟨opened, y, hopen, -⟩ := Disk.on_bind_eq_ok hrun'
  obtain ⟨bytes, hbytes⟩ := isFile_iff_read.mp (openAt_source hopen).2
  obtain ⟨-, -, hleft⟩ := hagain w hw ⟨bytes, hbytes, hbytes⟩
  exact ⟨w, x, left, sound_nested, hsource, ho.nodup, ho.segmented, hrun, hrun', hput, (hleft _ _ _ hrun').2 hzip'⟩

/-- An archive that cannot be opened is not stripped. -/
theorem on_strip_unopened {e : Fault} (hopen : Disk.on w (openAt a false) = (.error e, w)) (b : Text) :
    Disk.on w (Archive.strip a b f) = (.error e, w) := by
  rw [Archive.strip, Disk.on_bind, hopen]

/-- What is left of an archive cannot be stripped again if it looks like the end of a larger one, or if it was put at a
path that leads through the link which it replaces. -/
theorem strip_again_unreadable :
    (∃ w, marked.HasArchive ['s'] markedMembers ∧ Orderly markedMembers ∧
      Disk.on marked (Archive.strip ['s'] ['a'] (onePattern "PK*".toList)) = (.ok ⟨1, 1⟩, w) ∧
      ∀ b, Disk.on w (Archive.strip ['a'] b (onePattern "PK*".toList)) =
        (.error (.malformedArchive ['a'] .severalDisks), w)) ∧
    ∃ w, besideLink.HasArchive ['s'] [.file ['a'] [104]] ∧ Orderly [.file ['a'] [104]] ∧
      Disk.on besideLink (Archive.strip ['s'] "l/../l".toList .all) = (.ok ⟨1, 0⟩, w) ∧
      ∀ b, Disk.on w (Archive.strip "l/../l".toList b .all) = (.error (.notFound "l/../l".toList), w) := by
  obtain ⟨⟨w, hstrip, hopen⟩, x, hstrip', hopen'⟩ := strip_lost
  exact ⟨⟨w, hasArchive_marked.1, hasArchive_marked.2, hstrip, on_strip_unopened hopen⟩,
    x, hasArchive_besideLink.1, hasArchive_besideLink.2, hstrip', on_strip_unopened hopen'⟩

end Patchwork
