import Patchwork.Proofs.Archive.Composition
import Patchwork.Proofs.Archive.InUse

/-!
# Copying into what is there

Copying the accepted files of an archive through a handle goes well just if none of their paths is present, and
none of them is a directory on the way to an earlier one; then all of them have been added in their order.  Otherwise
it stops at the first one whose path is taken by then.  Where nothing can be staged beside the archive of the handle,
nothing is.  Either way everything that could be read is read as before.
-/
namespace Patchwork

open Handle Volume
open Zip (Listed Member)

variable {u v w : Volume} {h h' input : Handle} {m : Member} {ms before after : List Member} {es : List Listed}
  {adds : List Addition} {f : FilterSet} {present : List Text} {r : Except Fault CopyReport}

/-! ### Paths that are free -/

/-- No path of some files is present, and none is a directory on the way to an earlier one. -/
structure Enters (present : List Text) (ms : List Member) : Prop where
  absent : ∀ m ∈ ms, m.path ∉ present
  apart : ms.Pairwise fun n m => m.path ∉ Entry.ancestors n.path

instance (present : List Text) (ms : List Member) : Decidable (Enters present ms) :=
  decidable_of_iff ((∀ m ∈ ms, m.path ∉ present) ∧ ms.Pairwise fun n m => m.path ∉ Entry.ancestors n.path)
    ⟨fun h => ⟨h.1, h.2⟩, fun h => ⟨h.absent, h.apart⟩⟩

theorem mem_dirsAbove_path {n : Member} : n.path ∈ Entry.dirsAbove m.path ↔ n.path ∈ Entry.ancestors m.path := by
  rw [← normalize_path m]
  exact Entry.mem_dirsAbove_of_normalize (normalize_path n)

/-- Once a file has arrived, its path and the directories on the way to it are present, too. -/
theorem mem_present_arrival (hfile : m.kind = .file) {n : Member} :
    n.path ∈ present ++ (arrival present m).map (·.1) ↔
      n.path ∈ present ∨ n.path ∈ Entry.ancestors m.path ∨ n.path = m.path := by
  rw [arrival_file hfile, paths_added, List.mem_append, List.mem_append, List.mem_filter, List.mem_singleton,
    mem_dirsAbove_path, decide_eq_true_eq]
  tauto

theorem admits_iff_enters (hfiles : ∀ m ∈ ms, m.kind = .file) (hnodup : (ms.map (·.path)).Nodup) :
    Admits present ms ↔ Enters present ms := by
  induction ms generalizing present with
  | nil => exact ⟨fun _ => ⟨nofun, .nil⟩, fun _ => trivial⟩
  | cons m ms ih =>
    have hm := hfiles m List.mem_cons_self
    obtain ⟨hother, hnodup⟩ := List.nodup_cons.mp hnodup
    have hne (n : Member) (hn : n ∈ ms) : n.path ≠ m.path := fun hsame => hother (List.mem_map.mpr ⟨n, hn, hsame⟩)
    rw [Admits, ih (fun n hn => hfiles n (List.mem_cons_of_mem m hn)) hnodup]
    constructor
    · rintro ⟨hfree, habsent, hapart⟩
      have hafter (n : Member) (hn : n ∈ ms) := mt (mem_present_arrival hm).mpr (habsent n hn)
      refine ⟨List.forall_mem_cons.mpr ⟨hfree hm, fun n hn hin => hafter n hn (.inl hin)⟩, ?_⟩
      exact List.pairwise_cons.mpr ⟨fun n hn hin => hafter n hn (.inr (.inl hin)), hapart⟩
    · rintro ⟨habsent, hapart⟩
      obtain ⟨hfree, habsent⟩ := List.forall_mem_cons.mp habsent
      obtain ⟨habove, hapart⟩ := List.pairwise_cons.mp hapart
      refine ⟨fun _ => hfree, fun n hn hin => ?_, hapart⟩
      rcases (mem_present_arrival hm).mp hin with hin | hin | hsame
      · exact habsent n hn hin
      · exact habove n hn hin
      · exact hne n hn hsame

theorem admits_concat (hfile : m.kind = .file) : Admits present (ms ++ [m]) ↔
    Admits present ms ∧ m.path ∉ present ++ (arrivals present ms).map (·.1) := by
  induction ms generalizing present with
  | nil =>
    rw [arrivals, List.map_nil, List.append_nil]
    exact ⟨fun h => ⟨trivial, h.1 hfile⟩, fun h => ⟨fun _ => h.2, trivial⟩⟩
  | cons n ms ih =>
    rw [List.cons_append, Admits, Admits, ih, arrivals, List.map_append, ← List.append_assoc, and_assoc]

/-- Of files that do not all enter there is a first one that does not. -/
theorem exists_first_taken (hno : ¬ Enters present ms) : ∃ before m after, ms = before ++ m :: after ∧
    Enters present before ∧ ¬ Enters present (before ++ [m]) := by
  induction ms using List.reverseRecOn with
  | nil => exact absurd ⟨nofun, .nil⟩ hno
  | append_singleton ms m ih =>
    by_cases hms : Enters present ms
    · exact ⟨ms, m, [], rfl, hms, hno⟩
    · obtain ⟨before, n, after, rfl, hbefore, hn⟩ := ih hms
      exact ⟨before, n, after ++ [m], by rw [List.append_assoc, List.cons_append], hbefore, hn⟩

/-! ### What a copy does -/

/-- Where all files enter, all of them are added; where not, those before the first one that does not. -/
theorem on_filterCopy_enters (hh : input.Holds v ms) (hnodup : (ms.map (·.path)).Nodup)
    (henters : Enters h.present (accepted f.accepts ms)) : Staging.on v h (Staging.filterCopy input f) =
      Staging.on v h (Staging.add (copies h.present (accepted f.accepts ms)) >>= fun _ => pure (input.report f)) := by
  have hfound : ∀ e ∈ input.taken f, input.entry? e.path = some e :=
    hh.found hnodup fun e he => List.mem_of_mem_filter he
  have hkinds : ∀ m ∈ accepted f.accepts ms, m.kind = .file := fun _ => kind_accepted
  have hnodup' : ((accepted f.accepts ms).map (·.path)).Nodup := hnodup.sublist (List.filter_sublist.map _)
  have hfree := (admits_iff_enters hkinds hnodup').mpr henters
  rw [Staging.filterCopy, Staging.on_bind, selected_eq, on_copyEach_add hfound hh.taken (.refl v) hfree,
    arrivals_files hkinds, ← Staging.on_bind]

/-- What is taken already ends the copy. -/
theorem on_copyFrom_taken {e : Listed} (he : input.entry? e.path = some e) (hm : input.memberOf v e = .ok m)
    (hfile : m.kind = .file) (hthere : m.path ∈ h.present) :
    Staging.on w h (Staging.copyFrom input e.path) = ((.error (.io (.entryExists h.path m.path)), h), w) := by
  have hheader := memberOf_header hm
  have hpath : e.path = m.path := (congrArg Zip.Header.path hheader).symm
  have hnormal : Entry.normalize e.path = e.path := Entry.normalize_normalize e.name
  have hkind : (Call.copyFrom input e.path).kind? = some .file := by
    rw [Call.kind?, hnormal, he]
    exact congrArg some ((congrArg Zip.Header.kind hheader).symm.trans hfile)
  have hthere' : (Call.copyFrom input e.path).path ∈ h.present := by
    rw [Call.path, hnormal, hpath]
    exact hthere
  have hstop := run_of_present (v := w) hkind hthere'
  rw [Call.path, hnormal, hpath] at hstop
  rw [hpath]
  exact hstop

theorem on_copyEach_taken {e : Listed} {rest : List Listed}
    (hfound : ∀ x ∈ es ++ e :: rest, input.entry? x.path = some x)
    (hread : List.Forall₂ (fun e m => input.memberOf v e = .ok m) es before) (hm : input.memberOf v e = .ok m)
    (hfile : m.kind = .file) (hfree : Admits h.present before)
    (hthere : m.path ∈ h.present ++ (arrivals h.present before).map (·.1)) :
    Staging.on v h (Staging.copyEach input ((es ++ e :: rest).map (·.path))) =
      Staging.on v h (Staging.add (arrivals h.present before) >>= fun _ =>
        throw (.io (.entryExists h.path m.path))) := by
  have hcopied := on_copyEach_add (fun x hx => hfound x (List.mem_append_left _ hx)) hread (.refl v) hfree
  rw [List.map_append, List.map_cons, copyEach_append, Staging.on_bind, hcopied, ← Staging.on_bind]
  refine Staging.on_bind_congr fun _ g w hadd => ?_
  have hpresent : m.path ∈ g.present := by
    rw [present_add hadd]
    exact hthere
  have hpath : g.path = h.path := (add_staged (Staging.on_change_eq_ok hadd)).path
  rw [Staging.copyEach, Staging.on_bind,
    on_copyFrom_taken (hfound e (List.mem_append_right _ List.mem_cons_self)) hm hfile hpresent, hpath]
  rfl

/-- The path of the first file that does not enter is present once those before it have arrived. -/
theorem mem_present_of_taken (hfiles : ∀ n ∈ before ++ [m], n.kind = .file)
    (hnodup : ((before ++ [m]).map (·.path)).Nodup) (hbefore : Enters present before)
    (htaken : ¬ Enters present (before ++ [m])) :
    Admits present before ∧ m.path ∈ present ++ (arrivals present before).map (·.1) := by
  have hfront : ∀ n ∈ before, n.kind = .file := fun n hn => hfiles n (List.mem_append_left _ hn)
  have hnodup' : (before.map (·.path)).Nodup := hnodup.sublist ((List.sublist_append_left before [m]).map _)
  have hm : m.kind = .file := hfiles m (List.mem_append_right _ (List.mem_singleton_self m))
  have hfree := (admits_iff_enters hfront hnodup').mpr hbefore
  rw [← admits_iff_enters hfiles hnodup, admits_concat hm] at htaken
  exact ⟨hfree, not_not.mp fun habsent => htaken ⟨hfree, habsent⟩⟩

theorem on_filterCopy_taken (hh : input.Holds v ms) (hnodup : (ms.map (·.path)).Nodup)
    (hsplit : accepted f.accepts ms = before ++ m :: after) (hbefore : Enters h.present before)
    (htaken : ¬ Enters h.present (before ++ [m])) : Staging.on v h (Staging.filterCopy input f) =
      Staging.on v h (Staging.add (copies h.present before) >>= fun _ =>
        throw (.io (.entryExists h.path m.path))) := by
  have hfound : ∀ e ∈ input.taken f, input.entry? e.path = some e :=
    hh.found hnodup fun e he => List.mem_of_mem_filter he
  have hsub : (before ++ [m]).Sublist (accepted f.accepts ms) := by
    rw [hsplit]
    exact List.Sublist.append_left (List.singleton_sublist.mpr List.mem_cons_self) before
  have hkinds : ∀ n ∈ before ++ [m], n.kind = .file := fun n hn => kind_accepted (hsub.subset hn)
  have hnodup' : ((before ++ [m]).map (·.path)).Nodup :=
    hnodup.sublist ((hsub.trans List.filter_sublist).map _)
  obtain ⟨hfree, hthere⟩ := mem_present_of_taken hkinds hnodup' hbefore htaken
  have hread := hh.taken (f := f)
  rw [hsplit] at hread
  have hfront := List.forall₂_take_append _ _ _ hread
  have hback := List.forall₂_drop_append _ _ _ hread
  have hes := List.take_append_drop before.length (input.taken f)
  generalize (input.taken f).take before.length = front at hfront hes
  generalize (input.taken f).drop before.length = rest at hback hes
  cases hback with
  | @cons e _ rest _ hm _ =>
    rw [← hes] at hfound
    rw [Staging.filterCopy, selected_eq, ← hes, Staging.on_bind, on_copyEach_taken hfound hfront hm
      (hkinds m (List.mem_append_right _ (List.mem_singleton_self m))) hfree hthere,
      arrivals_files fun n hn => hkinds n (List.mem_append_left _ hn), Staging.on_bind, Staging.on_bind]
    rcases Staging.on v h (Staging.add (copies h.present before)) with ⟨⟨_ | _, g⟩, w⟩ <;> rfl

/-! ### What is left -/

/-- A handle with some members added to what is staged, or to what is in its archive, under a temporary name if it has
none yet. -/
def Handle.extended (h : Handle) (v : Volume) (temp : Text) (adds : List Addition) : Handle :=
  if adds = [] then h
  else { h with
    present := h.present ++ adds.map (·.1)
    stage := some ⟨h.temp?.getD temp,
      ((h.stage.map (·.members)).getD ((h.members v).map Member.copied)) ++ adds.map (·.2)⟩ }

theorem add_extended (hrun : Staging.on v h (Staging.add adds) = ((.ok (), h'), w)) :
    ∃ temp, h' = h.extended v temp adds := by
  by_cases hadds : adds = []
  · rw [hadds, Staging.on_add_nil] at hrun
    cases hrun
    exact ⟨[], (if_pos hadds).symm⟩
  · rw [Staging.on_add hadds] at hrun
    simp only [Handle.extended, if_neg hadds]
    cases hstage : h.stage with
    | some s =>
      rw [begin_of_stage hstage] at hrun
      cases hrun
      refine ⟨[], ?_⟩
      rw [Handle.put, Handle.temp?, hstage]
      rfl
    | none =>
      split at hrun
      · next b w hbegin =>
        obtain ⟨-, old, temp, p, hold, rfl, -⟩ := begin_reads hstage hbegin
        cases hrun
        refine ⟨temp, ?_⟩
        rw [Handle.put, Handle.temp?, hstage, hold.members]
        rfl
      · cases hrun

/-- Something can be staged through a handle. -/
def Begins (v : Volume) (h : Handle) : Prop := ∃ b w, Disk.on v h.begin = (.ok b, w)

theorem on_add_error {e : Fault} (hrun : Staging.on v h (Staging.add adds) = ((.error e, h'), w)) :
    adds ≠ [] ∧ h' = h ∧ Disk.on v h.begin = (.error e, w) := by
  by_cases hadds : adds = []
  · rw [hadds, Staging.on_add_nil] at hrun
    cases hrun
  · rw [Staging.on_add hadds] at hrun
    split at hrun
    · cases hrun
    · next hbegin =>
      cases hrun
      exact ⟨hadds, rfl, hbegin⟩

/-- Members are added just if there are none, or if something can be staged. -/
theorem on_add_ok_iff :
    (∃ h' w, Staging.on v h (Staging.add adds) = ((.ok (), h'), w)) ↔ adds = [] ∨ Begins v h := by
  by_cases hadds : adds = []
  · rw [hadds]
    exact ⟨fun _ => .inl rfl, fun _ => ⟨h, v, Staging.on_add_nil⟩⟩
  · rw [Staging.on_add hadds]
    constructor
    · rintro ⟨h', w, hrun⟩
      split at hrun
      · next b w hbegin => exact .inr ⟨b, w, hbegin⟩
      · cases hrun
    · intro hbegins
      obtain ⟨b, w, hbegin⟩ := hbegins.resolve_left hadds
      exact ⟨b.put adds, w, by rw [hbegin]⟩

theorem copies_eq_nil_iff : copies present ms = [] ↔ ms = [] := by
  cases ms with
  | nil => exact ⟨fun _ => rfl, fun _ => rfl⟩
  | cons m ms => simp [copies]

/-- What becomes of copying some files of an archive through a handle: all of them are added; or those before the
first one whose path is taken by then; or none, where nothing can be staged. -/
inductive Merged (v : Volume) (h : Handle) (ms : List Member) (files : Nat) : Except Fault CopyReport → Handle → Prop
  | all {report : CopyReport} (temp : Text) (henters : Enters h.present ms) (hcopied : report.copied = ms.length)
      (hfiles : report.copied + report.skipped = files) :
      Merged v h ms files (.ok report) (h.extended v temp (copies h.present ms))
  | taken {before after : List Member} {m : Member} (temp : Text) (hms : ms = before ++ m :: after)
      (hbefore : Enters h.present before) (htaken : ¬ Enters h.present (before ++ [m])) :
      Merged v h ms files (.error (.io (.entryExists h.path m.path)))
        (h.extended v temp (copies h.present before))
  | stuck {m : Member} {rest : List Member} {e : Fault} {w : Volume} (hms : ms = m :: rest)
      (hfree : m.path ∉ h.present) (hbegin : Disk.on v h.begin = (.error e, w)) : Merged v h ms files (.error e) h

/-- Whatever could be read of an archive or of a file is read as before, and no file but a temporary one is new. -/
structure Undisturbed (v w : Volume) : Prop where
  answers : ∀ (g : Handle) (q : Question), q.answer g w = q.answer g v
  reads : ∀ path c, v.read path = .ok c → w.read path = .ok c
  files : (∀ p, w.file? p = v.file? p) ∨ ∃ temp p, Fresh v w temp p

theorem answer_congr (hbytes : h.bytes w = h.bytes v) (q : Question) : q.answer h w = q.answer h v := by
  have hentry : h.entryOf w = h.entryOf v := by
    funext e
    rw [entryOf, entryOf, hbytes]
  cases q with
  | len | files | entries => rfl
  | walk => rw [Question.answer, Question.answer, Handle.walk, Handle.walk, hentry]
  | read path => exact congrArg Answer.content (read_congr hbytes path)

theorem undisturbed_of_contents (hcontent : ∀ o, w.contentOf o = v.contentOf o)
    (hreads : ∀ path c, v.read path = .ok c → w.read path = .ok c)
    (hfiles : (∀ p, w.file? p = v.file? p) ∨ ∃ temp p, Fresh v w temp p) : Undisturbed v w := by
  refine ⟨fun g => answer_congr ?_, hreads, hfiles⟩
  rw [Handle.bytes, Handle.bytes, funext hcontent]

/-- Whether members can be added or not, what is there can be read as before. -/
theorem undisturbed_add {r : Except Fault Unit} (hv : v.Sound)
    (hrun : Staging.on v h (Staging.add adds) = ((r, h'), w)) : Undisturbed v w := by
  have hsame : Undisturbed v v := undisturbed_of_contents (fun _ => rfl) (fun _ _ => id) (.inl fun _ => rfl)
  by_cases hadds : adds = []
  · rw [hadds, Staging.on_add_nil] at hrun
    cases hrun
    exact hsame
  · rw [Staging.on_add hadds] at hrun
    cases hstage : h.stage with
    | some s =>
      rw [begin_of_stage hstage] at hrun
      cases hrun
      exact hsame
    | none =>
      split at hrun
      · next b x hbegin =>
        cases hrun
        obtain ⟨hg, -, temp, p, -, -, hfresh⟩ := begin_reads hstage hbegin
        exact undisturbed_of_contents hg.contentOf (fun _ _ => hg.read) (.inr ⟨temp, p, hfresh⟩)
      · next e x hbegin =>
        cases hrun
        rcases begin_cases hv hstage hbegin with ⟨-, hitems, hcontent⟩ | ⟨_, _, hok, -⟩
        · have hg := Disk.grows_dirsMade v h.path
          refine undisturbed_of_contents hcontent (fun _ _ hread => ?_) (.inl fun p => ?_)
          · rw [hitems.read]
            exact hg.read hread
          · rw [Volume.file?, hitems.kept]
            exact hg.file? (Disk.onlyDirs_createDirAll _ v) p
        · cases hok

/-- Where nothing can be staged, the first file is the one that is stuck. -/
theorem merged_stuck {files : Nat} {e : Fault} (hms : ms = before ++ after) (hbefore : Enters h.present before)
    (hrun : Staging.on v h (Staging.add (copies h.present before)) = ((.error e, h'), w)) :
    Merged v h ms files (.error e) h' := by
  obtain ⟨hadds, rfl, hbegin⟩ := on_add_error hrun
  cases before with
  | nil => exact absurd rfl hadds
  | cons m before =>
    exact .stuck (hms : ms = m :: (before ++ after)) (hbefore.absent m List.mem_cons_self) hbegin

/-- Where all files enter, something that can be staged is all that a copy needs. -/
theorem merged_enters (hv : v.Sound) (hh : input.Holds v ms) (hnodup : (ms.map (·.path)).Nodup)
    (henters : Enters h.present (accepted f.accepts ms))
    (hrun : Staging.on v h (Staging.filterCopy input f) = ((r, h'), w)) :
    ((∃ report, r = .ok report) ↔ accepted f.accepts ms = [] ∨ Begins v h) ∧
    Merged v h (accepted f.accepts ms) (ms.filter (·.kind = .file)).length r h' ∧ Undisturbed v w := by
  rw [on_filterCopy_enters hh hnodup henters, Staging.on_bind] at hrun
  have hnil : copies h.present (accepted f.accepts ms) = [] ↔ accepted f.accepts ms = [] := copies_eq_nil_iff
  rw [← hnil, ← on_add_ok_iff]
  split at hrun
  · next g x hadd =>
    cases hrun
    obtain ⟨temp, rfl⟩ := add_extended hadd
    obtain ⟨hcopied, hfiles⟩ := hh.report f
    exact ⟨⟨fun _ => ⟨_, _, hadd⟩, fun _ => ⟨_, rfl⟩⟩, .all temp henters hcopied hfiles, undisturbed_add hv hadd⟩
  · next e g x hadd =>
    cases hrun
    refine ⟨⟨nofun, fun ⟨g, y, hok⟩ => ?_⟩, merged_stuck (List.append_nil _).symm henters hadd,
      undisturbed_add hv hadd⟩
    rw [hadd] at hok
    cases hok

/-- Where not all files enter, a copy fails. -/
theorem merged_taken (hv : v.Sound) (hh : input.Holds v ms) (hnodup : (ms.map (·.path)).Nodup)
    (hno : ¬ Enters h.present (accepted f.accepts ms))
    (hrun : Staging.on v h (Staging.filterCopy input f) = ((r, h'), w)) :
    (∃ e, r = .error e) ∧
    Merged v h (accepted f.accepts ms) (ms.filter (·.kind = .file)).length r h' ∧ Undisturbed v w := by
  obtain ⟨before, m, after, hsplit, hbefore, htaken⟩ := exists_first_taken hno
  rw [on_filterCopy_taken hh hnodup hsplit hbefore htaken, Staging.on_bind] at hrun
  split at hrun
  · next g x hadd =>
    cases hrun
    obtain ⟨temp, rfl⟩ := add_extended hadd
    exact ⟨⟨_, rfl⟩, .taken temp hsplit hbefore htaken, undisturbed_add hv hadd⟩
  · next e g x hadd =>
    cases hrun
    exact ⟨⟨_, rfl⟩, merged_stuck hsplit hbefore hadd, undisturbed_add hv hadd⟩

/-- Copying through a handle succeeds just if the paths of the accepted files are free one after the other and
something can be staged.  All of them are staged then, and otherwise those before the first one that is taken; what
can be read stays as it is. -/
theorem filterCopy_merges (hv : v.Sound) (hh : input.Holds v ms) (hnodup : (ms.map (·.path)).Nodup)
    (hrun : Staging.on v h (Staging.filterCopy input f) = ((r, h'), w)) :
    ((∃ report, r = .ok report) ↔
      Enters h.present (accepted f.accepts ms) ∧ (accepted f.accepts ms = [] ∨ Begins v h)) ∧
    Merged v h (accepted f.accepts ms) (ms.filter (·.kind = .file)).length r h' ∧
    (∀ m ∈ accepted f.accepts ms, Entry.Segmented m.path → Entry.dirsAbove m.path = Entry.ancestors m.path) ∧
    Undisturbed v w := by
  have hdirs (m : Member) (hs : Entry.Segmented m.path) : Entry.dirsAbove m.path = Entry.ancestors m.path := by
    rw [← normalize_path m] at hs ⊢
    exact Entry.dirsAbove_eq hs
  by_cases henters : Enters h.present (accepted f.accepts ms)
  · obtain ⟨hiff, hmerged, hsame⟩ := merged_enters hv hh hnodup henters hrun
    exact ⟨hiff.trans (and_iff_right henters).symm, hmerged, fun m _ => hdirs m, hsame⟩
  · obtain ⟨⟨e, rfl⟩, hmerged, hsame⟩ := merged_taken hv hh hnodup henters hrun
    exact ⟨⟨nofun, fun hall => absurd hall.1 henters⟩, hmerged, fun m _ => hdirs m, hsame⟩

/-- A file of the archive has been written already.  The one in front of it is staged, and then the copy stops. -/
theorem filterCopy_merges_boxed : ∃ h v g w input h' x,
    Disk.on boxed (Handle.create ['a']) = (.ok h, v) ∧
    Staging.on v h (Staging.write "x/b".toList [106]) = ((.ok (), g), w) ∧ w.Sound ∧
    input.Holds w boxedMembers ∧ (boxedMembers.map (·.path)).Nodup ∧
    Staging.on w g (Staging.filterCopy input .all) =
      ((.error (.io (.entryExists ['a'] "/x/b".toList)), h'), x) ∧
    h'.present = ["/x".toList, "/x/b".toList, "/x/a.t".toList] ∧ Undisturbed w x := by
  have hruns : ∃ h v, Disk.on boxed (Handle.create ['a']) = (.ok h, v) ∧
      ∃ g w, Staging.on v h (Staging.write "x/b".toList [106]) = ((.ok (), g), w) ∧ h.Holds v [] ∧
        g.path = ['a'] ∧ g.present = ["/x".toList, "/x/b".toList] ∧ g.stage.isSome = true ∧
        w.read ['s'] = .ok (Zip.write boxedMembers) :=
    ⟨_, _, rfl, _, _, rfl, rfl, rfl, rfl, rfl, rfl⟩
  obtain ⟨h, v, hcreate, g, w, hwrite, hold, hpath, hpresent, hstage, hread⟩ := hruns
  have hv : boxed.Sound := ⟨by decide, by decide, by decide⟩
  have hadvance := advances_run (.write "x/b".toList [106]) v h [] hold
  rw [Call.run, hwrite] at hadvance
  have hw : w.Sound := hadvance.grows.sound ((create_eq_ok hcreate).1.sound hv)
  have hsource : w.HasArchive ['s'] boxedMembers := ⟨_, _, hread, zip_boxed, rfl⟩
  have hnodup : (boxedMembers.map (·.path)).Nodup := by decide +kernel
  obtain ⟨input, -, hh⟩ := hsource.opens
  generalize hrun : Staging.on w g (Staging.filterCopy input .all) = run
  obtain ⟨⟨r, h'⟩, x⟩ := run
  obtain ⟨-, hmerged, -, hsame⟩ := filterCopy_merges hw hh hnodup hrun
  have hselected : accepted FilterSet.all.accepts boxedMembers =
      [.file "x/a.t".toList [104], .file "x/b".toList [105], .file "c.t".toList []] := by decide +kernel
  rw [hselected] at hmerged
  suffices r = .error (.io (.entryExists ['a'] "/x/b".toList)) ∧
      h'.present = ["/x".toList, "/x/b".toList, "/x/a.t".toList] by
    refine ⟨h, v, g, w, input, h', x, hcreate, hwrite, hw, hh, hnodup, ?_, this.2, hsame⟩
    rw [hrun, this.1]
  cases hmerged with
  | all temp henters =>
    rw [hpresent] at henters
    exact absurd henters (by decide +kernel)
  | stuck _ _ hbegin =>
    obtain ⟨s, hs⟩ := Option.isSome_iff_exists.mp hstage
    rw [begin_of_stage hs] at hbegin
    cases hbegin
  | @taken before after m temp hms hbefore htaken =>
    rw [hpresent] at hbefore htaken
    rcases before with _ | ⟨first, _ | ⟨second, before⟩⟩
    · cases hms
      exact absurd htaken (by decide +kernel)
    · cases hms
      refine ⟨by rw [hpath]; exact congrArg _ (by decide +kernel), ?_⟩
      have hadded : (copies ["/x".toList, "/x/b".toList] [.file "x/a.t".toList [104]]).map (·.1) =
          ["/x/a.t".toList] := by decide +kernel
      rw [Handle.extended, hpresent, if_neg (mt copies_eq_nil_iff.mp (List.cons_ne_nil _ _))]
      dsimp only
      rw [hadded]
      rfl
    · simp only [List.cons_append, List.cons.injEq] at hms
      obtain ⟨rfl, rfl, -⟩ := hms
      exact absurd (hbefore.absent _ (List.mem_cons_of_mem _ List.mem_cons_self)) (by decide +kernel)

/-- An archive in a directory inside another one, which a link leads to, and an archive beside it. -/
def linkedTree : Volume :=
  { Volume.empty with
    items := [([['d']], .dir), ([['d'], ['e']], .dir), ([['d'], ['e'], ['f']], .file Zip.emptyArchive),
      ([['l']], .link ['d']), ([['s']], .file (Zip.write [.file ['a'] [104]]))] }

/-- The link by which an archive was opened is replaced by another archive, so that nothing can be staged beside the
first one. -/
theorem filterCopy_stuck : ∃ h v input w,
    Disk.on linkedTree (openAt "l/e/f".toList false) = (.ok h, linkedTree) ∧
    Disk.on linkedTree (Handle.create ['l'] >>= Handle.close) = (.ok (), v) ∧
    Disk.on v (openAt ['s'] false) = (.ok input, v) ∧ input.Holds v [.file ['a'] [104]] ∧
    Enters h.present (accepted FilterSet.all.accepts [.file ['a'] [104]]) ∧
    Staging.on v h (Staging.filterCopy input .all) = ((.error (.io (.os .notDirectory)), h), w) := by
  have hruns : ∃ h v, Disk.on linkedTree (openAt "l/e/f".toList false) = (.ok h, linkedTree) ∧
      Disk.on linkedTree (Handle.create ['l'] >>= Handle.close) = (.ok (), v) ∧ h.present = [] ∧
      v.read ['s'] = .ok (Zip.write [.file ['a'] [104]]) ∧
      ∃ w, Disk.on v h.begin = (.error (.io (.os .notDirectory)), w) :=
    ⟨_, _, rfl, rfl, rfl, rfl, _, rfl⟩
  obtain ⟨h, v, hopen, hclose, hpresent, hread, w, hbegin⟩ := hruns
  have hsource : v.HasArchive ['s'] [.file ['a'] [104]] := ⟨_, ⟨[], _⟩, hread, by decide +kernel, rfl⟩
  obtain ⟨input, hinput, hh⟩ := hsource.opens
  have henters : Enters h.present (accepted FilterSet.all.accepts [.file ['a'] [104]]) := by
    rw [hpresent]
    decide +kernel
  refine ⟨h, v, input, w, hopen, hclose, hinput, hh, henters, ?_⟩
  rw [on_filterCopy_enters hh (by decide +kernel) henters, Staging.on_bind, Staging.on_add, hbegin]
  rw [Ne, copies_eq_nil_iff]
  decide +kernel

end Patchwork
