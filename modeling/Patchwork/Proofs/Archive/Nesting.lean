import Patchwork.Proofs.Archive.Close
import Patchwork.Proofs.Archive.Staged

/-!
# Entries that form a tree

The entries of an archive form a tree if no two have one path and nothing lies below a regular file.  A
handle keeps them a tree exactly as long as what is staged fits in: the directories on the way have names
without empty parts, no regular file stands above the path, and nothing lies below a new regular file.
-/
namespace Patchwork

open Handle Volume
open Zip (Listed Member)

namespace Entry

/-- A directory at the first path leads to the second one.  The root leads everywhere. -/
def Above (p q : Text) : Prop := p ∈ ancestors q ∨ p = ['/'] ∧ q ≠ ['/']

instance (p q : Text) : Decidable (Above p q) := inferInstanceAs (Decidable (_ ∨ _))

variable {p q d path : Text}

theorem not_above_root (p : Text) : ¬ Above p ['/'] := by
  rintro (h | ⟨_, h⟩)
  · cases h
  · exact h rfl

theorem not_above_of_mem_ancestors (h : d ∈ ancestors p) : ¬ Above p d := by
  rintro (hp | ⟨rfl, _⟩)
  · exact Nat.lt_asymm (length_lt_of_mem_ancestors h) (length_lt_of_mem_ancestors hp)
  · cases h

theorem above_irrefl (p : Text) : ¬ Above p p := by
  rintro (h | ⟨rfl, h⟩)
  · exact Nat.lt_irrefl _ (length_lt_of_mem_ancestors h)
  · exact h rfl

end Entry

/-- No two entries have one path, and nothing lies below a regular file. -/
structure IsTree (es : List (Text × EntryKind)) : Prop where
  nodup : (es.map (·.1)).Nodup
  above : ∀ e ∈ es, e.2 = .file → ∀ f ∈ es, ¬ Entry.Above e.1 f.1

instance (es : List (Text × EntryKind)) : Decidable (IsTree es) :=
  decidable_of_iff ((es.map (·.1)).Nodup ∧ ∀ e ∈ es, e.2 = .file → ∀ f ∈ es, ¬ Entry.Above e.1 f.1)
    ⟨fun h => ⟨h.1, h.2⟩, fun h => ⟨h.nodup, h.above⟩⟩

/-- What a call stages fits into some entries: the directories on the way are listed under their own paths,
no regular file stands above what is staged, and nothing lies below a regular file that is. -/
structure Call.Fits (es : List (Text × EntryKind)) (c : Call) (r : Except Fault Unit) : Prop where
  named : ∀ d ∈ c.dirs, Entry.normalize d = d
  below : ∀ e ∈ es, e.2 = .file → ∀ p, (p ∈ c.dirs ∨ r = .ok () ∧ p = c.path) → ¬ Entry.Above e.1 p
  above : r = .ok () → c.kind? = some .file → ∀ e ∈ es, ¬ Entry.Above c.path e.1

/-- Each of some calls stages nothing, or what fits. -/
def FitsAll (v : Volume) (h : Handle) : List Call → Prop
  | [] => True
  | c :: cs =>
    let run := Staging.on v h c.run
    (run.1.2.pending = h.pending ∨ c.Fits h.pending run.1.1) ∧ FitsAll run.2 run.1.2 cs

variable {v v₀ v' w : Volume} {h h' : Handle} {adds : List Addition} {c : Call} {r : Except Fault Unit}
  {es more : List (Text × EntryKind)} {p q : Text} {k : EntryKind} {dirs : List Text} {m : Member}

/-! ### Trees -/

theorem IsTree.of_append (ht : IsTree (es ++ more)) : IsTree es := by
  have hnodup := ht.nodup
  rw [List.map_append] at hnodup
  exact ⟨hnodup.of_append_left, fun e he hfile f hf =>
    ht.above e (List.mem_append_left _ he) hfile f (List.mem_append_left _ hf)⟩

/-- Directories that are missing may be put into a tree where no file stands above them. -/
theorem IsTree.append_dirs (ht : IsTree es) (hdirs : dirs.Nodup)
    (hbelow : ∀ e ∈ es, e.2 = .file → ∀ d ∈ dirs, ¬ Entry.Above e.1 d) :
    IsTree (es ++ (dirs.filter (· ∉ es.map (·.1))).map fun d => (d, .dir)) := by
  constructor
  · rw [List.map_append, List.map_map]
    refine List.Nodup.append ht.nodup ?_ ?_
    · simpa [Function.comp_def] using hdirs.filter _
    · intro q hq hq'
      obtain ⟨d, hd, rfl⟩ := List.mem_map.mp hq'
      exact of_decide_eq_true (List.mem_filter.mp hd).2 hq
  · intro e he hfile f hf
    rcases List.mem_append.mp he with he | he
    · rcases List.mem_append.mp hf with hf | hf
      · exact ht.above e he hfile f hf
      · obtain ⟨d, hd, rfl⟩ := List.mem_map.mp hf
        exact hbelow e he hfile d (List.mem_filter.mp hd).1
    · obtain ⟨d, _, rfl⟩ := List.mem_map.mp he
      cases hfile

theorem IsTree.concat (ht : IsTree es) (hp : p ∉ es.map (·.1))
    (hbelow : ∀ e ∈ es, e.2 = .file → ¬ Entry.Above e.1 p)
    (habove : k = .file → ∀ e ∈ es, ¬ Entry.Above p e.1) : IsTree (es ++ [(p, k)]) := by
  constructor
  · rw [List.map_append]
    refine List.Nodup.append ht.nodup (List.nodup_singleton p) ?_
    intro q hq hq'
    rw [List.mem_singleton.mp hq'] at hq
    exact hp hq
  · intro e he hfile f hf
    rcases List.mem_append.mp he with he | he
    · rcases List.mem_append.mp hf with hf | hf
      · exact ht.above e he hfile f hf
      · cases List.mem_singleton.mp hf
        exact hbelow e he hfile
    · cases List.mem_singleton.mp he
      rcases List.mem_append.mp hf with hf | hf
      · exact habove hfile f hf
      · cases List.mem_singleton.mp hf
        exact Entry.above_irrefl p

/-! ### What is staged -/

theorem listed_missingDirs (present dirs : List Text) : listed (missingDirs present dirs) =
    (dirs.filter (· ∉ present)).map fun d => (Entry.normalize d, .dir) := by
  rw [listed, missingDirs, List.map_map]
  exact List.map_congr_left fun d _ => Prod.ext (path_directory d) (kind_directory d)

theorem normalize_pending (h : Handle) : ∀ p ∈ h.pending.map (·.1), Entry.normalize p = p := by
  intro p hp
  obtain ⟨e, he, rfl⟩ := List.mem_map.mp hp
  unfold Handle.pending at he
  split at he
  · obtain ⟨m, _, rfl⟩ := List.mem_map.mp he
    exact Entry.normalize_normalize m.name
  · obtain ⟨m, _, rfl⟩ := List.mem_map.mp he
    exact Entry.normalize_normalize m.name

theorem Stages.prefix_adds {present : List Text} (hst : Stages present c r adds) (hadds : adds ≠ []) :
    missingDirs present c.dirs <+: adds := by
  cases hst with
  | nothing => exact absurd rfl hadds
  | dirs => exact List.prefix_rfl
  | entry => exact List.prefix_append _ _

/-- What fits is put into a tree. -/
theorem Call.Fits.isTree (hfit : c.Fits h.pending r) (ht : IsTree h.pending)
    (hpresent : h.present = h.pending.map (·.1)) (hst : Stages h.present c r adds)
    (hs : Staged h h' adds) : IsTree h'.pending := by
  rw [hs.pending]
  have hlisted : listed (missingDirs h.present c.dirs) =
      (c.dirs.filter (· ∉ h.pending.map (·.1))).map fun d => (d, .dir) := by
    rw [listed_missingDirs, hpresent]
    refine List.map_congr_left fun d hd => ?_
    rw [hfit.named d (List.mem_filter.mp hd).1]
  have hdirs := ht.append_dirs c.nodup_dirs fun e he hfile d hd => hfit.below e he hfile d (.inl hd)
  cases hst with
  | nothing =>
    rw [listed, List.map_nil, List.append_nil]
    exact ht
  | dirs =>
    rw [hlisted]
    exact hdirs
  | @entry m hparents habsent hpath hkind =>
    have hsplit : listed (missingDirs h.present c.dirs ++ [(c.path, m)]) =
        listed (missingDirs h.present c.dirs) ++ [(c.path, m.kind)] := by
      rw [listed, List.map_append, ← listed, List.map_singleton, hpath]
    have hway : ∀ d ∈ c.dirs, d ∈ Entry.ancestors c.path := by
      intro d hd
      rw [hparents, ← c.normalize_path] at hd
      rw [← c.normalize_path]
      exact Entry.mem_ancestors_of_dirsAbove hd
    rw [hsplit, hlisted, ← List.append_assoc]
    refine hdirs.concat ?_ ?_ ?_
    · rw [List.map_append, List.map_map, List.mem_append, not_or, ← hpresent]
      refine ⟨habsent, fun hin => ?_⟩
      obtain ⟨d, hd, hpd⟩ := List.mem_map.mp hin
      have hlt := Entry.length_lt_of_mem_ancestors (hway d (List.mem_filter.mp hd).1)
      rw [← hpd] at hlt
      exact Nat.lt_irrefl _ hlt
    · intro e he hfile
      rcases List.mem_append.mp he with he | he
      · exact hfit.below e he hfile c.path (.inr ⟨rfl, rfl⟩)
      · obtain ⟨d, _, rfl⟩ := List.mem_map.mp he
        cases hfile
    · intro hfile e he
      rcases List.mem_append.mp he with he | he
      · exact hfit.above rfl (hkind.trans (congrArg some hfile)) e he
      · obtain ⟨d, hd, rfl⟩ := List.mem_map.mp he
        exact Entry.not_above_of_mem_ancestors (hway d (List.mem_filter.mp hd).1)

/-- A directory on the way stands under its own path, if a tree is left. -/
theorem Call.normalize_dirs_of_isTree {d : Text} (hpresent : h.present = h.pending.map (·.1))
    (hpre : missingDirs h.present c.dirs <+: adds) (hs : Staged h h' adds)
    (ht : IsTree h'.pending) (hd : d ∈ c.dirs) : Entry.normalize d = d := by
  have hnodup := ht.nodup
  obtain ⟨rest, rfl⟩ := hpre
  rw [hs.pending, List.map_append, ← hpresent, listed, List.map_append, ← listed, List.map_append,
    ← List.append_assoc, listed_missingDirs, List.map_map] at hnodup
  obtain ⟨-, hmade, hdisj⟩ := List.nodup_append.mp hnodup.of_append_left
  by_cases hin : d ∈ h.present
  · exact normalize_pending h d (hpresent ▸ hin)
  have hmissing : d ∈ c.dirs.filter (· ∉ h.present) := List.mem_filter.mpr ⟨hd, decide_eq_true hin⟩
  have hlisted := List.mem_map_of_mem (f := fun d => Entry.normalize d) hmissing
  have hfree : Entry.normalize d ∉ h.present := fun h => hdisj _ h _ hlisted rfl
  have hmissing' : Entry.normalize d ∈ c.dirs.filter (· ∉ h.present) :=
    List.mem_filter.mpr ⟨Call.normalize_mem_dirs hd, decide_eq_true hfree⟩
  exact List.inj_on_of_nodup_map hmade hmissing' hmissing (Entry.normalize_normalize d)

/-- The directories on the way are there once something has been staged. -/
theorem Call.dirs_pending {d : Text} (hpresent : h.present = h.pending.map (·.1))
    (hpre : missingDirs h.present c.dirs <+: adds) (hs : Staged h h' adds)
    (hnamed : Entry.normalize d = d) (hd : d ∈ c.dirs) : ∃ e ∈ h'.pending, e.1 = d := by
  rw [hs.pending]
  by_cases hin : d ∈ h.present
  · rw [hpresent] at hin
    obtain ⟨e, he, rfl⟩ := List.mem_map.mp hin
    exact ⟨e, List.mem_append_left _ he, rfl⟩
  · refine ⟨(Entry.normalize d, .dir), List.mem_append_right _ ?_, hnamed⟩
    obtain ⟨rest, rfl⟩ := hpre
    rw [listed, List.map_append, ← listed, listed_missingDirs]
    exact List.mem_append_left _ (List.mem_map_of_mem (f := fun d => (Entry.normalize d, EntryKind.dir))
      (List.mem_filter.mpr ⟨hd, decide_eq_true hin⟩))

theorem mem_listed_concat (hpath : m.path = p) : (p, m.kind) ∈ listed (adds ++ [(q, m)]) := by
  rw [listed, List.map_append, List.map_singleton, hpath]
  exact List.mem_append_right _ (List.mem_singleton_self _)

/-- What is put into a tree, and leaves a tree, fits. -/
theorem Call.fits_of_isTree (hpresent : h.present = h.pending.map (·.1))
    (hst : Stages h.present c r adds) (hs : Staged h h' adds) (hadds : adds ≠ [])
    (ht : IsTree h'.pending) : c.Fits h.pending r := by
  have hpre := hst.prefix_adds hadds
  have hnamed : ∀ d ∈ c.dirs, Entry.normalize d = d := fun d hd =>
    Call.normalize_dirs_of_isTree hpresent hpre hs ht hd
  have hdirs : ∀ d ∈ c.dirs, ∃ e ∈ h'.pending, e.1 = d := fun d hd =>
    Call.dirs_pending hpresent hpre hs (hnamed d hd) hd
  have hold : ∀ e ∈ h.pending, e ∈ h'.pending := fun e he => by
    rw [hs.pending]
    exact List.mem_append_left _ he
  refine ⟨hnamed, ?_, ?_⟩
  · intro e he hfile p hp habove
    have hthere : ∃ f ∈ h'.pending, f.1 = p := by
      rcases hp with hp | ⟨rfl, rfl⟩
      · exact hdirs p hp
      · cases hst with
        | nothing => exact absurd rfl hadds
        | dirs hok =>
          obtain ⟨-, hroot | hin⟩ := hok rfl
          · rw [hroot] at habove
            exact absurd habove (Entry.not_above_root _)
          · exact hdirs _ hin
        | entry _ _ hpath _ =>
          rw [hs.pending]
          exact ⟨_, List.mem_append_right _ (mem_listed_concat hpath), rfl⟩
    obtain ⟨f, hf, rfl⟩ := hthere
    exact ht.above e (hold e he) hfile f hf habove
  · intro hr hfile e he
    cases hst with
    | nothing => exact absurd rfl hadds
    | dirs hok =>
      rw [(hok hr).1] at hfile
      cases hfile
    | entry _ _ hpath hkind =>
      rw [hkind] at hfile
      refine ht.above (c.path, _) ?_ (Option.some.inj hfile) e (hold e he)
      rw [hs.pending]
      exact List.mem_append_right _ (mem_listed_concat hpath)

theorem paths_missingDirs {present dirs : List Text} (hnamed : ∀ d ∈ dirs, Entry.normalize d = d) :
    (listed (missingDirs present dirs)).map (·.1) = (missingDirs present dirs).map (·.1) := by
  rw [listed_missingDirs, missingDirs, List.map_map, List.map_map]
  exact List.map_congr_left fun d hd => hnamed d (List.mem_filter.mp hd).1

theorem Stages.paths {present : List Text} (hst : Stages present c r adds)
    (hnamed : ∀ d ∈ c.dirs, Entry.normalize d = d) :
    (listed adds).map (·.1) = adds.map (·.1) := by
  cases hst with
  | nothing => rfl
  | dirs => exact paths_missingDirs hnamed
  | entry _ _ hpath _ =>
    rw [listed, List.map_append, ← listed, List.map_append, List.map_append, paths_missingDirs hnamed,
      List.map_singleton, List.map_singleton, List.map_singleton, hpath]

/-! ### Calls -/

/-- The entries are a tree after a call just if they were one and what was staged fits, and then the paths
that are present are theirs. -/
theorem isTree_run_iff (hpresent : h.present = h.pending.map (·.1)) (ht : IsTree h.pending)
    (hrun : Staging.on v h c.run = ((r, h'), w)) :
    (IsTree h'.pending ↔ h'.pending = h.pending ∨ c.Fits h.pending r) ∧
      (IsTree h'.pending → h'.present = h'.pending.map (·.1)) := by
  obtain ⟨adds, hst, hs⟩ := staged_run hrun
  by_cases hadds : adds = []
  · subst hadds
    have hsame : h'.pending = h.pending := by rw [hs.pending, listed, List.map_nil, List.append_nil]
    have hsame' : h'.present = h.present := by rw [hs.present, List.map_nil, List.append_nil]
    rw [hsame, hsame']
    exact ⟨⟨fun _ => .inl rfl, fun _ => ht⟩, fun _ => hpresent⟩
  · have hnew : h'.pending ≠ h.pending := by
      rw [hs.pending]
      simpa [listed] using hadds
    have hfits (ht' : IsTree h'.pending) := Call.fits_of_isTree hpresent hst hs hadds ht'
    refine ⟨⟨fun ht' => .inr (hfits ht'), fun h => ?_⟩, fun ht' => ?_⟩
    · exact (h.resolve_left hnew).isTree ht hpresent hst hs
    · rw [hs.present, hs.pending, List.map_append, ← hpresent, hst.paths (hfits ht').named]

theorem pending_prefix_run (hrun : Staging.on v h c.run = ((r, h'), w)) : h.pending <+: h'.pending := by
  obtain ⟨adds, -, hs⟩ := staged_run hrun
  rw [hs.pending]
  exact List.prefix_append _ _

theorem pending_prefix_runCalls {calls : List Call} {outcomes : List (Except Fault Unit)}
    (hrun : runCalls v h calls = (outcomes, h', v')) : h.pending <+: h'.pending := by
  induction calls generalizing v h outcomes with
  | nil =>
    cases hrun
    exact List.prefix_rfl
  | cons c cs ih =>
    rw [runCalls] at hrun
    split at hrun
    next r g u hc =>
    simp only [Prod.mk.injEq] at hrun
    exact (pending_prefix_run hc).trans (ih (Prod.ext rfl hrun.2))

theorem IsTree.of_prefix (ht : IsTree more) (hpre : es <+: more) : IsTree es := by
  obtain ⟨rest, rfl⟩ := hpre
  exact ht.of_append

/-- By induction on the calls.  Entries are never taken away, so that a tree after the last call was one
after each of them. -/
theorem isTree_calls_iff {calls : List Call} {outcomes : List (Except Fault Unit)}
    (hpresent : h.present = h.pending.map (·.1)) (ht : IsTree h.pending)
    (hrun : runCalls v h calls = (outcomes, h', v')) :
    (IsTree h'.pending ↔ FitsAll v h calls) ∧
      (IsTree h'.pending → h'.present = h'.pending.map (·.1)) := by
  induction calls generalizing v h outcomes with
  | nil =>
    cases hrun
    exact ⟨⟨fun _ => trivial, fun _ => ht⟩, fun _ => hpresent⟩
  | cons c cs ih =>
    rw [runCalls] at hrun
    rw [FitsAll]
    split at hrun
    next r g u hc =>
    simp only [Prod.mk.injEq] at hrun
    have hrest : runCalls u g cs = ((runCalls u g cs).1, h', v') := Prod.ext rfl hrun.2
    have hback (ht' : IsTree h'.pending) : IsTree g.pending :=
      ht'.of_prefix (pending_prefix_runCalls hrest)
    obtain ⟨hstep, hthere⟩ := isTree_run_iff hpresent ht hc
    rw [hc]
    dsimp only
    rw [← hstep]
    refine ⟨⟨fun ht' => ?_, fun hall => ?_⟩, fun ht' => ?_⟩
    · exact ⟨hback ht', (ih (hthere (hback ht')) (hback ht') hrest).1.mp ht'⟩
    · obtain ⟨hg, hcs⟩ := hall
      exact (ih (hthere hg) hg hrest).1.mpr hcs
    · exact (ih (hthere (hback ht')) (hback ht') hrest).2 ht'

/-- Where there is an entry, no regular file is staged. -/
theorem run_of_present (hkind : c.kind? = some .file) (hin : c.path ∈ h.present) :
    Staging.on v h c.run = ((.error (.io (.entryExists h.path c.path)), h), v) := by
  cases c with
  | createDirAll path => cases hkind
  | write path data =>
    show Staging.on v h (Staging.write path data) = _
    unfold Staging.write
    dsimp only
    rw [Staging.on_bind, Staging.on_requireAbsent, if_pos (show Entry.normalize path ∈ h.present from hin)]
    rfl
  | copyFrom source path =>
    show Staging.on v h (Staging.copyFrom source path) = _
    unfold Staging.copyFrom
    dsimp only
    cases he : source.entry? (Entry.normalize path) with
    | none =>
      rw [Call.kind?, he] at hkind
      cases hkind
    | some e =>
      rw [Call.kind?, he] at hkind
      have hfile : e.kind = .file := Option.some.inj hkind
      have hget : Staging.on v h (getThe Handle : Staging Handle) = ((.ok h, h), v) := rfl
      dsimp only
      rw [Staging.on_bind, hget]
      dsimp only
      rw [if_neg (by rw [hfile]; rintro ⟨⟨⟩, _⟩), Staging.on_bind, Staging.on_requireAbsent,
        if_pos (show Entry.normalize path ∈ h.present from hin)]
      rfl

/-- A handle starts with the entries of its archive, and their paths are present. -/
theorem Obtained.unstaged {path : Text} (hget : Obtained v₀ path h v) :
    h.pending = h.entries ∧ h.present = h.pending.map (·.1) := by
  cases hget with
  | opened create hrun =>
    have hload : ∃ u, load u path = .ok h := by
      rcases openAt_cases hrun with ⟨-, hload⟩ | ⟨-, -, ⟨-, f, hf⟩ | ⟨-, hload⟩⟩
      · exact ⟨_, (hload h rfl).2⟩
      · cases hf
      · exact ⟨_, hload.symm⟩
    obtain ⟨u, hload⟩ := hload
    obtain ⟨p, bytes, es, -, -, rfl⟩ := load_eq_ok hload
    refine ⟨rfl, ?_⟩
    show es.map (·.path) = (es.map fun e => (e.path, e.kind)).map (·.1)
    rw [List.map_map]
    rfl
  | created hrun =>
    obtain ⟨-, temp, p, rfl, -⟩ := create_eq_ok hrun
    exact ⟨rfl, rfl⟩

/-- The entries stay a tree just as long as each call stages what fits or nothing at all, and as long as
they are one, no regular file is staged where there is an entry. -/
theorem isTree_runCalls_iff {path : Text} {calls : List Call} {outcomes : List (Except Fault Unit)}
    (hget : Obtained v₀ path h v) (htree : IsTree h.entries)
    (hrun : runCalls v h calls = (outcomes, h', v')) :
    (IsTree h'.pending ↔ FitsAll v h calls) ∧
      (IsTree h'.pending → ∀ c : Call, c.kind? = some .file → c.path ∈ h'.pending.map (·.1) →
        Staging.on v' h' c.run = ((.error (.io (.entryExists h'.path c.path)), h'), v')) := by
  obtain ⟨hentries, hpresent⟩ := hget.unstaged
  rw [← hentries] at htree
  obtain ⟨hiff, hthere⟩ := isTree_calls_iff hpresent htree hrun
  refine ⟨hiff, fun ht c hkind hin => run_of_present hkind ?_⟩
  rwa [hthere ht]

/-- A file below directories, a directory that is there already, and a file where there is one. -/
theorem isTree_runCalls_nested : ∃ h v h' v',
    Obtained Volume.empty "a".toList h v ∧ IsTree h.entries ∧
      runCalls v h [.write "b/c".toList [1], .createDirAll "b".toList, .write "b/c".toList []] =
        ([.ok (), .ok (), .error (.io (.entryExists "a".toList "/b/c".toList))], h', v') ∧
      IsTree h'.pending ∧
      Staging.on v' h' (Call.write "/b/c".toList [2]).run =
        ((.error (.io (.entryExists "a".toList "/b/c".toList)), h'), v') := by
  have hruns : ∃ h v h' v', Disk.on Volume.empty (Handle.create "a".toList) = (.ok h, v) ∧
      h.entries = [] ∧
      runCalls v h [.write "b/c".toList [1], .createDirAll "b".toList, .write "b/c".toList []] =
        ([.ok (), .ok (), .error (.io (.entryExists "a".toList "/b/c".toList))], h', v') ∧
      h'.path = "a".toList ∧
      h'.pending = [("/b".toList, .dir), ("/b/c".toList, .file)] :=
    ⟨_, _, _, _, rfl, rfl, rfl, rfl, rfl⟩
  obtain ⟨h, v, h', v', hcreate, hentries, hrun, hpath, hpending⟩ := hruns
  have htree : IsTree h.entries := by
    rw [hentries]
    decide
  obtain ⟨-, hagain⟩ := isTree_runCalls_iff (.created hcreate) htree hrun
  have htree' : IsTree h'.pending := by
    rw [hpending]
    decide
  refine ⟨h, v, h', v', .created hcreate, htree, hrun, htree', ?_⟩
  rw [hagain htree' (.write "/b/c".toList [2]) rfl (by rw [hpending]; decide), hpath]
  rfl

/-- A file is staged below a file, and a directory twice under one path. -/
theorem isTree_lost : ∃ h v,
    Disk.on Volume.empty (Handle.create "z".toList) = (.ok h, v) ∧ IsTree h.entries ∧
      (∃ h' v', runCalls v h [.write "a".toList [], .write "a/b".toList []] =
        ([.ok (), .ok ()], h', v') ∧ ¬ IsTree h'.pending) ∧
      ∃ h' v', runCalls v h [.createDirAll "a//b".toList] = ([.ok ()], h', v') ∧
        ¬ IsTree h'.pending :=
  ⟨_, _, rfl, by decide, ⟨_, _, rfl, by decide⟩, _, _, rfl, by decide⟩

end Patchwork
