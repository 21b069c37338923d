import Patchwork.Proofs.Archive.Commit

/-!
# What a call stages

Whatever comes of a call, the handle has the entries that it had, and behind them those that were staged:
nothing, the directories on the way to the path of the call, or these and its own entry.
-/
namespace Patchwork

open Handle Volume
open Zip (Listed Member)

/-- The directories on the way to a path. -/
def Entry.dirsAbove (path : Text) : List Text :=
  match parent? path with
  | some dir => chain dir
  | none => []

namespace Entry

variable {path d : Text}

theorem nodup_dirsAbove (path : Text) : (dirsAbove path).Nodup := by
  unfold dirsAbove
  split
  · exact nodup_chain _
  · exact List.nodup_nil

theorem mem_ancestors_of_dirsAbove (h : d ∈ dirsAbove (normalize path)) : d ∈ ancestors (normalize path) := by
  unfold dirsAbove at h
  split at h
  · next dir hdir =>
    have habove := normalize_mem_ancestors (parent?_mem_ancestors hdir)
    rcases List.mem_append.mp h with h | h
    · exact mem_ancestors_of_prefix h (prefix_of_mem_ancestors habove)
    · split at h
      · cases h
      · rwa [List.mem_singleton.mp h]
  · cases h

theorem normalize_mem_dirsAbove (h : d ∈ dirsAbove path) : normalize d ∈ dirsAbove path := by
  unfold dirsAbove at h ⊢
  split at h
  · exact normalize_mem_chain h
  · cases h

end Entry

namespace Call

/-- The path of the entry that a call is about. -/
def path : Call → Text
  | write path _ | createDirAll path | copyFrom _ path => Entry.normalize path

/-- What the entry will be listed as, if the call has one to add. -/
def kind? : Call → Option EntryKind
  | write path data => some (Member.file (Entry.relative (Entry.normalize path)) data).kind
  | createDirAll _ => some .dir
  | copyFrom source path => (source.entry? (Entry.normalize path)).map (·.kind)

/-- The directories that a call makes if they are missing. -/
def dirs : Call → List Text
  | createDirAll path => Entry.chain path
  | write path _ | copyFrom _ path => Entry.dirsAbove (Entry.normalize path)

variable {c : Call} {d : Text}

theorem normalize_path (c : Call) : Entry.normalize c.path = c.path := by
  cases c <;> exact Entry.normalize_normalize _

theorem nodup_dirs (c : Call) : c.dirs.Nodup := by
  cases c with
  | createDirAll path => exact Entry.nodup_chain path
  | write path _ | copyFrom _ path => exact Entry.nodup_dirsAbove _

theorem normalize_mem_dirs (hd : d ∈ c.dirs) : Entry.normalize d ∈ c.dirs := by
  cases c with
  | createDirAll path => exact Entry.normalize_mem_chain hd
  | write path _ | copyFrom _ path => exact Entry.normalize_mem_dirsAbove hd

end Call

theorem path_directory (d : Text) : (Member.directory (Entry.relative d ++ ['/'])).path = Entry.normalize d := by
  show Entry.normalize (Entry.relative d ++ ['/']) = _
  rw [Entry.normalize_append_slash, Entry.normalize_relative]

theorem kind_directory (d : Text) : (Member.directory (Entry.relative d ++ ['/'])).kind = .dir := by
  show (if Zip.Header.isDir _ then EntryKind.dir else _) = _
  rw [if_pos]
  simp [Zip.Header.isDir, Member.directory]

/-- The entries that some additions are listed as. -/
def listed (adds : List Addition) : List (Text × EntryKind) := adds.map fun a => (a.2.path, a.2.kind)

namespace Handle

/-- The entries of the archive that closing the handle leaves. -/
def pending (h : Handle) : List (Text × EntryKind) :=
  match h.stage with
  | some s => s.members.map fun m => (m.path, m.kind)
  | none => h.entries

/-- A handle with some additions staged behind what another one has. -/
structure Staged (h h' : Handle) (adds : List Addition) : Prop where
  path : h'.path = h.path
  present : h'.present = h.present ++ adds.map (·.1)
  pending : h'.pending = h.pending ++ listed adds

end Handle

variable {v w : Volume} {h h' h'' : Handle} {adds more : List Addition} {f : Fault}

theorem Handle.Staged.refl (h : Handle) : Staged h h [] :=
  ⟨rfl, (List.append_nil _).symm, (List.append_nil _).symm⟩

theorem Handle.Staged.trans (hs : Staged h h' adds) (hs' : Staged h' h'' more) :
    Staged h h'' (adds ++ more) := by
  refine ⟨hs'.path.trans hs.path, ?_, ?_⟩
  · rw [hs'.present, hs.present, List.map_append, List.append_assoc]
  · rw [hs'.pending, hs.pending, listed, listed, listed, List.map_append, List.append_assoc]

/-- A new archive starts with the entries of the one that was opened. -/
theorem begin_staged (hrun : Disk.on v h.begin = (.ok h', w)) :
    Staged h h' [] ∧ h'.stage ≠ none := by
  cases hstage : h.stage with
  | some s =>
    rw [begin_of_stage hstage] at hrun
    cases hrun
    exact ⟨.refl h, by rw [hstage]; exact Option.some_ne_none s⟩
  | none =>
    unfold Handle.begin at hrun
    rw [hstage] at hrun
    obtain ⟨⟨⟩, u, _, hrun⟩ := Disk.on_bind_eq_ok hrun
    obtain ⟨temp, x, _, hrun⟩ := Disk.on_bind_eq_ok hrun
    obtain ⟨r, y, hread, hrun⟩ := Disk.on_bind_eq_ok hrun
    rw [Disk.on_outcome_ask] at hread
    cases hms : h.opened.mapM (h.memberOf x) with
    | error e =>
      rw [hms] at hread
      cases hread
      obtain ⟨⟨⟩, z, _, hrun⟩ := Disk.on_bind_eq_ok hrun
      cases hrun
    | ok ms =>
      rw [hms] at hread
      cases hread
      cases hrun
      refine ⟨⟨rfl, (List.append_nil _).symm, ?_⟩, Option.some_ne_none _⟩
      have hheaders := Zip.mapM_header (mapM_ok_of_imp (fun _ _ => memberOf_eq_ok_iff.mp) hms)
      have hentries := congrArg (List.map fun m : Zip.Header => (m.path, m.kind)) hheaders
      rw [List.map_map, List.map_map] at hentries
      rw [listed, List.map_nil, List.append_nil, Handle.pending, Handle.pending, hstage]
      dsimp only
      rw [List.map_map]
      exact hentries

theorem put_staged (hstage : h.stage ≠ none) (adds : List Addition) : Staged h (h.put adds) adds := by
  obtain ⟨s, hs⟩ := Option.ne_none_iff_exists'.mp hstage
  refine ⟨rfl, rfl, ?_⟩
  rw [Handle.pending, Handle.pending, Handle.put, hs, Option.map_some]
  dsimp only
  rw [List.map_append, List.map_map, listed]
  rfl

theorem add_staged (hrun : Disk.on v (h.add adds) = (.ok h', w)) : Staged h h' adds := by
  unfold Handle.add at hrun
  split at hrun
  · next hnil =>
    cases hrun
    rw [hnil]
    exact .refl h
  · obtain ⟨b, u, hbegin, hrun⟩ := Disk.on_bind_eq_ok hrun
    cases hrun
    obtain ⟨hb, hstage⟩ := begin_staged hbegin
    exact hb.trans (put_staged hstage adds)

theorem change_staged {adds : Handle → List Addition} {r : Except Fault Unit}
    (hrun : Staging.on v h (Staging.change fun h => h.add (adds h)) = ((r, h'), w)) :
    (r = .ok () ∧ Staged h h' (adds h)) ∨ ((∃ f, r = .error f) ∧ h' = h) := by
  cases r with
  | ok => exact .inl ⟨rfl, add_staged (Staging.on_change_eq_ok hrun)⟩
  | error f => exact .inr ⟨⟨f, rfl⟩, (Staging.on_change_eq_error hrun).2⟩

/-- What a call may stage in a handle with some paths present. -/
inductive Stages (present : List Text) (c : Call) : Except Fault Unit → List Addition → Prop
  | nothing {r : Except Fault Unit} (h : r = .ok () → c.path ∈ present ∧ c.kind? = some .dir) :
      Stages present c r []
  | dirs {r : Except Fault Unit}
      (h : r = .ok () → c.kind? = some .dir ∧ (c.path = ['/'] ∨ c.path ∈ c.dirs)) :
      Stages present c r (missingDirs present c.dirs)
  | entry {m : Member} (hdirs : c.dirs = Entry.dirsAbove c.path) (habsent : c.path ∉ present)
      (hpath : m.path = c.path) (hkind : c.kind? = some m.kind) :
      Stages present c (.ok ()) (missingDirs present c.dirs ++ [(c.path, m)])

theorem stages_failed {present : List Text} {c : Call} {r : Except Fault Unit} (hr : ∃ f, r = .error f) :
    Stages present c r [] := by
  obtain ⟨f, rfl⟩ := hr
  exact .nothing nofun

theorem missingParents_eq (present : List Text) (path : Text) :
    missingParents present path = missingDirs present (Entry.dirsAbove path) := by
  unfold missingParents Entry.dirsAbove
  cases Entry.parent? path <;> rfl

/-- A call fails if its path is taken.  Otherwise it makes the directories on the way and adds its entry, or
fails on the way. -/
theorem staged_entry {c : Call} {s : Staging Unit} {r : Except Fault Unit}
    (hdirs : c.dirs = Entry.dirsAbove c.path)
    (hs : ∀ u g g' u' r, Staging.on u g s = ((r, g'), u') → ((∃ f, r = .error f) ∧ g' = g) ∨
      r = .ok () ∧ ∃ m : Member, m.path = c.path ∧ c.kind? = some m.kind ∧ Staged g g' [(c.path, m)])
    (hrun : Staging.on v h (Staging.requireAbsent c.path >>= fun _ =>
      Staging.createParents c.path >>= fun _ => s) = ((r, h'), w)) :
    ∃ adds, Stages h.present c r adds ∧ Staged h h' adds := by
  rw [Staging.on_bind, Staging.on_requireAbsent] at hrun
  by_cases habsent : c.path ∈ h.present
  · rw [if_pos habsent] at hrun
    cases hrun
    exact ⟨[], stages_failed ⟨_, rfl⟩, .refl h⟩
  rw [if_neg habsent] at hrun
  dsimp only at hrun
  rw [Staging.on_bind] at hrun
  split at hrun
  · next g u hmade =>
    obtain ⟨-, hg⟩ | ⟨⟨f, hf⟩, -⟩ := change_staged hmade
    · have hg' : Staged h g (missingDirs h.present c.dirs) := by
        rw [hdirs, ← missingParents_eq]
        exact hg
      obtain ⟨⟨f, rfl⟩, rfl⟩ | ⟨rfl, m, hpath, hkind, hm⟩ := hs _ _ _ _ _ hrun
      · exact ⟨_, .dirs nofun, hg'⟩
      · exact ⟨_, .entry hdirs habsent hpath hkind, hg'.trans hm⟩
    · cases hf
  · next f g u hmade =>
    obtain ⟨hok, -⟩ | ⟨-, hsame⟩ := change_staged hmade
    · cases hok
    · cases hrun
      exact ⟨[], stages_failed ⟨f, rfl⟩, hsame ▸ .refl h⟩

theorem staged_write {path : Text} {data : Bytes} {r : Except Fault Unit}
    (hrun : Staging.on v h (Staging.write path data) = ((r, h'), w)) :
    ∃ adds, Stages h.present (.write path data) r adds ∧ Staged h h' adds := by
  refine staged_entry (c := .write path data) rfl ?_ hrun
  intro u g g' u' r hadd
  obtain ⟨rfl, hg⟩ | hfail := change_staged hadd
  · refine .inr ⟨rfl, _, ?_, rfl, hg⟩
    show Entry.normalize (Entry.relative _) = _
    rw [Entry.normalize_relative, Entry.normalize_normalize]
    rfl
  · exact .inl hfail

theorem path_entry {source : Handle} {path : Text} {e : Listed} (he : source.entry? path = some e) :
    e.path = path := by
  have hfound := List.find?_some he
  exact of_decide_eq_true hfound

theorem memberOf_header {source : Handle} {e : Listed} {m : Member} (hm : source.memberOf v e = .ok m) :
    m.toHeader = e.toHeader := Zip.member_header (memberOf_eq_ok_iff.mp hm)

theorem staged_copyFrom {source : Handle} {path : Text} {r : Except Fault Unit}
    (hrun : Staging.on v h (Staging.copyFrom source path) = ((r, h'), w)) :
    ∃ adds, Stages h.present (.copyFrom source path) r adds ∧ Staged h h' adds := by
  unfold Staging.copyFrom at hrun
  dsimp only at hrun
  cases he : source.entry? (Entry.normalize path) with
  | none =>
    rw [he] at hrun
    cases hrun
    exact ⟨[], stages_failed ⟨_, rfl⟩, .refl _⟩
  | some e =>
    have hkind : (Call.copyFrom source path).kind? = some e.kind := by rw [Call.kind?, he]; rfl
    rw [he] at hrun
    dsimp only at hrun
    rw [Staging.on_bind] at hrun
    have hget : Staging.on v h (getThe Handle : Staging Handle) = ((.ok h, h), v) := rfl
    rw [hget] at hrun
    dsimp only at hrun
    split at hrun
    · next hthere =>
      cases hrun
      exact ⟨[], .nothing fun _ => ⟨hthere.2, hthere.1 ▸ hkind⟩, .refl _⟩
    · refine staged_entry (c := .copyFrom source path) rfl ?_ hrun
      intro u g g' u' r hrest
      rw [Staging.on_bind, Staging.on_ask] at hrest
      split at hrest
      · next m x y hread =>
        simp only [Prod.mk.injEq] at hread
        obtain ⟨⟨hm, rfl⟩, rfl⟩ := hread
        obtain ⟨rfl, hg⟩ | hfail := change_staged hrest
        · have hsame : m.toHeader = e.toHeader := memberOf_header hm
          have hpath : m.copied.path = e.path := (congrArg Zip.Header.path hsame :)
          have hkind' : m.copied.kind = e.kind := (congrArg Zip.Header.kind hsame :)
          exact .inr ⟨rfl, m.copied, hpath.trans (path_entry he), hkind' ▸ hkind, hg⟩
        · exact .inl hfail
      · next hread =>
        simp only [Prod.mk.injEq] at hread
        obtain ⟨⟨-, rfl⟩, rfl⟩ := hread
        cases hrest
        exact .inl ⟨⟨_, rfl⟩, rfl⟩

/-- What has been staged once a call has been made, whatever comes of it. -/
theorem staged_run {c : Call} {r : Except Fault Unit} (hrun : Staging.on v h c.run = ((r, h'), w)) :
    ∃ adds, Stages h.present c r adds ∧ Staged h h' adds := by
  cases c with
  | write path data => exact staged_write hrun
  | copyFrom source path => exact staged_copyFrom hrun
  | createDirAll path =>
    obtain ⟨rfl, hs⟩ | ⟨hfail, rfl⟩ := change_staged hrun
    · refine ⟨_, .dirs fun _ => ⟨rfl, ?_⟩, hs⟩
      by_cases hroot : Entry.normalize path = ['/']
      · exact .inl hroot
      · refine .inr (List.mem_append_right _ ?_)
        rw [if_neg hroot]
        exact List.mem_singleton_self _
    · exact ⟨[], stages_failed hfail, .refl _⟩

end Patchwork
