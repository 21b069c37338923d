import Patchwork.Proofs.Archive.Fresh

/-!
# Access by path

A walk takes the entries of an archive by their positions, and everything else finds them by their paths.  Of several
entries with one path it is the last that is found.  If this is a regular file, what is read is what the walk yields
at its position, and what is copied is that entry; the others are out of reach.
-/
namespace Patchwork

open Handle Volume
open Zip (Listed Member)

variable {u v w x : Volume} {h : Handle} {e : Listed} {m : Member} {ms before after : List Member}
  {front back : List Listed} {path dest : Text} {bytes : Bytes}

/-! ### The entry that is found -/

/-- Of the entries with one path, the last is found. -/
theorem entry?_of_last (hsplit : h.opened = front ++ e :: back) (hlast : ∀ e' ∈ back, e'.path ≠ e.path) :
    h.entry? e.path = some e := by
  have hnone : back.reverse.find? (·.path = e.path) = none :=
    List.find?_eq_none.mpr fun e' he' => by simpa using hlast e' (List.mem_reverse.mp he')
  unfold entry?
  rw [hsplit, List.reverse_append, List.reverse_cons, List.append_assoc, List.find?_append, hnone]
  simp

/-- The entry of a member stands among the entries as the member stands among the members. -/
theorem Handle.Holds.split (hh : h.Holds v (before ++ m :: after)) : ∃ front e back,
    h.opened = front ++ e :: back ∧ front.length = before.length ∧ h.memberOf v e = .ok m ∧
      back.map (·.path) = after.map (·.path) := by
  have hread := forall₂_of_mapM hh
  have hlength := hread.length_eq
  have hback := List.forall₂_drop_append _ _ _ hread
  refine ⟨h.opened.take before.length, ?_⟩
  have hfront : (h.opened.take before.length).length = before.length := by
    rw [List.length_append] at hlength
    rw [List.length_take]
    omega
  have hsplit := List.take_append_drop before.length h.opened
  generalize h.opened.drop before.length = rest at hback hsplit
  cases hback with
  | @cons e _ back _ he hes =>
    refine ⟨e, back, hsplit.symm, hfront, he, ?_⟩
    have hpaths : List.Forall₂ (· = ·) (back.map (·.path)) (after.map (·.path)) :=
      List.forall₂_map_left_iff.mpr (List.forall₂_map_right_iff.mpr
        (hes.imp fun _ _ hm => (congrArg Zip.Header.path (memberOf_header hm)).symm))
    rwa [List.forall₂_eq_eq_eq] at hpaths

theorem Zip.content_of_member (hm : e.member bytes = .ok m) : e.content bytes = m.content := by
  have hencrypted : m.encrypted = e.encrypted := congrArg Header.encrypted (member_header hm)
  unfold Listed.content
  rw [hm]
  by_cases he : e.encrypted = true
  · rw [if_pos he, Member.content, hencrypted, if_pos he]
    rfl
  · rw [if_neg he]
    rfl

/-- The last of the entries with one path is found there, whatever slashes are added to the path. -/
theorem Handle.Holds.found_last (hh : h.Holds v (before ++ m :: after)) (hlast : ∀ n ∈ after, n.path ≠ m.path) :
    ∃ front e back, h.opened = front ++ e :: back ∧ front.length = before.length ∧ h.memberOf v e = .ok m ∧
      e.path = m.path ∧ e.kind = m.kind ∧ h.entry? m.path = some e := by
  obtain ⟨front, e, back, hsplit, hlength, hm, hpaths⟩ := hh.split
  have hheader : m.toHeader = e.toHeader := memberOf_header hm
  have hpath : e.path = m.path := (congrArg Zip.Header.path hheader).symm
  have hkind : e.kind = m.kind := (congrArg Zip.Header.kind hheader).symm
  refine ⟨front, e, back, hsplit, hlength, hm, hpath, hkind, ?_⟩
  rw [← hpath]
  refine entry?_of_last hsplit fun e' he' => ?_
  obtain ⟨n, hn, hsame⟩ := List.mem_map.mp (hpaths ▸ List.mem_map_of_mem (f := fun e : Listed => e.path) he')
  rw [← hsame, hpath]
  exact hlast n hn

theorem Handle.Holds.files (hh : h.Holds v ms) : h.files = (ms.filter (·.kind = .file)).map (·.path) := by
  have hall := hh.taken (f := .all)
  have hpaths : List.Forall₂ (· = ·) ((h.taken .all).map (·.path)) ((accepted FilterSet.all.accepts ms).map (·.path)) :=
    List.forall₂_map_left_iff.mpr (List.forall₂_map_right_iff.mpr
      (hall.imp fun _ _ hm => (congrArg Zip.Header.path (memberOf_header hm)).symm))
  rw [List.forall₂_eq_eq_eq, ← selected_eq] at hpaths
  have hfiles : h.selected .all = h.files := List.filter_true _
  have haccepted : accepted FilterSet.all.accepts ms = ms.filter (·.kind = .file) :=
    List.filter_congr fun m _ => Bool.and_true _
  rw [← hfiles, hpaths, haccepted]

/-! ### What is done with it -/

/-- The members of a new archive that one member is copied into: the directories on the way to it, and the member. -/
def alone (m : Member) : List Member := (missingParents [] m.path).map (·.2) ++ [m.copied]

/-- Copies the entry at a path into a new archive. -/
def Handle.copyOut (h : Handle) (path dest : Text) : Disk Fault Unit :=
  Handle.create dest >>= fun output => output.finish (Staging.copyFrom h path)

/-- Copying an entry into a new archive writes all of it at once. -/
theorem on_copyOut (hg : Grows v u) (he : h.entry? (Entry.normalize path) = some e) (hm : h.memberOf v e = .ok m)
    (dest : Text) : Disk.on u (h.copyOut path dest) =
      Disk.on u (Disk.writeAtomic dest (Zip.write (alone m)) >>= fun _ => pure ()) := by
  have hout : alone m = (missingParents [] m.path ++ [(m.path, m.copied)]).map (·.2) := by
    rw [List.map_append]
    rfl
  rw [hout]
  refine on_create_finish fun temp x hx => ?_
  have hm' : h.memberOf x e = .ok m := (memberOf_grow (hg.trans hx) h e).trans hm
  exact on_copyFrom he hm' rfl List.not_mem_nil

/-- What an entry's path leads to: the entry itself.  A regular file is listed, its content is read at its path and is
what a walk yields at its position, and a directory cannot be read; the entry is copied wherever a new archive can be
put. -/
structure Reached (h : Handle) (w : Volume) (archive : Text) (i : Nat) (m : Member) : Prop where
  file : m.kind = .file → m.path ∈ h.files ∧ h.read w m.path = m.content.mapError (·.fault archive) ∧
    (h.walk w)[i]? = some ((h.read w m.path).map (Entry.file m.path))
  dir : m.kind = .dir → h.read w m.path = .error (.io (.entryIsDirectory m.path)) ∧
    (h.walk w)[i]? = some (.ok (.directory m.path))
  padded : ∀ front back, h.read w (List.replicate front '/' ++ m.path ++ List.replicate back '/') = h.read w m.path
  copied : ∀ u dest front back, Grows w u →
    let copy := h.copyOut (List.replicate front '/' ++ m.path ++ List.replicate back '/') dest
    ((∃ x, Disk.on u copy = (.ok (), x)) ↔ Creatable u dest) ∧
      ∀ x, Disk.on u copy = (.ok (), x) → Zip.ReadsBack (alone m) → PutAt u x dest (alone m)

theorem Handle.Holds.reached (hw : w.Sound) (hh : h.Holds w (before ++ m :: after))
    (hlast : ∀ n ∈ after, n.path ≠ m.path) : Reached h w h.path before.length m := by
  obtain ⟨front, e, back, hsplit, hlength, hm, hpath, hkind, hfound⟩ := hh.found_last hlast
  have hnormal (i j : Nat) :
      Entry.normalize (List.replicate i '/' ++ m.path ++ List.replicate j '/') = m.path := by
    rw [Entry.normalize_padded, normalize_path]
  have hentry : h.entry? (Entry.normalize m.path) = some e := by rw [normalize_path, hfound]
  have hwalk : (h.walk w)[before.length]? = some (h.entryOf w e) := by
    rw [Handle.walk, hsplit, ← hlength]
    simp
  have hcontent : e.content (h.bytes w) = m.content := Zip.content_of_member (memberOf_eq_ok_iff.mp hm)
  refine ⟨fun hfile => ?_, fun hdir => ?_, fun i j => ?_, fun u dest i j hg => ?_⟩
  · have hread := read_entry (v := w) hentry (hkind.trans hfile)
    rw [hcontent] at hread
    refine ⟨?_, hread, ?_⟩
    · rw [hh.files]
      exact List.mem_map_of_mem (List.mem_filter.mpr ⟨by simp, decide_eq_true hfile⟩)
    · rw [hwalk, hread, entryOf, hkind.trans hfile, hpath, hcontent]
      cases m.content <;> rfl
  · rw [hwalk, entryOf, hkind.trans hdir, hpath]
    refine ⟨?_, rfl⟩
    unfold Handle.read
    simp only [normalize_path, hfound, hkind.trans hdir]
  · rw [Handle.read, Handle.read, hnormal, normalize_path]
  · have hcopy : Disk.on u (h.copyOut (List.replicate i '/' ++ m.path ++ List.replicate j '/') dest) = _ :=
      on_copyOut hg ((congrArg h.entry? (hnormal i j)).trans hfound) hm dest
    refine ⟨⟨fun hcopied => ?_, fun hdest => ?_⟩, fun x hrun hzip => ?_⟩
    · obtain ⟨x, hrun⟩ := hcopied
      exact (creatable_of_eq hcopy).mp ⟨(), x, hrun⟩
    · obtain ⟨⟨⟩, x, hrun⟩ := (creatable_of_eq hcopy).mpr hdest
      exact ⟨x, hrun⟩
    · exact putAt_written (hg.sound hw) hzip (writes_of_eq hcopy hrun).2

/-- Whatever an archive lists that can be opened, each entry that is the last one with its path is reached by it. -/
theorem reached_by_path {create : Bool} (hv : v.Sound) (hopen : Disk.on v (openAt path create) = (.ok h, w)) :
    ∃ bytes a, w.read path = .ok bytes ∧ Zip.read bytes = .ok a ∧
      h.files = (a.members.filter (·.kind = .file)).map (·.path) ∧
      ∀ before m after, a.members = before ++ m :: after → (∀ n ∈ after, n.path ≠ m.path) →
        Reached h w path before.length m := by
  obtain ⟨hw, hload⟩ := openAt_eq_ok hv hopen
  obtain ⟨place, bytes, es, hfind, hindex, heq⟩ := load_eq_ok hload
  obtain ⟨a, hread, hms⟩ := Zip.read_of_index hindex
  have hbytes : h.bytes w = bytes := by
    rw [heq]
    exact contentOf_opened (find_eq_ok_iff.mp hfind).2
  have hh : h.Holds w a.members := by
    have hopened : h.opened = es := by rw [heq]; rfl
    rw [Holds, hopened]
    exact mapM_memberOf (by rw [hbytes]; exact hms)
  have hpath : h.path = path := by rw [heq]; rfl
  refine ⟨bytes, a, read_eq_ok_iff.mpr ⟨place, hfind⟩, hread, hh.files, fun before m after hsplit hlast => ?_⟩
  rw [hsplit] at hh
  exact hpath ▸ hh.reached hw hlast

/-- A regular file and a directory with one path, and two regular files with another one. -/
def shadowedMembers : List Member :=
  [.file ['a'] [104], .directory "a/".toList, .file "b/c".toList [105], .file "b/c".toList [106]]

def shadowed : Volume := { Volume.empty with items := [([['s']], .file (Zip.write shadowedMembers))] }

theorem read_shadowed : shadowed.read ['s'] = .ok (Zip.write shadowedMembers) ∧
    Zip.read (Zip.write shadowedMembers) = .ok ⟨[], shadowedMembers⟩ := by decide +kernel

/-- The second one of the regular files is reached. -/
theorem reached_by_path_last : ∃ h, shadowed.Sound ∧ Disk.on shadowed (openAt ['s'] false) = (.ok h, shadowed) ∧
    Reached h shadowed ['s'] 3 (.file "b/c".toList [106]) ∧ h.read shadowed "/b/c".toList = .ok [106] := by
  have hv : shadowed.Sound := ⟨by decide, by decide, by decide⟩
  have hpath : (Member.file "b/c".toList [106]).path = "/b/c".toList := by decide
  have hkind : (Member.file "b/c".toList [106]).kind = .file := by decide
  have hcontent : (Member.file "b/c".toList [106]).content = .ok [106] := by decide +kernel
  obtain ⟨hread, hzip⟩ := read_shadowed
  obtain ⟨h, hopen, -⟩ := Volume.HasArchive.opens ⟨_, _, hread, hzip, rfl⟩
  obtain ⟨bytes, a, hbytes, ha, -, hreached⟩ := reached_by_path hv hopen
  obtain rfl : Zip.write shadowedMembers = bytes := Except.ok.inj (hread.symm.trans hbytes)
  obtain rfl : (⟨[], shadowedMembers⟩ : Zip.Archive) = a := Except.ok.inj (hzip.symm.trans ha)
  have hlast := hreached (shadowedMembers.take 3) (.file "b/c".toList [106]) [] rfl nofun
  refine ⟨h, hv, hopen, hlast, ?_⟩
  rw [← hpath, (hlast.file hkind).2.1, hcontent]
  rfl

/-- The other entries are not: what a walk yields and the list of files has cannot be read, is not copied, or is not
what is read. -/
theorem unreached_by_path : ∃ h w, Disk.on shadowed (openAt ['s'] false) = (.ok h, shadowed) ∧
    (h.walk shadowed)[0]? = some (.ok (.file "/a".toList [104])) ∧ "/a".toList ∈ h.files ∧
    h.read shadowed "/a".toList = .error (.io (.entryIsDirectory "/a".toList)) ∧
    Disk.on shadowed (h.copyOut "/a".toList ['d']) = (.ok (), w) ∧
    w.HasArchive ['d'] [(Member.directory "a/".toList).copied] ∧
    (h.walk shadowed)[2]? = some (.ok (.file "/b/c".toList [105])) ∧
    h.read shadowed "/b/c".toList = .ok [106] := by
  have hwalk : (Disk.on shadowed (openAt ['s'] false >>= fun h => Disk.ask fun v =>
      .ok ((h.walk v)[0]?, (h.walk v)[2]?))).1 =
      .ok (some (.ok (.file "/a".toList [104])), some (.ok (.file "/b/c".toList [105]))) := by decide +kernel
  have hreads : (Disk.on shadowed (openAt ['s'] false >>= fun h => Disk.ask fun v =>
      .ok (decide ("/a".toList ∈ h.files), h.read v "/a".toList, h.read v "/b/c".toList))).1 =
      .ok (true, .error (.io (.entryIsDirectory "/a".toList)), .ok [106]) := by decide +kernel
  have hcopied : (Disk.on shadowed (openAt ['s'] false >>= fun h => h.copyOut "/a".toList ['d'] >>= fun _ =>
      Disk.ask fun v => (v.read ['d']).mapError fun _ => .notFound ['d'])).1 =
      .ok (Zip.write [(Member.directory "a/".toList).copied]) := by decide +kernel
  obtain ⟨h, hopen, -⟩ := Volume.HasArchive.opens ⟨_, _, read_shadowed.1, read_shadowed.2, rfl⟩
  rw [Disk.on_bind_of_ok hopen] at hwalk hreads hcopied
  obtain ⟨hfirst, hthird⟩ := Prod.mk.inj (Except.ok.inj hwalk)
  have hreads := Except.ok.inj hreads
  simp only [Prod.mk.injEq, decide_eq_true_eq] at hreads
  obtain ⟨hlisted, hdir, hlast⟩ := hreads
  generalize hrun : Disk.on shadowed (h.copyOut "/a".toList ['d'] >>= fun _ =>
    Disk.ask fun v => (v.read ['d']).mapError fun _ => .notFound ['d']) = run at hcopied
  obtain ⟨r, x⟩ := run
  obtain rfl : r = _ := hcopied
  obtain ⟨⟨⟩, w, hcopy, hask⟩ := Disk.on_bind_eq_ok hrun
  obtain ⟨hbytes, rfl⟩ := Disk.on_ask_eq_ok hask
  refine ⟨h, w, hopen, hfirst, hlisted, hdir, hcopy, ⟨_, ⟨[], _⟩, ?_, (by decide +kernel :
    Zip.read (Zip.write [(Member.directory "a/".toList).copied]) = _), rfl⟩, hthird, hlast⟩
  cases hfile : w.read ['d'] with
  | error e =>
    rw [hfile] at hbytes
    cases hbytes
  | ok bytes =>
    rw [hfile] at hbytes
    exact congrArg Except.ok (Except.ok.inj hbytes)

end Patchwork
