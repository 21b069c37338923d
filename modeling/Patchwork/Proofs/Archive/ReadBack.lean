import Patchwork.Proofs.Archive.Access
import Patchwork.Proofs.Zip.Inflating
import Patchwork.Proofs.Zip.Written

/-!
# Reading what was written

The member of a file that was written is the last one at its path, however many calls follow, so that it is the one
that is found once the archive is opened again.  It is found as a regular file unless its name ends with a backslash,
and it is the last one unless a later call makes a directory at its path under another name, such as `/a/` for `/a`.
-/
namespace Patchwork

open Handle Volume
open Zip (Listed Member)

/-! ### The last member at a path -/

/-- A member is a regular file at a path with some content. -/
structure Zip.Member.Contains (m : Member) (path : Text) (data : Bytes) : Prop where
  path : m.path = path
  kind : m.kind = .file
  content : m.content = .ok data

/-- The last of the members at a path is a regular file with some content. -/
def FileAt (ms : List Member) (path : Text) (data : Bytes) : Prop :=
  ∃ before m behind, ms = before ++ m :: behind ∧ m.Contains path data ∧ ∀ n ∈ behind, n.path ≠ path

variable {u v v₀ w : Volume} {h h' input : Handle} {old ms more : List Member} {m : Member} {e : Listed} {s : Stage}
  {archive path : Text} {data : Bytes} {α : Type}

theorem Zip.Member.not_encrypted (hcontent : m.content = .ok data) : m.encrypted = false := by
  by_contra hencrypted
  unfold Zip.Member.content at hcontent
  rw [if_pos (Bool.eq_true_of_not_eq_false hencrypted)] at hcontent
  cases hcontent

theorem Zip.Member.Contains.copied (hm : m.Contains path data) : m.copied.Contains path data := by
  refine ⟨hm.path, hm.kind, ?_⟩
  have hcontent := hm.content
  have hplain : ¬ m.encrypted = true := Bool.eq_false_iff.mp (not_encrypted hcontent)
  unfold Zip.Member.content at hcontent ⊢
  rwa [if_neg hplain] at hcontent

/-- A new file is one unless its name ends with a backslash. -/
theorem Zip.Member.contains_file (hname : (Entry.normalize path).getLast? ≠ some '\\') (data : Bytes) :
    (Member.file (Entry.relative (Entry.normalize path)) data).Contains (Entry.normalize path) data := by
  refine ⟨?_, ?_, content_file _ data⟩
  · show Entry.normalize (Entry.relative (Entry.normalize path)) = _
    rw [Entry.normalize_relative, Entry.normalize_normalize]
  · rw [Entry.relative_normalize]
    have hslash := Entry.getLast?_trimmed path
    have hbackslash : (Text.dropBoth (· = '/') path).getLast? ≠ some '\\' := by
      intro hlast
      rw [Entry.normalize, List.getLast?_cons, hlast] at hname
      exact hname rfl
    have hfile : Zip.Header.isDir (Member.file (Text.dropBoth (· = '/') path) data).toHeader = false := by
      simp [Zip.Header.isDir, Member.file, hslash, hbackslash]
    rw [Zip.Header.kind, hfile]
    rfl

theorem FileAt.append (hfile : FileAt ms path data) (hmore : ∀ n ∈ more, n.path ≠ path) :
    FileAt (ms ++ more) path data := by
  obtain ⟨before, m, behind, rfl, hm, hlast⟩ := hfile
  refine ⟨before, m, behind ++ more, by rw [List.append_assoc, List.cons_append], hm, fun n hn => ?_⟩
  exact (List.mem_append.mp hn).elim (hlast n) (hmore n)

theorem fileAt_concat (hm : m.Contains path data) (ms : List Member) : FileAt (ms ++ [m]) path data :=
  ⟨ms, m, [], rfl, hm, nofun⟩

/-! ### The entry that is found -/

/-- The entry that is found at a path is the one of the last member there. -/
theorem Handle.Holds.entry? (hh : h.Holds v ms) (hfile : FileAt ms path data) :
    ∃ e m, h.entry? path = some e ∧ h.memberOf v e = .ok m ∧ m.Contains path data := by
  obtain ⟨before, m, behind, rfl, hm, hlast⟩ := hfile
  obtain ⟨-, e, -, -, -, he, -, -, hfound⟩ := hh.found_last (hm.path.symm ▸ hlast)
  exact ⟨e, m, hm.path ▸ hfound, he, hm⟩

/-- A handle answers for a regular file, whatever slashes are added to its path, and lists it. -/
structure Handle.Serves (h : Handle) (v : Volume) (path : Text) (data : Bytes) : Prop where
  read : ∀ front back, h.read v (List.replicate front '/' ++ path ++ List.replicate back '/') = .ok data
  listed : Entry.normalize path ∈ h.files

theorem Handle.Holds.serves (hh : h.Holds v ms) (hfile : FileAt ms (Entry.normalize path) data) :
    h.Serves v path data := by
  obtain ⟨e, m, he, hm, hpath, hkind, hcontent⟩ := hh.entry? hfile
  have hheader : m.toHeader = e.toHeader := memberOf_header hm
  have hfilekind : e.kind = .file := hkind ▸ (congrArg Zip.Header.kind hheader).symm
  refine ⟨fun front back => ?_, ?_⟩
  · have hfound := (Entry.normalize_padded front back path).symm ▸ he
    rw [read_entry hfound hfilekind, Zip.content_of_member (memberOf_eq_ok_iff.mp hm), hcontent]
    rfl
  · have hmem : e ∈ h.opened := List.mem_reverse.mp (List.mem_of_find?_eq_some he)
    rw [← path_entry he]
    exact List.mem_map.mpr ⟨_, List.mem_filter.mpr ⟨List.mem_map.mpr ⟨e, hmem, rfl⟩, decide_eq_true hfilekind⟩, rfl⟩

/-! ### What is staged -/

/-- All that a program does once something is staged is to add members. -/
theorem Additive.puts {p : Staging α} (hp : Additive p) (hstage : h.stage = some s) :
    ∃ adds, (Staging.on v h p).1.2 = h.put adds ∧ (Staging.on v h p).2 = v := by
  induction hp generalizing h s with
  | ask f => exact ⟨[], (put_nil h).symm, rfl⟩
  | add adds =>
    rw [on_change_staged hstage adds]
    exact ⟨adds h, rfl, rfl⟩
  | @bind _ _ p f _ _ ihp ihf =>
    obtain ⟨adds, hput, hsame⟩ := ihp hstage
    rw [Staging.on_bind]
    split
    · next a g w hrun =>
      rw [hrun] at hput hsame
      obtain rfl : g = h.put adds := hput
      obtain rfl : w = v := hsame
      obtain ⟨more, hput', hsame'⟩ := ihf a (stage_put hstage adds)
      exact ⟨adds ++ more, by rw [hput', put_put], hsame'⟩
    · next f g w hrun =>
      rw [hrun] at hput hsame
      exact ⟨adds, hput, hsame⟩

/-- A call makes no directory at a path under another name than the path itself. -/
def Call.Spares (c : Call) (path : Text) : Prop := ∀ d ∈ c.dirs, Entry.normalize d = path → d = path

instance (c : Call) (path : Text) : Decidable (c.Spares path) :=
  inferInstanceAs (Decidable (∀ d ∈ c.dirs, Entry.normalize d = path → d = path))

/-- What a call stages lies at other paths than one that is present and spared. -/
theorem stages_elsewhere {present : List Text} {c : Call} {r : Except Fault Unit} {adds : List Addition}
    (hs : Stages present c r adds) (hpath : path ∈ present) (hspares : c.Spares path) :
    ∀ a ∈ adds, a.2.path ≠ path := by
  have hdirs : ∀ a ∈ missingDirs present c.dirs, a.2.path ≠ path := by
    intro a ha hsame
    obtain ⟨d, hd, rfl⟩ := List.mem_map.mp ha
    obtain ⟨hd, habsent⟩ := List.mem_filter.mp hd
    obtain rfl := hspares d hd ((path_directory d).symm.trans hsame)
    exact of_decide_eq_true habsent hpath
  cases hs with
  | nothing => nofun
  | dirs => exact hdirs
  | entry _ habsent hm _ =>
    refine fun a ha => (List.mem_append.mp ha).elim (hdirs a) fun ha hsame => habsent ?_
    rw [List.mem_singleton.mp ha] at hsame
    rwa [← hm, hsame]

/-- A handle has staged a regular file that is the last member at its path. -/
structure Handle.Holding (h : Handle) (path : Text) (data : Bytes) : Prop where
  present : path ∈ h.present
  staged : ∃ s, h.stage = some s ∧ FileAt s.members path data

theorem holding_write (hname : (Entry.normalize path).getLast? ≠ some '\\')
    (hrun : Staging.on v h (Staging.write path data) = ((.ok (), h'), w)) :
    h'.Holding (Entry.normalize path) data := by
  obtain ⟨⟨⟩, g, u, -, hrest⟩ := Staging.on_bind_eq_ok hrun
  obtain ⟨⟨⟩, g', u', -, hadd⟩ := Staging.on_bind_eq_ok hrest
  have hadd := Staging.on_change_eq_ok hadd
  rw [Handle.add, if_neg (List.cons_ne_nil _ _)] at hadd
  obtain ⟨b, x, hbegin, hput⟩ := Disk.on_bind_eq_ok hadd
  cases hput
  obtain ⟨s, hs⟩ := Option.ne_none_iff_exists'.mp (begin_staged hbegin).2
  exact ⟨List.mem_append_right _ (List.mem_singleton_self _), _, stage_put hs _,
    fileAt_concat (Member.contains_file hname data) s.members⟩

theorem Handle.Holding.call {c : Call} {r : Except Fault Unit} (hh : h.Holding path data)
    (hspares : c.Spares path) (hrun : Staging.on v h c.run = ((r, h'), w)) :
    h'.Holding path data := by
  obtain ⟨hpresent, s, hstage, hfile⟩ := hh
  obtain ⟨adds, hput, -⟩ := (additive_run c).puts (v := v) hstage
  obtain ⟨listings, hstages, hstaged⟩ := staged_run hrun
  rw [hrun] at hput
  obtain rfl : h' = h.put adds := hput
  have hlisted : Patchwork.listed adds = Patchwork.listed listings :=
    List.append_cancel_left ((put_staged (by rw [hstage]; nofun) adds).pending.symm.trans hstaged.pending)
  have helsewhere : ∀ n ∈ adds.map (·.2), n.path ≠ path := by
    intro n hn
    obtain ⟨a, ha, rfl⟩ := List.mem_map.mp hn
    have hmem : (a.2.path, a.2.kind) ∈ Patchwork.listed listings := hlisted ▸ List.mem_map.mpr ⟨a, ha, rfl⟩
    obtain ⟨b, hb, hsame⟩ := List.mem_map.mp hmem
    rw [← (Prod.mk.inj hsame).1]
    exact stages_elsewhere hstages hpresent hspares b hb
  exact ⟨List.mem_append_left _ hpresent, _, stage_put hstage adds, hfile.append helsewhere⟩

theorem Handle.Holding.calls {calls : List Call} {outcomes : List (Except Fault Unit)} (hh : h.Holding path data)
    (hspares : ∀ c ∈ calls, c.Spares path) (hrun : runCalls v h calls = (outcomes, h', w)) :
    h'.Holding path data := by
  induction calls generalizing v h outcomes with
  | nil =>
    cases hrun
    exact hh
  | cons c cs ih =>
    rw [runCalls] at hrun
    split at hrun
    next r g u hc =>
    simp only [Prod.mk.injEq] at hrun
    have hstep := hh.call (hspares c List.mem_cons_self) hc
    exact ih hstep (fun d hd => hspares d (List.mem_cons_of_mem c hd)) (Prod.ext rfl hrun.2)

/-! ### What is committed -/

/-- How a handle stands since it was got: the volume has only grown, and what is staged is in a temporary file that is
still empty. -/
structure Handle.Live (begun v : Volume) (archive : Text) (old : List Member) (h : Handle) : Prop where
  grows : Grows begun v
  path : h.path = archive
  holds : h.Holds v old
  temp : ∀ t, h.temp? = some t → t.getLast? ≠ some '/' ∧ ∃ p, v.find .entry t = .ok (p, .file [])

theorem live_opened {create : Bool} (hs : Started v₀ v archive h old)
    (hv : v₀.Sound) (hrun : Disk.on v₀ (openAt archive create) = (.ok h, v)) : h.Live v v archive old := by
  obtain ⟨p, bytes, es, -, -, rfl⟩ := load_eq_ok (openAt_eq_ok hv hrun).2
  exact ⟨.refl v, hs.named, hs.pending.holds, nofun⟩

theorem live_created (hs : Started v₀ v archive h old) (hrun : Disk.on v₀ (Handle.create archive) = (.ok h, v)) :
    h.Live v v archive old := by
  refine ⟨.refl v, hs.named, hs.pending.holds, fun t ht => ?_⟩
  obtain ⟨-, temp, p, rfl, hfresh⟩ := create_eq_ok hrun
  cases ht
  exact ⟨hfresh.noSlash, p, hfresh.find⟩

theorem Obtained.live (hget : Obtained v₀ archive h v) (hv : v₀.Sound) (hs : Started v₀ v archive h old) :
    h.Live v v archive old := by
  cases hget with
  | opened create hrun => exact live_opened hs hv hrun
  | created hrun => exact live_created hs hrun

theorem Handle.Live.call {c : Call} {r : Except Fault Unit} (hl : h.Live u v archive old)
    (hrun : Staging.on v h c.run = ((r, h'), w)) : h'.Live u w archive old := by
  have ha := advances_run c v h old hl.holds
  rw [hrun] at ha
  obtain ⟨adds, -, hstaged⟩ := staged_run hrun
  refine ⟨hl.grows.trans ha.grows, hstaged.path.trans hl.path, ha.holds old hl.holds, fun t ht => ?_⟩
  rcases ha.temp with ⟨hsame, -⟩ | ⟨-, -, temp, p, hsome, hfresh⟩
  · obtain ⟨hslash, p, hfind⟩ := hl.temp t (hsame ▸ ht)
    exact ⟨hslash, p, ha.grows.find hfind⟩
  · obtain rfl : temp = t := Option.some.inj (hsome.symm.trans ht)
    exact ⟨hfresh.noSlash, p, hfresh.find⟩

theorem Handle.Live.calls {calls : List Call} {outcomes : List (Except Fault Unit)} (hl : h.Live u v archive old)
    (hrun : runCalls v h calls = (outcomes, h', w)) : h'.Live u w archive old := by
  induction calls generalizing v h outcomes with
  | nil =>
    cases hrun
    exact hl
  | cons c cs ih =>
    rw [runCalls] at hrun
    split at hrun
    next r g u hc =>
    simp only [Prod.mk.injEq] at hrun
    exact ih (hl.call hc) (Prod.ext rfl hrun.2)

/-- All numbers of an archive of some members fit into their fields, and what stands in front of its end record does
not look like the locator of a wider one. -/
structure Zip.WithinLimits (ms : List Member) : Prop where
  members : ∀ m ∈ ms, Fits m
  ends : EndFits ms

theorem Zip.fits_file {name : Text} (hname : (Text.Utf8.encode name).length < 0x10000)
    (hdata : data.length < 0x100000000) (hstored : (Deflate.deflate data).length < 0x100000000) :
    Fits (.file name data) where
  name := hname
  method := (by decide : methodDeflated < 0x10000)
  plain := (by decide : methodDeflated ≠ methodAes)
  crc := UInt32.toNat_lt _
  size := hdata
  packed := rfl
  stored := hstored
  date := (by decide : Stamp.epoch.date < 0x10000)
  time := (by decide : Stamp.epoch.time < 0x10000)
  system := (by decide : systemUnix < 0x100)
  attributes := ofMode_lt (by decide)
  encrypted := rfl

theorem Zip.WithinLimits.readsBack (h : WithinLimits ms) : ReadsBack ms := read_write h.members h.ends

theorem sound_close (hv : v.Sound) (hstage : h.stage = some s) (hslash : s.temp.getLast? ≠ some '/')
    {p : Place} (hfind : v.find .entry s.temp = .ok (p, .file []))
    (hclose : Disk.on v h.close = (.ok (), w)) : w.Sound := by
  rw [Handle.close, hstage] at hclose
  rcases persist_cases hfind hslash (Disk.on_io_eq_ok hclose) with ⟨-, q, hq, hdir, hw⟩ | ⟨e, he, -⟩
  · exact (preserves_moved hv (find_eq_ok_iff.mp hfind).2 hdir (hv.locate_above hq) hw).1.sound
  · cases he

/-- The archive that is left can be opened with the members that were staged, or the path was lost with a link. -/
theorem Handle.Live.committed (hl : h.Live u v archive old) (hu : u.Sound) (hstage : h.stage = some s)
    (hzip : Zip.WithinLimits s.members) (hclose : Disk.on v h.close = (.ok (), w)) :
    w.Sound ∧ ((∃ p, LostWithLink v w archive p) ∨
      ∃ fresh, Disk.on w (openAt archive false) = (.ok fresh, w) ∧ fresh.Holds w s.members) := by
  have hv := hl.grows.sound hu
  obtain ⟨hslash, p, hfind⟩ := hl.temp s.temp (by rw [temp?, hstage]; rfl)
  have hstands : Stands v s.temp := ⟨hslash, p, [], hfind⟩
  refine ⟨sound_close hv hstage hslash hfind hclose, ?_⟩
  obtain ⟨q, -, hfound⟩ := close_puts hv hstage hstands hclose
  rw [hl.path] at hfound
  rcases hfound with hf | hlost
  · have harchive : w.HasArchive archive s.members :=
      ⟨_, _, read_eq_ok_iff.mpr ⟨q, hf⟩, hzip.readsBack, rfl⟩
    exact .inr harchive.opens
  · exact .inl ⟨q, hlost⟩

/-- A regular file of an archive can be copied into any new archive, which then serves it, too. -/
def Handle.Transfers (h : Handle) (v : Volume) (path : Text) (data : Bytes) : Prop :=
  ∀ dest g u, Disk.on v (Handle.create dest) = (.ok g, u) →
    ∃ g' s, Staging.on u g (Staging.copyFrom h path) = ((.ok (), g'), u) ∧ g'.stage = some s ∧
      ∀ w, Zip.WithinLimits s.members → Disk.on u g'.close = (.ok (), w) →
        (∃ p, LostWithLink u w dest p) ∨
          ∃ copy, Disk.on w (openAt dest false) = (.ok copy, w) ∧ copy.Serves w path data

theorem Handle.Holds.transfers (hh : input.Holds v ms) (hv : v.Sound)
    (hfile : FileAt ms (Entry.normalize path) data) : input.Transfers v path data := by
  intro dest g u hcreate
  obtain ⟨e, m, he, hm, hcontains⟩ := hh.entry? hfile
  have hs := started_create hv hcreate
  have hlive := live_created hs hcreate
  obtain ⟨hg, temp, p, hfresh, -⟩ := create_eq_ok hcreate
  have hstage : g.stage = some ⟨temp, []⟩ := by rw [hfresh]
  have hfree : m.path ∉ g.present := by
    rw [hfresh]
    exact List.not_mem_nil
  rw [← memberOf_grow hg] at hm
  have hcopy := on_copyFrom he hm hstage hfree
  have hlast := fileAt_concat hcontains.copied ((missingParents g.present m.path).map (·.2))
  refine ⟨_, _, hcopy, stage_put hstage _, fun w hzip hclose => ?_⟩
  rw [List.nil_append, List.map_append] at hzip
  have hlive' := hlive.call (c := .copyFrom input path) hcopy
  obtain ⟨-, hfound⟩ := hlive'.committed hs.sound (stage_put hstage _) (by simpa using hzip) hclose
  refine hfound.imp_right fun ⟨copy, hopen, hcopied⟩ => ⟨copy, hopen, hcopied.serves ?_⟩
  rw [List.nil_append, List.map_append]
  exact hlast

/-- A regular file that was written is served by the archive once it is closed, whatever was called before and after,
and by any new archive that it is copied into.  Its name must not end with a backslash, and no later call may make a
directory at its path under another name. -/
theorem written_serves {before after : List Call} {outcomes later : List (Except Fault Unit)} {h₁ h₂ h₃ : Handle}
    {v₁ v₂ v₃ : Volume} (hv : v₀.Sound) (hget : Obtained v₀ archive h v)
    (hbefore : runCalls v h before = (outcomes, h₁, v₁))
    (hwrite : Staging.on v₁ h₁ (Staging.write path data) = ((.ok (), h₂), v₂))
    (hafter : runCalls v₂ h₂ after = (later, h₃, v₃)) (hclose : Disk.on v₃ h₃.close = (.ok (), w))
    (hname : (Entry.normalize path).getLast? ≠ some '\\')
    (hspares : ∀ c ∈ after, c.Spares (Entry.normalize path))
    (hzip : ∀ s, h₃.stage = some s → Zip.WithinLimits s.members) :
    (Disk.on v₀ (Handle.create archive) = (.ok h, v) ∧ ∃ p, LostWithLink v₃ w archive p) ∨
      ∃ fresh, Disk.on w (openAt archive false) = (.ok fresh, w) ∧ fresh.Serves w path data ∧
        fresh.Transfers w path data := by
  obtain ⟨old, hs⟩ := hget.started hv
  have hlive₁ := (hget.live hv hs).calls hbefore
  have hlive := (hlive₁.call (c := .write path data) hwrite).calls hafter
  obtain ⟨-, s, hstage, hfile⟩ := (holding_write hname hwrite).calls hspares hafter
  obtain ⟨hw, ⟨p, hlost⟩ | ⟨fresh, hopen, hholds⟩⟩ := hlive.committed hs.sound hstage (hzip s hstage) hclose
  · exact .inl ⟨hs.created_of_lost hlive.grows hlost, p, hlost⟩
  · exact .inr ⟨fresh, hopen, hholds.serves hfile, hholds.transfers hw hfile⟩

/-- Calls on a new archive before and after a file is written.  The first one behind it finds its path taken. -/
def callsBefore : List Call := [.write "b/c".toList [104, 105]]

def callsAfter : List Call := [.write "//x.y/".toList [], .createDirAll "x.y.z".toList]

/-- What is staged in the end if `x.y` is written between them. -/
def committed : List Member :=
  [.directory "b/".toList, .file "b/c".toList [104, 105], .file "x.y".toList [120], .directory "x.y.z/".toList]

theorem written_serves_between : ∃ h v h₁ v₁ h₂ v₂ later h₃ v₃ w,
    Volume.empty.Sound ∧ Obtained Volume.empty "a".toList h v ∧ runCalls v h callsBefore = ([.ok ()], h₁, v₁) ∧
      Staging.on v₁ h₁ (Staging.write "x.y".toList [120]) = ((.ok (), h₂), v₂) ∧
      runCalls v₂ h₂ callsAfter = (later, h₃, v₃) ∧ Disk.on v₃ h₃.close = (.ok (), w) ∧
      ∃ fresh, Disk.on w (openAt "a".toList false) = (.ok fresh, w) ∧ fresh.Serves w "x.y".toList [120] ∧
        fresh.Transfers w "x.y".toList [120] := by
  have hv : Volume.empty.Sound := ⟨by decide, by decide, by decide⟩
  have hruns : ∃ h v, Disk.on Volume.empty (Handle.create "a".toList) = (.ok h, v) ∧
      ∃ h₁ v₁, runCalls v h callsBefore = ([.ok ()], h₁, v₁) ∧
        ∃ h₂ v₂, Staging.on v₁ h₁ (Staging.write "x.y".toList [120]) = ((.ok (), h₂), v₂) ∧
          ∃ h₃ v₃ t, runCalls v₂ h₂ callsAfter =
              ([.error (.io (.entryExists "a".toList "/x.y".toList)), .ok ()], h₃, v₃) ∧
            h₃.stage = some ⟨t, committed⟩ ∧
            v₃.locate .entry "a".toList = .ok ["a".toList] ∧ v₃.item? ["a".toList] = none ∧
            ∃ w, Disk.on v₃ h₃.close = (.ok (), w) :=
    ⟨_, _, rfl, _, _, rfl, _, _, rfl, _, _, _, rfl, rfl, rfl, rfl, _, rfl⟩
  obtain ⟨h, v, hcreate, h₁, v₁, hbefore, h₂, v₂, hwrite, h₃, v₃, t, hafter, hstage, hl, hnone, w, hclose⟩ := hruns
  have hzip : ∀ s, h₃.stage = some s → Zip.WithinLimits s.members := by
    intro s hs
    obtain rfl := Option.some.inj (hstage.symm.trans hs)
    dsimp only
    have hunmarked : Zip.Unmarked (committed.flatMap Member.localRecord ++ Zip.directory 0 committed) := by
      unfold Zip.Unmarked
      decide +kernel
    refine ⟨fun m hm => ?_, by decide, by decide +kernel, by decide +kernel, hunmarked⟩
    simp only [committed, List.mem_cons, List.not_mem_nil, or_false] at hm
    rcases hm with rfl | rfl | rfl | rfl
    · exact Zip.fits_directory (by decide)
    · exact Zip.fits_file (by decide) (by decide) (by decide +kernel)
    · exact Zip.fits_file (by decide) (by decide) (by decide +kernel)
    · exact Zip.fits_directory (by decide)
  refine ⟨h, v, h₁, v₁, h₂, v₂, _, h₃, v₃, w, hv, .created hcreate, hbefore, hwrite, hafter, hclose, ?_⟩
  have hserved := written_serves hv (.created hcreate) hbefore hwrite hafter hclose (by decide) (by decide) hzip
  obtain ⟨-, p, hq, ⟨target, _, _, hlink, _⟩, _⟩ | hserved := hserved
  · rw [hl] at hq
    cases hq
    rw [hnone] at hlink
    cases hlink
  · exact hserved

/-- A file that is written to a new archive is taken for a directory once the archive is committed and opened again. -/
def ReadAsDirectory (path : Text) (after : List Call) : Prop :=
  ∃ h v h' v' w fresh, Disk.on Volume.empty (Handle.create "z".toList) = (.ok h, v) ∧
    runCalls v h (.write path [120] :: after) = (.ok () :: after.map fun _ => .ok (), h', v') ∧
    Disk.on v' h'.close = (.ok (), w) ∧ Disk.on w (openAt "z".toList false) = (.ok fresh, w) ∧
    fresh.read w path = .error (.io (.entryIsDirectory path))

/-- It is enough to look at what the archive answers. -/
theorem readAsDirectory {h h' : Handle} {v v' w : Volume}
    (hcreate : Disk.on Volume.empty (Handle.create "z".toList) = (.ok h, v))
    (hrun : runCalls v h (.write path [120] :: after) = (.ok () :: after.map fun _ => .ok (), h', v'))
    (hclose : Disk.on v' h'.close = (.ok (), w))
    (hanswer : (Disk.on w (openAt "z".toList false)).1.map (·.read w path) =
      .ok (.error (.io (.entryIsDirectory path)))) : ReadAsDirectory path after := by
  rw [on_openAt_false] at hanswer
  cases hopen : (if w.isFile "z".toList then load w "z".toList else .error (.notFound "z".toList)) with
  | error f =>
    rw [hopen] at hanswer
    cases hanswer
  | ok fresh =>
    rw [hopen] at hanswer
    refine ⟨h, v, h', v', w, fresh, hcreate, hrun, hclose, ?_, Except.ok.inj hanswer⟩
    rw [on_openAt_false, hopen]

/-- So is a file whose name ends with a backslash, and one after which a directory is made at its path under another
name: the directory `/a/` is on the way to `/a//b`. -/
theorem written_unserved : ReadAsDirectory "/a\\".toList [] ∧
    ReadAsDirectory "/a".toList [.createDirAll "/a//b".toList] :=
  ⟨readAsDirectory rfl rfl rfl (by decide +kernel), readAsDirectory rfl rfl rfl (by decide +kernel)⟩

end Patchwork
