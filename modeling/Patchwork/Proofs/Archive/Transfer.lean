import Patchwork.Proofs.Archive.Beside
import Patchwork.Proofs.Archive.Isolation

/-!
# Transfers that fail

Entries of one archive are put into another one by copying them into what is there, by copying them into a
new archive, or by rebuilding the archive without the rest.  Until all of it is staged, only directories and
the temporary file are made, so that a transfer that fails leaves every file as it was.
-/
namespace Patchwork

open Handle Volume
open Disk (dirsMade)

/-- The ways to fill one archive from another. -/
inductive Transfer
  | copy
  | copyFresh
  | strip
  deriving DecidableEq

def Transfer.run : Transfer → Text → Text → FilterSet → Disk Fault CopyReport
  | copy => Archive.copy
  | copyFresh => Archive.copyFresh
  | strip => Archive.strip

variable {u v w : Volume} {h : Handle} {α : Type} {e : Fault} {f : FilterSet} {source dest path : Text}
  {t : Transfer}

theorem additive_copyEach (source : Handle) (paths : List Text) :
    Additive (Staging.copyEach source paths) := by
  induction paths with
  | nil => exact additive_pure ()
  | cons path paths ih => exact (additive_copyFrom source path).bind fun _ => ih

theorem additive_filterCopy (source : Handle) (f : FilterSet) :
    Additive (Staging.filterCopy source f) :=
  (additive_copyEach source _).bind fun _ => additive_pure _

theorem isFile_iff : v.isFile path = true ↔ ∃ p c, v.find .item path = .ok (p, .file c) := by
  unfold isFile
  split
  · next p c hf => exact ⟨fun _ => ⟨p, c, hf⟩, fun _ => rfl⟩
  · next hno => exact ⟨nofun, fun ⟨p, c, hf⟩ => absurd hf (hno p c)⟩

theorem isFile_iff_read : v.isFile path = true ↔ ∃ c, v.read path = .ok c := by
  rw [isFile_iff, exists_comm]
  exact exists_congr fun c => read_eq_ok_iff.symm

/-! ### What is kept -/

/-- Every file is where it was, and found by every path by which it was. -/
structure KeepsFiles (v w : Volume) : Prop where
  files : ∀ p, w.file? p = v.file? p
  finds : ∀ path p c, v.find .item path = .ok (p, .file c) → w.find .item path = .ok (p, .file c)

theorem KeepsFiles.read (hk : KeepsFiles v w) (hpath : v.isFile path = true) :
    w.read path = v.read path := by
  obtain ⟨p, c, hf⟩ := isFile_iff.mp hpath
  rw [read_eq_ok_iff.mpr ⟨p, hf⟩, read_eq_ok_iff.mpr ⟨p, hk.finds path p c hf⟩]

theorem keepsFiles_of_sameItems (hsame : SameItems (dirsMade v dest) w) : KeepsFiles v w := by
  refine ⟨fun p => ?_, fun path p c hf => ?_⟩
  · rw [Volume.file?, hsame.kept]
    exact (Disk.grows_dirsMade v dest).file? (Disk.onlyDirs_createDirAll _ v) p
  · rw [hsame.find]
    exact (Disk.grows_dirsMade v dest).find hf

/-- The files at the source, at the destination and at all places are as they were. -/
structure Keeps (v w : Volume) (source dest : Text) : Prop where
  source : w.read source = v.read source
  dest : w.read dest = v.read dest
  files : ∀ p, w.file? p = v.file? p

/-- Where no file was, there is an archive without entries, and nothing else was done to a file. -/
structure MadeEmpty (v w : Volume) (source dest : Text) : Prop where
  source : w.read source = v.read source
  missing : v.isFile dest = false
  opens : ∃ h, load w dest = .ok h ∧ h.entries = []
  files : ∃ p, w.canonical dest = .ok p ∧ v.file? p = none ∧
    ∀ q, w.file? q = if q = p then some Zip.emptyArchive else v.file? q

theorem keeps_refl (v : Volume) (source dest : Text) : Keeps v v source dest := ⟨rfl, rfl, fun _ => rfl⟩

theorem keeps_of_sameItems (hsource : v.isFile source = true)
    (hstays : v.isFile dest = false → (dirsMade v dest).read dest = v.read dest)
    (hsame : SameItems (dirsMade v dest) w) : Keeps v w source dest := by
  have hk := keepsFiles_of_sameItems hsame
  refine ⟨hk.read hsource, ?_, hk.files⟩
  cases hdest : v.isFile dest with
  | true => exact hk.read hdest
  | false => rw [hsame.read, hstays hdest]

/-! ### Failures -/

/-- Nothing is opened but a file. -/
theorem openAt_source (hrun : Disk.on v (openAt source false) = (.ok h, w)) :
    w = v ∧ v.isFile source = true := by
  rcases openAt_cases hrun with ⟨rfl, hload⟩ | ⟨hcreate, -⟩
  · exact ⟨rfl, (hload h rfl).1⟩
  · cases hcreate

theorem openAt_source_error (hrun : Disk.on v (openAt source false) = (.error e, w)) : w = v := by
  rcases openAt_cases hrun with ⟨rfl, -⟩ | ⟨hcreate, -⟩
  · rfl
  · cases hcreate

theorem fresh_failed {s : Handle → Staging CopyReport} (hs : ∀ input, Additive (s input)) (hv : v.Sound)
    (hrun : Disk.on v (openAt source false >>= fun input => Handle.create dest >>= fun output =>
      output.finish (s input)) = (.error e, w)) :
    w = v ∨ v.isFile source = true ∧ SameItems (dirsMade v dest) w := by
  rcases Disk.on_bind_cases hrun with ⟨e, hopen, -⟩ | ⟨input, u, hopen, hrest⟩
  · exact .inl (openAt_source_error hopen)
  · obtain ⟨rfl, hsource⟩ := openAt_source hopen
    rcases Disk.on_bind_cases hrest with ⟨e, hcreate, -⟩ | ⟨output, x, hcreate, hfinish⟩
    · rcases begin_cases hv rfl hcreate with ⟨-, hsame, -⟩ | ⟨_, _, hok, -⟩
      · exact .inr ⟨hsource, hsame⟩
      · cases hok
    · rcases begin_cases hv rfl hcreate with ⟨⟨_, hfail⟩, -⟩ | ⟨_, _, hok, hslash, hg, hnew⟩
      · cases hfail
      · cases hok
        exact (finish_error (hs input) hv (.temp rfl hslash hg hnew) hfinish).imp_right (⟨hsource, ·⟩)

theorem beside_loaded (hload : load v dest = .ok h) : Beside v dest v h := by
  obtain ⟨p, bytes, es, -, -, rfl⟩ := load_eq_ok hload
  exact .nothing rfl rfl

/-- The archive without entries that is put at the destination is still there in the end. -/
theorem madeEmpty_of_written (hv : v.Sound) (hsource : v.isFile source = true)
    (hmissing : v.isFile dest = false) (hstill : (dirsMade v dest).isFile dest = false)
    (hwrite : (dirsMade v dest).write dest Zip.emptyArchive = .ok u) (hk : KeepsFiles u w) :
    MadeEmpty v w source dest := by
  have hg := Disk.grows_dirsMade v dest
  have hfiles := hg.file? (Disk.onlyDirs_createDirAll _ v)
  obtain ⟨p, hload, hcan, hframe, hnone, hput⟩ := load_written (hg.sound hv) hstill hwrite
  obtain ⟨q, bytes, es, hfind, hindex, -⟩ := load_eq_ok hload
  obtain rfl : q = p := by
    rw [canonical, hfind] at hcan
    exact Except.ok.inj hcan
  have hbytes : bytes = Zip.emptyArchive := by
    have hq := file?_eq_some_iff.mpr (find_eq_ok_iff.mp hfind).2
    exact Option.some.inj (hq.symm.trans hput)
  subst hbytes
  have hfind' := hk.finds dest q _ hfind
  have hload := load_of_find hfind' (rfl : Zip.index Zip.emptyArchive = .ok [])
  refine ⟨?_, hmissing, ⟨_, hload, rfl⟩, q, ?_, ?_, fun r => ?_⟩
  · obtain ⟨r, c, hf⟩ := isFile_iff.mp hsource
    have hr := hg.find hf
    have hne : r ≠ q := by
      rintro rfl
      rw [(find_eq_ok_iff.mp hr).2] at hnone
      cases hnone
    rw [read_eq_ok_iff.mpr ⟨r, hf⟩, read_eq_ok_iff]
    exact ⟨r, hk.finds source r c (hframe.find hr hne)⟩
  · rw [canonical, hfind']
    rfl
  · rw [← hfiles q, Volume.file?, hnone]
  · rw [hk.files r]
    split
    · next hr => rw [hr, hput]
    · next hr => rw [hframe.files r hr, hfiles r]

theorem copy_failed (hv : v.Sound)
    (hstays : v.isFile dest = false → (dirsMade v dest).read dest = v.read dest)
    (hrun : Disk.on v (Archive.copy source dest f) = (.error e, w)) :
    Keeps v w source dest ∨ MadeEmpty v w source dest := by
  rcases Disk.on_bind_cases hrun with ⟨e, hopen, -⟩ | ⟨input, u, hopen, hrest⟩
  · rw [openAt_source_error hopen]
    exact .inl (keeps_refl v source dest)
  obtain ⟨rfl, hsource⟩ := openAt_source hopen
  have hkeep (hleft : w = u ∨ SameItems (dirsMade u dest) w) : Keeps u w source dest := by
    rcases hleft with rfl | hsame
    · exact keeps_refl w source dest
    · exact keeps_of_sameItems hsource hstays hsame
  have hstill (hmissing : u.isFile dest = false) : (dirsMade u dest).isFile dest = false := by
    rw [Bool.eq_false_iff, Ne, isFile_iff_read, hstays hmissing, ← isFile_iff_read, hmissing]
    exact Bool.false_ne_true
  have hsound := (Disk.grows_dirsMade u dest).sound hv
  rcases Disk.on_bind_cases hrest with ⟨e, hopen, -⟩ | ⟨output, x, hopen, hfinish⟩
  · rcases openAt_cases hopen with ⟨rfl, -⟩ | ⟨-, hmissing, ⟨rfl, -⟩ | ⟨hwrite, hload⟩⟩
    · exact .inl (hkeep (.inl rfl))
    · have hsame : SameItems (dirsMade u dest) (u.parentsMade dest) := by
        rw [parentsMade_eq]
        exact .refl _
      exact .inl (hkeep (.inr hsame))
    · rw [parentsMade_eq] at hwrite
      obtain ⟨p, hok, -⟩ := load_written hsound (hstill hmissing) hwrite
      rw [hok] at hload
      cases hload
  · have hloaded := (openAt_eq_ok hv hopen).2
    have hx := (openAt_eq_ok hv hopen).1
    have hleft := finish_error (additive_filterCopy input f) hx (beside_loaded hloaded) hfinish
    rcases openAt_cases hopen with ⟨rfl, -⟩ | ⟨-, hmissing, ⟨-, _, hfail⟩ | ⟨hwrite, -⟩⟩
    · exact .inl (hkeep hleft)
    · cases hfail
    · rw [parentsMade_eq] at hwrite
      refine .inr (madeEmpty_of_written hv hsource hmissing (hstill hmissing) hwrite ?_)
      rcases hleft with rfl | hsame
      · exact ⟨fun _ => rfl, fun _ _ _ h => h⟩
      · exact keepsFiles_of_sameItems hsame

/-- A transfer that fails leaves the source, the destination and all files as they were, but for an empty
archive that copying may have put where no file was, unless a file comes to light at the destination once the
directories on the way to it are made. -/
theorem Transfer.failed_keeps (hv : v.Sound)
    (hstays : v.isFile dest = false → (dirsMade v dest).read dest = v.read dest)
    (hrun : Disk.on v (t.run source dest f) = (.error e, w)) :
    Keeps v w source dest ∨ t = .copy ∧ MadeEmpty v w source dest := by
  have hfresh (hleft : w = v ∨ v.isFile source = true ∧ SameItems (dirsMade v dest) w) :
      Keeps v w source dest := by
    rcases hleft with rfl | ⟨hsource, hsame⟩
    · exact keeps_refl w source dest
    · exact keeps_of_sameItems hsource hstays hsame
  cases t with
  | copy => exact (copy_failed hv hstays hrun).imp_right (⟨rfl, ·⟩)
  | copyFresh => exact .inl (hfresh (fresh_failed (fun _ => additive_filterCopy _ f) hv hrun))
  | strip =>
    have hstrip : ∀ input, Additive (do
        Staging.copyEach input (Archive.keptEntries input f)
        pure (input.report f)) :=
      fun _ => (additive_copyEach _ _).bind fun _ => additive_pure _
    exact .inl (hfresh (fresh_failed hstrip hv hrun))

/-- The archive is copied into itself: what is to be added is there already. -/
theorem Transfer.failed_keeps_self : ∃ w,
    Disk.on Session.oneArchive (Transfer.copy.run ['f'] ['f'] .all) =
        (.error (.io (.entryExists ['f'] ['/', 'a'])), w) ∧
      Keeps Session.oneArchive w ['f'] ['f'] := by
  have hfile : Session.oneArchive.isFile ['f'] = true := by decide +kernel
  have herror : (Disk.on Session.oneArchive (Transfer.copy.run ['f'] ['f'] .all)).1 =
      .error (.io (.entryExists ['f'] ['/', 'a'])) := by decide +kernel
  generalize hrun : Disk.on Session.oneArchive (Transfer.copy.run ['f'] ['f'] .all) = run at herror
  obtain ⟨r, w⟩ := run
  obtain rfl : r = _ := herror
  refine ⟨w, rfl, ?_⟩
  have hkeeps := Transfer.failed_keeps Session.sound_oneArchive
    (fun hmissing => by rw [hfile] at hmissing; cases hmissing) hrun
  refine hkeeps.resolve_right fun ⟨_, hempty⟩ => ?_
  have hmissing := hempty.missing
  rw [hfile] at hmissing
  cases hmissing

/-- A file comes to light at the destination once a directory on the way is made: it is the source, which
is emptied before the copy fails. -/
theorem copy_empties_source : ∃ flaw w,
    Session.oneArchive.isFile "d/../f".toList = false ∧
      Disk.on Session.oneArchive (Transfer.copy.run ['f'] "d/../f".toList .all) =
        (.error (.malformedArchive ['f'] flaw), w) ∧
      ¬ Keeps Session.oneArchive w ['f'] "d/../f".toList ∧
      ¬ MadeEmpty Session.oneArchive w ['f'] "d/../f".toList := by
  have hmissing : Session.oneArchive.isFile "d/../f".toList = false := rfl
  have hthere : Session.oneArchive.file? [['f']] ≠ some Zip.emptyArchive ∧
      Session.oneArchive.file? [['f']] ≠ none := by decide +kernel
  have herror : (Disk.on Session.oneArchive (Transfer.copy.run ['f'] "d/../f".toList .all)).1 =
      .error (.malformedArchive ['f'] .notLocalHeader) := by decide +kernel
  have hfile : (Disk.on Session.oneArchive (Transfer.copy.run ['f'] "d/../f".toList .all)).2.file? [['f']] =
      some Zip.emptyArchive := by decide +kernel
  generalize Disk.on Session.oneArchive (Transfer.copy.run ['f'] "d/../f".toList .all) = run
    at herror hfile
  obtain ⟨r, w⟩ := run
  obtain rfl : r = _ := herror
  refine ⟨_, w, hmissing, rfl, fun hkeeps => ?_, fun hempty => ?_⟩
  · exact hthere.1 ((hkeeps.files _).symm.trans hfile)
  · obtain ⟨p, -, hnone, hfiles⟩ := hempty.files
    by_cases hp : [['f']] = p
    · exact hthere.2 (hp ▸ hnone)
    · rw [hfiles, if_neg hp] at hfile
      exact hthere.1 hfile

end Patchwork
