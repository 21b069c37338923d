import Patchwork.Digest.Gate
import Patchwork.Proofs.Volume.Replaced

/-!
# What the checksum gate tells

Over every run of calls, whatever else is done to the content, the gate says that the content is unchanged
just when it has the digest that the call before has seen.  A record holds that digest, and there is none
if the content could not be read.
-/
namespace Patchwork.Gate

open Volume Disk

variable {v w : Volume} {content record : Text} {bytes : Bytes} {p q : Place}

/-- A content and a record name different files, and where there is no record, making the directories
above it brings nothing to light at its path. -/
structure Separate (v : Volume) (content record : Text) : Prop where
  ne : ∀ p c q d, v.find .item content = .ok (p, .file c) → v.find .item record = .ok (q, .file d) →
    p ≠ q
  hidden : v.read record = .error (.os .noEntry) →
    (dirsMade v record).read record = .error (.os .noEntry)

/-! ### Writing a record -/

theorem Separate.read_dirsMade (hs : Separate v content record) (hf : FileOrNone v record) :
    (dirsMade v record).read record = v.read record := by
  rcases hf with ⟨c, hc⟩ | hnone
  · rw [hc]
    exact (grows_dirsMade v record).read hc
  · rw [hnone, hs.hidden hnone]

/-- What is found at the path of the content is not found at that of the record, once the directories
above the record are made. -/
theorem Separate.not_found (hs : Separate v content record) (hf : FileOrNone v record)
    (hc : v.find .item content = .ok (p, .file bytes)) (c : Bytes) :
    (dirsMade v record).find .item record ≠ .ok (p, .file c) := by
  intro hfound
  have hread : v.read record = .ok c := by
    rw [← hs.read_dirsMade hf]
    exact read_eq_ok_iff.mpr ⟨p, hfound⟩
  obtain ⟨q, hq⟩ := read_eq_ok_iff.mp hread
  have hsame := (grows_dirsMade v record).find hq
  rw [hfound] at hsame
  cases hsame
  exact hs.ne p bytes p c hc hq rfl

theorem written {r : Except Fault Unit} {c : Bytes} (hv : v.Sound) (hf : FileOrNone v record)
    (hs : Separate v content record) (hc : v.read content = .ok bytes)
    (h : on v (writeAtomic record c) = (r, w)) : w.read content = .ok bytes ∧
      (r = .ok () ∧ w.Sound ∧ w.read record = .ok c ∨
        (∃ f, r = .error f) ∧ w.read record = v.read record) := by
  have hg := grows_dirsMade v record
  obtain ⟨p, hp⟩ := read_eq_ok_iff.mp hc
  have hu := hg.find hp
  have hfu : FileOrNone (dirsMade v record) record := by
    rw [FileOrNone, hs.read_dirsMade hf]
    exact hf
  rcases writeAtomic_cases hv h with ⟨f, rfl, hsame⟩ | ⟨rfl, hsound, q, hq, hreplaced, hself⟩
  · refine ⟨?_, .inr ⟨⟨f, rfl⟩, ?_⟩⟩
    · rw [hsame.read]
      exact read_eq_ok_iff.mpr ⟨p, hu⟩
    · rw [hsame.read, hs.read_dirsMade hf]
  · have hlink {s : Place} (hl : LinkTo (dirsMade v record) q s) :=
      hl.of_fileOrNone (hg.sound hv) hfu hq
    have hnot := hs.not_found hf hp
    -- the content neither stands where the record is put, nor is it found through a link there
    have hpq : p ≠ q := by
      rintro rfl
      have hi := (find_eq_ok_iff.mp hu).2
      obtain ⟨husable, hlead⟩ := locate_eq_ok_iff.mp hq
      refine hnot bytes (find_eq_ok_iff.mpr ⟨locate_eq_ok_iff.mpr ⟨husable, ?_⟩, hi⟩)
      refine hlead.item_of_entry fun t ht => ?_
      rw [hi] at ht
      cases ht
    have hend : ¬ LinkTo (dirsMade v record) q p := fun hl =>
      hnot bytes ((hlink hl).2 bytes (find_eq_ok_iff.mp hu).2)
    refine ⟨read_eq_ok_iff.mpr ⟨p, ?_⟩, .inl ⟨rfl, hsound, read_eq_ok_iff.mpr ⟨q, ?_⟩⟩⟩
    · exact hreplaced.find hu hpq (fun s hl => (hlink hl).1) hend
    · exact find_eq_ok_iff.mpr ⟨hreplaced.locate_self hq fun s hl => (hlink hl).1, hself⟩

/-! ### Taking a record away -/

/-- The path of a file does not end in a slash. -/
theorem getLast?_of_find {c : Bytes} (hf : v.find .item record = .ok (p, .file c)) :
    record.getLast? ≠ some '/' := by
  intro hslash
  obtain ⟨hl, hi⟩ := find_eq_ok_iff.mp hf
  have hlead := (locate_eq_ok_iff.mp hl).2
  rw [Step.ofPath, if_pos hslash] at hlead
  obtain ⟨r, m, -, hr⟩ := hlead.split (by simp)
  have hdir := hr.dir_start
  cases hr with
  | stay _ _ hr =>
    cases hr
    rw [hi] at hdir
    cases hdir

theorem removeFile_eq_ok (h : v.removeFile record = .ok w) :
    ∃ q, v.locate .entry record = .ok q ∧ v.item? q ≠ some .dir ∧ w = v.erase q := by
  unfold removeFile at h
  split at h
  · cases h
  · next q i hdir hf =>
    split at h
    · cases h
    · next hslash =>
      have hpath : record.getLast? ≠ some '/' := by simpa [endsInSlash] using hslash
      rw [withoutSlashes_of_getLast? hpath] at hf
      obtain ⟨hl, hi⟩ := find_eq_ok_iff.mp hf
      cases h
      refine ⟨q, hl, ?_, rfl⟩
      rw [hi]
      intro hd
      exact hdir (Option.some.inj hd)
  · cases h

theorem removeFile_of_file {c : Bytes} (hf : v.find .item record = .ok (p, .file c)) {e : IoError}
    (h : v.removeFile record = .error e) : e.kind ≠ .notFound := by
  have hpath := getLast?_of_find hf
  obtain ⟨hl, hi⟩ := find_eq_ok_iff.mp hf
  obtain ⟨hu, hlead⟩ := locate_eq_ok_iff.mp hl
  obtain ⟨q, hq, hsome⟩ := hlead.exists_entry (by rw [hi]; rfl)
  obtain ⟨i, hiq⟩ := Option.isSome_iff_exists.mp hsome
  have hentry : v.find .entry record = .ok (q, i) :=
    find_eq_ok_iff.mpr ⟨locate_eq_ok_iff.mpr ⟨hu, hq⟩, hiq⟩
  rw [removeFile, withoutSlashes_of_getLast? hpath, hentry] at h
  cases i with
  | dir =>
    cases h
    intro he
    cases he
  | file | link =>
    simp only [endsInSlash, decide_eq_true_eq, hpath, if_false] at h
    cases h

theorem forgotten (hv : v.Sound) (hf : FileOrNone v record)
    (h : on v (forget record) = (.ok (), w)) :
    w.Sound ∧ w.read record = .error (.os .noEntry) := by
  simp only [on, ExceptT.run, forget] at h
  split at h
  · next hw =>
    cases h
    obtain ⟨q, hq, hdir, rfl⟩ := removeFile_eq_ok hw
    have hnone := item?_erase_self hdir
    have hreplaced : Replaced v (v.erase q) q :=
      ⟨rfl, hdir, .inl hnone, fun r hr => hv.item?_erase hdir hr⟩
    have hself := hreplaced.locate_self hq fun s hl => (hl.of_fileOrNone hv hf hq).1
    refine ⟨hv.erase hdir, ?_⟩
    rw [Volume.read, openFile, Volume.find, hself]
    simp only [hnone]
    rfl
  · next e he =>
    split at h
    · next hkind =>
      cases h
      refine ⟨hv, ?_⟩
      rcases hf with ⟨c, hc⟩ | hnone
      · obtain ⟨p, hp⟩ := read_eq_ok_iff.mp hc
        exact absurd hkind (removeFile_of_file hp he)
      · exact hnone
    · cases h

theorem forget_eq_error {f : Fault} (h : on v (forget record) = (.error f, w)) : w = v := by
  simp only [on, ExceptT.run, forget] at h
  split at h
  · cases h
  · split at h <;> cases h
    rfl

/-! ### The calls -/

/-- The digest of the content, if it can be read. -/
def digest? (v : Volume) (content : Text) : Option Digest :=
  match v.read content with
  | .ok bytes => some (.ofContent bytes)
  | .error _ => none

/-- A call on a content and its record, whichever it is, and what it leaves. -/
inductive Called (content record : Text) (v : Volume) : Except Fault Unit → Volume → Prop
  | check {r : Except Fault Bool} {w : Volume} :
      on v (isUnchanged content record) = (r, w) → Called content record v (r.map fun _ => ()) w
  | refresh {r : Except Fault Digest} {w : Volume} :
      on v (refresh content record) = (r, w) → Called content record v (r.map fun _ => ()) w

theorem recorded?_eq_some_iff {d : Digest} : recorded? v record = some d ↔ v.read record = .ok d.bytes := by
  unfold recorded?
  constructor
  · intro h
    split at h
    · next bytes hread =>
      unfold Digest.ofBytes? at h
      split at h
      · cases h
        exact hread
      · cases h
    · cases h
  · intro h
    rw [h]
    exact Digest.ofBytes?_bytes d

theorem on_isUnchanged_of_read (hc : v.read content = .ok bytes) :
    on v (isUnchanged content record) =
      if v.read record = .ok (Digest.ofContent bytes).bytes then (.ok true, v)
      else on v (do
        writeAtomic record (Digest.ofContent bytes).bytes
        pure false) := by
  simp only [on, ExceptT.run, isUnchanged, digestAt, hc, recorded?_eq_some_iff]
  rfl

theorem on_isUnchanged_of_unreadable {e : IoError} (hc : v.read content = .error e) :
    on v (isUnchanged content record) = on v (do
      forget record
      pure false) := by
  simp only [on, ExceptT.run, isUnchanged, digestAt, hc]
  rfl

/-- The gate answers yes just when the record is the digest of the content, and then does nothing. -/
theorem isUnchanged_eq_true_iff : on v (isUnchanged content record) = (.ok true, w) ↔
    w = v ∧ ∃ bytes, v.read content = .ok bytes ∧ v.read record = .ok (Digest.ofContent bytes).bytes := by
  have hfalse {d : Disk Fault Unit} : on v (do d; pure false) ≠ (.ok true, w) := by
    intro h
    obtain ⟨⟨⟩, u, -, hpure⟩ := on_bind_eq_ok h
    cases hpure
  cases hc : v.read content with
  | error e =>
    rw [on_isUnchanged_of_unreadable hc]
    refine ⟨fun h => absurd h hfalse, ?_⟩
    rintro ⟨-, bytes, hread, -⟩
    cases hread
  | ok bytes =>
    rw [on_isUnchanged_of_read hc]
    split
    · next hrec =>
      constructor
      · intro h
        cases h
        exact ⟨rfl, bytes, rfl, hrec⟩
      · rintro ⟨rfl, -⟩
        rfl
    · next hrec =>
      refine ⟨fun h => absurd h hfalse, ?_⟩
      rintro ⟨-, other, hother, hread⟩
      cases hother
      exact absurd hread hrec

/-- What a call leaves of a content and its record. -/
structure Left (content record : Text) (v : Volume) (r : Except Fault Unit) (w : Volume) : Prop where
  sound : r = .ok () → w.Sound
  /-- The content is as it was. -/
  same : ∀ bytes, v.read content = .ok bytes → w.read content = .ok bytes
  /-- The record is the digest that was seen. -/
  recorded : r = .ok () → ∀ bytes, v.read content = .ok bytes →
    w.read record = .ok (Digest.ofContent bytes).bytes
  forgotten : r = .ok () → ∀ e, v.read content = .error e → w.read record = .error (.os .noEntry)
  /-- A call that fails leaves the record. -/
  failed : ∀ f, r = .error f → w.read record = v.read record

theorem left_failed {f : Fault} (hsame : ∀ bytes, v.read content = .ok bytes → w.read content = .ok bytes)
    (hrec : w.read record = v.read record) : Left content record v (.error f) w where
  sound he := by cases he
  same := hsame
  recorded he := by cases he
  forgotten he := by cases he
  failed _ _ := hrec

theorem left_recorded (hw : w.Sound) (hc : v.read content = .ok bytes) (hkept : w.read content = .ok bytes)
    (hrec : w.read record = .ok (Digest.ofContent bytes).bytes) :
    Left content record v (.ok ()) w where
  sound _ := hw
  same c hread := by rw [hkept, ← hc, hread]
  recorded _ c hread := by
    rw [hc] at hread
    cases hread
    exact hrec
  forgotten _ e hread := by
    rw [hc] at hread
    cases hread
  failed f he := by cases he

theorem left_forgotten {e : IoError} (hw : w.Sound) (hc : v.read content = .error e)
    (hnone : w.read record = .error (.os .noEntry)) : Left content record v (.ok ()) w where
  sound _ := hw
  same c hread := by
    rw [hc] at hread
    cases hread
  recorded _ c hread := by
    rw [hc] at hread
    cases hread
  forgotten _ _ _ := hnone
  failed f he := by cases he

theorem left_written {α : Type} {a : α} {r : Except Fault α} (hv : v.Sound) (hf : FileOrNone v record)
    (hs : Separate v content record) (hc : v.read content = .ok bytes)
    (h : on v (do
      writeAtomic record (Digest.ofContent bytes).bytes
      pure a) = (r, w)) : Left content record v (r.map fun _ => ()) w := by
  rcases on_bind_cases h with ⟨f, hwrite, rfl⟩ | ⟨⟨⟩, u, hwrite, hpure⟩
  · obtain ⟨hkept, hcases⟩ := written hv hf hs hc hwrite
    rcases hcases with ⟨hok, -⟩ | ⟨-, hrec⟩
    · cases hok
    · exact left_failed (fun c hread => by rw [hkept, ← hc, hread]) hrec
  · cases hpure
    obtain ⟨hkept, hcases⟩ := written hv hf hs hc hwrite
    rcases hcases with ⟨-, hsound, hrec⟩ | ⟨⟨f, hf⟩, -⟩
    · exact left_recorded hsound hc hkept hrec
    · cases hf

theorem left_isUnchanged {r : Except Fault Bool} (hv : v.Sound) (hf : FileOrNone v record)
    (hs : Separate v content record) (h : on v (isUnchanged content record) = (r, w)) :
    Left content record v (r.map fun _ => ()) w := by
  cases hc : v.read content with
  | ok bytes =>
    rw [on_isUnchanged_of_read hc] at h
    split at h
    · next hrec =>
      cases h
      exact left_recorded hv hc hc hrec
    · exact left_written hv hf hs hc h
  | error e =>
    rw [on_isUnchanged_of_unreadable hc] at h
    rcases on_bind_cases h with ⟨f, hforget, rfl⟩ | ⟨⟨⟩, u, hforget, hpure⟩
    · obtain rfl := forget_eq_error hforget
      exact left_failed (fun _ hread => hread) rfl
    · cases hpure
      obtain ⟨hsound, hnone⟩ := forgotten hv hf hforget
      exact left_forgotten hsound hc hnone

theorem left_refresh {r : Except Fault Digest} (hv : v.Sound) (hf : FileOrNone v record)
    (hs : Separate v content record) (h : on v (refresh content record) = (r, w)) :
    Left content record v (r.map fun _ => ()) w := by
  unfold refresh digestFile at h
  rcases on_bind_cases h with ⟨f, hdigest, rfl⟩ | ⟨d, u, hdigest, h⟩
  · obtain ⟨-, rfl⟩ := Prod.mk.inj hdigest
    exact left_failed (fun _ hread => hread) rfl
  · obtain ⟨hd, rfl⟩ := on_ask_eq_ok hdigest
    unfold digestAt at hd
    split at hd
    · next bytes hc =>
      cases hd
      exact left_written hv hf hs hc h
    · cases hd

/-- Each call brings the record up to date with the content, or fails and leaves it. -/
theorem Called.left {r : Except Fault Unit} (h : Called content record v r w) (hv : v.Sound)
    (hf : FileOrNone v record) (hs : Separate v content record) : Left content record v r w := by
  cases h with
  | check h => exact left_isUnchanged hv hf hs h
  | refresh h => exact left_refresh hv hf hs h

/-! ### Runs -/

/-- What is reached from a volume without a record by calls that succeed, while others may change all but
what is found at the record's path; `seen` is the digest that the last call has seen, if the content could
be read. -/
inductive Reached (content record : Text) : Option Digest → Volume → Prop
  | start {v : Volume} : v.Sound → v.read record = .error (.os .noEntry) → Reached content record none v
  | outside {seen : Option Digest} {v w : Volume} :
      Reached content record seen v → w.Sound → w.read record = v.read record →
      Reached content record seen w
  | called {seen : Option Digest} {v w : Volume} :
      Reached content record seen v → Separate v content record → Called content record v (.ok ()) w →
      Reached content record (digest? v content) w

/-- The record is what the last call has seen. -/
structure Tracks (record : Text) (seen : Option Digest) (v : Volume) : Prop where
  sound : v.Sound
  record : v.read record = seen.elim (.error (.os .noEntry)) fun d => .ok d.bytes

theorem Tracks.fileOrNone {seen : Option Digest} (h : Tracks record seen v) : FileOrNone v record := by
  cases seen with
  | none => exact .inr h.record
  | some d => exact .inl ⟨d.bytes, h.record⟩

theorem Called.tracks {seen : Option Digest} (h : Called content record v (.ok ()) w)
    (ht : Tracks record seen v) (hs : Separate v content record) :
    Tracks record (digest? v content) w := by
  have hleft := h.left ht.sound ht.fileOrNone hs
  refine ⟨hleft.sound rfl, ?_⟩
  unfold digest?
  cases hc : v.read content with
  | ok bytes => exact hleft.recorded rfl bytes hc
  | error e => exact hleft.forgotten rfl e hc

theorem Reached.tracks {seen : Option Digest} (h : Reached content record seen v) :
    Tracks record seen v := by
  induction h with
  | start hv hnone => exact ⟨hv, hnone⟩
  | outside _ hw hsame ih => exact ⟨hw, hsame.trans ih.record⟩
  | called _ hs hcall ih => exact hcall.tracks ih hs

/-- Whatever is in the record, the gate answers yes just when it is the digest of the content, and each
call that succeeds brings it up to date, so that the gate would answer yes at once.  In a run it answers
yes just when the call before has seen the same digest; it says no when the content cannot be read, and
then there is no record. -/
theorem gate_follows_content (content record : Text) :
    (∀ v, v.Sound → FileOrNone v record → Separate v content record →
      (∀ w, on v (isUnchanged content record) = (.ok true, w) ↔ w = v ∧
        ∃ bytes, v.read content = .ok bytes ∧ v.read record = .ok (Digest.ofContent bytes).bytes) ∧
      ∀ r w, Called content record v r w → Left content record v r w ∧
        ((digest? v content).isSome → r = .ok () →
          on w (isUnchanged content record) = (.ok true, w))) ∧
    ∀ seen v, Reached content record seen v →
      ∀ b w, on v (isUnchanged content record) = (.ok b, w) →
        (b = true ↔ (digest? v content).isSome ∧ digest? v content = seen) := by
  refine ⟨fun v hv hf hs => ⟨fun w => isUnchanged_eq_true_iff, fun r w h => ?_⟩, ?_⟩
  · have hleft := h.left hv hf hs
    refine ⟨hleft, fun hsome hr => isUnchanged_eq_true_iff.mpr ⟨rfl, ?_⟩⟩
    unfold digest? at hsome
    cases hc : v.read content with
    | ok bytes => exact ⟨bytes, hleft.same bytes hc, hleft.recorded hr bytes hc⟩
    | error e => simp [hc] at hsome
  · intro seen v hreached b w h
    have hrecord := hreached.tracks.record
    have htrue : b = true ↔ ∃ bytes, v.read content = .ok bytes ∧
        v.read record = .ok (Digest.ofContent bytes).bytes := by
      constructor
      · rintro rfl
        exact (isUnchanged_eq_true_iff.mp h).2
      · intro hsame
        have hyes := isUnchanged_eq_true_iff.mpr ⟨rfl, hsame⟩
        rw [h] at hyes
        cases hyes
        rfl
    rw [htrue, hrecord]
    unfold digest?
    cases v.read content with
    | error e => simp
    | ok bytes =>
      cases seen with
      | none => simp
      | some d =>
        obtain ⟨db, hd⟩ := d
        simp [Digest.ofContent, eq_comm]

/-- A file that has no record. -/
def untracked : Volume := { Volume.empty with items := [(["f".toList], .file [1])] }

/-- The gate says no at first, and then yes. -/
theorem gate_follows_untracked : ∃ w, on untracked (isUnchanged "f".toList "r".toList) = (.ok false, w) ∧
    Reached "f".toList "r".toList (some (.ofContent [1])) w ∧
    on w (isUnchanged "f".toList "r".toList) = (.ok true, w) := by
  have hv : untracked.Sound := ⟨by decide, by decide, by decide⟩
  have hnone : untracked.read "r".toList = .error (.os .noEntry) := by decide +kernel
  have hs : Separate untracked "f".toList "r".toList := by
    refine ⟨fun p c q d _ hq => ?_, fun _ => by decide +kernel⟩
    rw [read_eq_ok_iff.mpr ⟨q, hq⟩] at hnone
    cases hnone
  have hfirst : (on untracked (isUnchanged "f".toList "r".toList)).1 = .ok false := by rfl
  obtain ⟨r, w, hrun⟩ : ∃ r w, on untracked (isUnchanged "f".toList "r".toList) = (r, w) := ⟨_, _, rfl⟩
  rw [hrun] at hfirst
  obtain rfl : r = .ok false := hfirst
  have hcall : Called "f".toList "r".toList untracked (.ok ()) w := .check hrun
  have hlaw := (gate_follows_content "f".toList "r".toList).1 untracked hv (.inr hnone) hs
  exact ⟨w, hrun, .called (.start hv hnone) hs hcall, (hlaw.2 _ w hcall).2 (by decide) rfl⟩

/-- A file that is reached through a link to its directory. -/
def linkedContent : Volume :=
  { Volume.empty with
    items := [(["x".toList], .dir), (["x".toList, "f".toList], .file [1]),
      (["l".toList], .link "x".toList)] }

/-- The volume once the gate was asked about it, with a record whose path leads nowhere before. -/
def unlinkedContent : Volume :=
  (on linkedContent (isUnchanged "l/f".toList "d/../l".toList)).2

/-- Making the directories above the record brings the link to light, and the record takes its place: the
content cannot be read any more, and the gate says no once more. -/
theorem gate_replaces_link : linkedContent.Sound ∧
    linkedContent.read "l/f".toList = .ok [1] ∧
    linkedContent.read "d/../l".toList = .error (.os .noEntry) ∧
    (on linkedContent (isUnchanged "l/f".toList "d/../l".toList)).1 = .ok false ∧
    unlinkedContent.read "d/../l".toList = .ok (Digest.ofContent [1]).bytes ∧
    unlinkedContent.read "l/f".toList = .error (.os .notDirectory) ∧
    (on unlinkedContent (isUnchanged "l/f".toList "d/../l".toList)).1 = .ok false :=
  ⟨⟨by decide, by decide, by decide⟩, by decide +kernel, by decide +kernel, by rfl,
    by decide +kernel,
    by decide +kernel,
    by decide +kernel⟩

end Patchwork.Gate
