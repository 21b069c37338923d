import Patchwork.Proofs.Archive.Fresh
import Patchwork.Proofs.Zip.Written

/-!
# Copying what was copied

A copy that two filters make of an archive, one after the other, is the copy of the files that both accept.  A
copy of a copy lists the same entries in the same order, wherever it is put, and so does a copy that is made
once more.
-/
namespace Patchwork

open Handle Volume
open Zip (Member)

variable {u v w : Volume} {f F G : FilterSet} {ms ns : List Member} {source dest a path : Text}
  {r : CopyReport}

/-! ### What is read back -/

/-- The name of a directory on the way to an entry is a part of the entry's name. -/
theorem Entry.relative_isInfix {name d : Text} (hd : d ∈ ancestors (normalize name)) :
    relative d ++ ['/'] <:+: name := by
  obtain ⟨hne, hpre⟩ := mem_ancestors_iff.mp hd
  obtain ⟨c, u, rfl⟩ := List.exists_cons_of_ne_nil hne
  obtain ⟨rfl, htrimmed⟩ := List.cons_prefix_cons.mp hpre
  obtain ⟨front, hfront⟩ := List.dropWhile_suffix (l := u) (· = '/')
  have hrelative : relative ('/' :: u) ++ ['/'] <:+ u ++ ['/'] := by
    rw [relative, List.dropWhile_cons_of_pos (by rfl)]
    exact ⟨front, by rw [← List.append_assoc, hfront]⟩
  obtain ⟨s, hs, -⟩ := Text.exists_dropEnd (· = '/') (name.dropWhile (· = '/'))
  have hdropEnd : Text.dropBoth (· = '/') name <+: name.dropWhile (· = '/') := ⟨s, hs.symm⟩
  exact hrelative.isInfix.trans (htrimmed.isInfix.trans (hdropEnd.isInfix.trans (List.dropWhile_suffix _).isInfix))

theorem length_encode_le {s t : Text} (h : s <:+: t) :
    (Text.Utf8.encode s).length ≤ (Text.Utf8.encode t).length := by
  obtain ⟨front, back, rfl⟩ := h
  simp only [Text.Utf8.encode, List.flatMap_append, List.length_append]
  omega

/-- What is gathered of members whose numbers fit is made of such. -/
theorem fits_arrivals (ho : Orderly ms) (hms : ∀ m ∈ ms, Zip.Fits m) :
    ∀ m ∈ (arrivals [] ms).map (·.2), Zip.Fits m := by
  intro m hm
  obtain ⟨a, ha, rfl⟩ := List.mem_map.mp hm
  rcases mem_arrivals ho.segmented ha with ⟨n, hn, rfl⟩ | ⟨n, hn, d, hd, rfl⟩
  · exact (hms n hn).copied
  · exact Zip.fits_directory (Nat.lt_of_le_of_lt (length_encode_le (Entry.relative_isInfix hd)) (hms n hn).name)

/-- A copy is read back as it was written unless it is too long, or a locator seems to stand at its end. -/
theorem readsBack_copyOf (ho : Orderly ms) (hms : ∀ m ∈ ms, Zip.Fits m) {accepts : Text → Bool}
    (hend : Zip.EndFits (copyOf accepts ms)) : Zip.ReadsBack (copyOf accepts ms) := by
  rw [copyOf_eq] at hend ⊢
  exact Zip.read_write (fits_arrivals (ho.accepted accepts) fun m hm => hms m (mem_accepted.mp hm).1) hend

/-! ### Copying again -/

/-- Copying into a new archive goes well just if a new archive can be put at the destination, and then the
archive there lists some members. -/
def Yields (v : Volume) (source dest : Text) (f : FilterSet) (ms : List Member) : Prop :=
  ((∃ r w, Disk.on v (Archive.copyFresh source dest f) = (.ok r, w)) ↔ Creatable v dest) ∧
    ∀ r w, Disk.on v (Archive.copyFresh source dest f) = (.ok r, w) → PutAt v w dest ms

/-- A path leads to a file that holds the same in both volumes. -/
def SameFile (v w : Volume) (path : Text) : Prop := ∃ bytes, v.read path = .ok bytes ∧ w.read path = .ok bytes

theorem yields (hv : v.Sound) (ha : v.HasArchive source ms) (ho : Orderly ms)
    (hzip : Zip.ReadsBack (copyOf f.accepts ms))
    (hsame : (copyOf f.accepts ms).map Member.record = ns.map Member.record) (dest : Text) :
    Yields v source dest f ns :=
  ⟨copyFresh_iff_creatable ha ho, fun _ _ hrun => (putAt_written hv hzip (copyFresh_writes ha ho hrun)).congr hsame⟩

/-- An archive that was written is there wherever a path leads to it. -/
theorem hasArchive_of_write (hzip : Zip.ReadsBack ms) (hread : v.read path = .ok (Zip.write ms)) :
    v.HasArchive path ms := ⟨_, _, hread, hzip, rfl⟩

theorem Volume.HasArchive.same (ha : v.HasArchive path ms) (hsame : SameFile v w path) : w.HasArchive path ms := by
  obtain ⟨bytes, arch, hread, harch, hms⟩ := ha
  obtain ⟨bytes', hread', hw⟩ := hsame
  rw [hread] at hread'
  cases hread'
  exact ⟨bytes, arch, hw, harch, hms⟩

/-- A copy with the same filter, or with none, lists what was copied. -/
theorem record_copyOf_again (ho : Orderly ms) {K : FilterSet} (hK : K = F ∨ K = .all) :
    (copyOf K.accepts (copyOf F.accepts ms)).map Member.record = (copyOf F.accepts ms).map Member.record := by
  have hboth : (fun p => F.accepts p && K.accepts p) = F.accepts := by
    funext p
    rcases hK with rfl | rfl
    · exact Bool.and_self _
    · exact Bool.and_true _
  rw [record_copyOf_copyOf ho, hboth]

/-- What was copied into a new archive is read back as it was written. -/
theorem copyFresh_reads (hv : v.Sound) (ha : v.HasArchive source ms) (ho : Orderly ms)
    (hzip : Zip.ReadsBack (copyOf F.accepts ms))
    (hrun : Disk.on v (Archive.copyFresh source dest F) = (.ok r, w)) (hsame : SameFile w u dest) :
    u.HasArchive dest (copyOf F.accepts ms) := by
  obtain ⟨bytes, hbytes, hread⟩ := hsame
  rw [read_written hv (copyFresh_writes ha ho hrun) hbytes] at hread
  exact hasArchive_of_write hzip hread

/-- Once an archive has been copied, its path leads to it as it was or to the copy, if to anything. -/
theorem copyFresh_leaves_source (hv : v.Sound) (ha : v.HasArchive source ms) (ho : Orderly ms)
    (hzip : Zip.ReadsBack (copyOf F.accepts ms))
    (hrun : Disk.on v (Archive.copyFresh source dest F) = (.ok r, w)) (hsame : SameFile w u source) :
    u.HasArchive source ms ∨ u.HasArchive source (copyOf F.accepts ms) := by
  have hwrite := copyFresh_writes ha ho hrun
  obtain ⟨old, arch, hold, harch, hms⟩ := ha
  obtain ⟨bytes, hbytes, hread⟩ := hsame
  rcases read_beside_written hv hwrite hold hbytes with rfl | rfl
  · exact .inl ⟨_, arch, hread, harch, hms⟩
  · exact .inr (hasArchive_of_write hzip hread)

/-- Copying what was copied gives the files that both filters accept, with the directories that lead to them;
with the same filter or with none it gives the same entries again, and so does copying once more from the
source, wherever the copies are put. -/
theorem copyFresh_composes (hv : v.Sound) (hsource : v.HasArchive source ms) (ho : Orderly ms)
    (hzip : Zip.ReadsBack (copyOf F.accepts ms))
    (hagain : ∀ K ∈ [F, G, .all], Zip.ReadsBack (copyOf K.accepts (copyOf F.accepts ms)))
    (hrun : Disk.on v (Archive.copyFresh source a F) = (.ok r, w)) :
    ∃ first both, Selects F.accepts ms first ∧ Selects (fun p => F.accepts p && G.accepts p) ms both ∧
      PutAt v w a first ∧
      (∀ b r' x, Disk.on w (Archive.copyFresh a b G) = (.ok r', x) → PutAt w x b both) ∧
      (∀ u dest, u.Sound → SameFile w u a → Yields u a dest G both ∧
        ∀ K, K = F ∨ K = .all → Yields u a dest K first) ∧
      ∀ u dest, u.Sound → SameFile v u source ∨ SameFile w u source → Yields u source dest F first := by
  have hwrite := copyFresh_writes hsource ho hrun
  have hcopied := orderly_copyOf ho F.accepts
  have hsecond (u : Volume) (dest : Text) (hu : u.Sound) (hsame : SameFile w u a) :
      Yields u a dest G (copyOf (fun p => F.accepts p && G.accepts p) ms) :=
    yields hu (copyFresh_reads hv hsource ho hzip hrun hsame) hcopied (hagain G (by simp))
      (record_copyOf_copyOf ho _ _) dest
  have hrepeat {u : Volume} {K : FilterSet} {path : Text} (hK : K = F ∨ K = .all) (hu : u.Sound)
      (ha : u.HasArchive path (copyOf F.accepts ms)) (dest : Text) :
      Yields u path dest K (copyOf F.accepts ms) :=
    yields hu ha hcopied (hagain K (by rcases hK with rfl | rfl <;> simp)) (record_copyOf_again ho hK) dest
  refine ⟨_, _, selects_copyOf ho F.accepts, selects_copyOf ho fun p => F.accepts p && G.accepts p,
    putAt_written hv hzip hwrite, fun b r' x hrun' => ?_, fun u dest hu hsame => ⟨hsecond u dest hu hsame, ?_⟩,
    fun u dest hu hsame => ?_⟩
  · obtain ⟨input, y, hopen, -⟩ := Disk.on_bind_eq_ok hrun'
    obtain ⟨bytes, hread⟩ := isFile_iff_read.mp (openAt_source hopen).2
    exact (hsecond w b (sound_written hv hwrite) ⟨bytes, hread, hread⟩).2 r' x hrun'
  · exact fun K hK => hrepeat hK hu (copyFresh_reads hv hsource ho hzip hrun hsame) dest
  · have hstill : u.HasArchive source ms ∨ u.HasArchive source (copyOf F.accepts ms) :=
      hsame.elim (fun h => .inl (hsource.same h)) (copyFresh_leaves_source hv hsource ho hzip hrun)
    rcases hstill with ha | ha
    · exact yields hu ha ho hzip rfl dest
    · exact hrepeat (.inl rfl) hu ha dest

/-! ### Two filters -/

/-- The filter of one pattern. -/
def onePattern (pattern : Text) : FilterSet := (FilterSet.ofPatterns [pattern]).toOption.getD .all

/-- Two files in a directory, and one beside it. -/
def boxedMembers : List Member :=
  [.file "x/a.t".toList [104], .directory "x/".toList, .file "x/b".toList [105], .file "c.t".toList []]

def boxed : Volume := { Volume.empty with items := [([['s']], .file (Zip.write boxedMembers))] }

theorem zip_boxed : Zip.read (Zip.write boxedMembers) = .ok ⟨[], boxedMembers⟩ := by decide +kernel

/-- The files of the directory are copied, and then those of them with a certain ending. -/
theorem copyFresh_composes_boxed : ∃ w x both,
    boxed.Sound ∧ boxed.HasArchive ['s'] boxedMembers ∧ Orderly boxedMembers ∧
    Disk.on boxed (Archive.copyFresh ['s'] ['a'] (onePattern "x/*".toList)) = (.ok ⟨2, 1⟩, w) ∧
    Disk.on w (Archive.copyFresh ['a'] ['b'] (onePattern "**.t".toList)) = (.ok ⟨1, 1⟩, x) ∧
    PutAt w x ['b'] both ∧
    (both.filter (·.kind = .file)).map Member.record = [(Member.file "x/a.t".toList [104]).record] ∧
    ∀ d, (∃ m ∈ both, m.kind = .dir ∧ m.path = d) ↔ d = "/x".toList := by
  have hv : boxed.Sound := ⟨by decide, by decide, by decide⟩
  have hread : boxed.read ['s'] = .ok (Zip.write boxedMembers) := by decide +kernel
  have hsource : boxed.HasArchive ['s'] boxedMembers := ⟨_, _, hread, zip_boxed, rfl⟩
  have ho : Orderly boxedMembers := by decide +kernel
  have hzip : Zip.ReadsBack (copyOf (onePattern "x/*".toList).accepts boxedMembers) := by
    unfold Zip.ReadsBack
    decide +kernel
  have hagain : ∀ K ∈ [onePattern "x/*".toList, onePattern "**.t".toList, .all],
      Zip.ReadsBack (copyOf K.accepts (copyOf (onePattern "x/*".toList).accepts boxedMembers)) := by
    simp only [List.forall_mem_cons, Zip.ReadsBack]
    refine ⟨?_, ?_, ?_, nofun⟩ <;> decide +kernel
  have hboth : accepted (fun p => (onePattern "x/*".toList).accepts p && (onePattern "**.t".toList).accepts p)
      boxedMembers = [.file "x/a.t".toList [104]] := by decide +kernel
  have hreports : (Disk.on boxed (Archive.copyFresh ['s'] ['a'] (onePattern "x/*".toList) >>= fun r =>
      Archive.copyFresh ['a'] ['b'] (onePattern "**.t".toList) >>= fun r' => pure (r, r'))).1 =
        .ok (⟨2, 1⟩, ⟨1, 1⟩) := by decide +kernel
  obtain ⟨w, x, hrun, hrun'⟩ := Disk.on_both_eq_ok hreports
  obtain ⟨-, both, -, hselects, -, hput, -⟩ := copyFresh_composes hv hsource ho hzip hagain hrun
  have hfiles := hselects.files
  have hdirs := hselects.dirs
  rw [hboth] at hfiles hdirs
  refine ⟨w, x, both, hv, hsource, ho, hrun, hrun', hput _ _ _ hrun', hfiles, fun d => (hdirs d).trans ?_⟩
  have habove : Entry.ancestors (Member.file "x/a.t".toList [104]).path = ["/x".toList] := by decide +kernel
  simp only [List.mem_singleton, exists_eq_left, habove]

/-- A file whose name begins with the signature of a record that may stand behind the directory, and another
one. -/
def markedMembers : List Member := [.file "PK\x06\x07xxxxxxxxxxxxxxxx".toList [], .file ['z'] []]

def marked : Volume := { Volume.empty with items := [([['s']], .file (Zip.write markedMembers))] }

theorem hasArchive_marked : marked.HasArchive ['s'] markedMembers ∧ Orderly markedMembers :=
  ⟨⟨Zip.write markedMembers, ⟨[], markedMembers⟩, by decide +kernel, by decide +kernel, rfl⟩, by decide +kernel⟩

/-- The first file alone is copied into an archive that cannot be read, so that nothing is copied from it. -/
theorem copyFresh_unreadable : ∃ w,
    marked.Sound ∧ marked.HasArchive ['s'] markedMembers ∧ Orderly markedMembers ∧
    Disk.on marked (Archive.copyFresh ['s'] ['a'] (onePattern "PK*".toList)) = (.ok ⟨1, 1⟩, w) ∧
    ∀ K, Disk.on w (Archive.copyFresh ['a'] ['b'] K) = (.error (.malformedArchive ['a'] .severalDisks), w) := by
  have hreport : (Disk.on marked (Archive.copyFresh ['s'] ['a'] (onePattern "PK*".toList) >>= fun r =>
      Disk.ask fun v => .ok (r, v.isFile ['a'], (load v ['a']).map fun _ => ()))).1 =
        .ok (⟨1, 1⟩, true, .error (.malformedArchive ['a'] .severalDisks)) := by decide +kernel
  generalize hrun : Disk.on marked (Archive.copyFresh ['s'] ['a'] (onePattern "PK*".toList) >>= fun r =>
      Disk.ask fun v => .ok (r, v.isFile ['a'], (load v ['a']).map fun _ => ())) = run at hreport
  obtain ⟨report, w⟩ := run
  obtain rfl : report = _ := hreport
  obtain ⟨r, w, hcopy, hask⟩ := Disk.on_bind_eq_ok hrun
  obtain ⟨hasked, rfl⟩ := Disk.on_ask_eq_ok hask
  simp only [Except.ok.injEq, Prod.mk.injEq] at hasked
  obtain ⟨rfl, hfile, hload⟩ := hasked
  refine ⟨w, ⟨by decide, by decide, by decide⟩, hasArchive_marked.1, hasArchive_marked.2, hcopy, fun K => ?_⟩
  cases hopen : load w ['a'] with
  | ok h =>
    rw [hopen] at hload
    cases hload
  | error e =>
    rw [hopen] at hload
    cases hload
    rw [Archive.copyFresh, Disk.on_bind, on_openAt_false, if_pos hfile, hopen]

end Patchwork
