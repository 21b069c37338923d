import Patchwork.Proofs.Volume.Alike
import Patchwork.Proofs.Volume.Replaced

/-!
# Files that are written again

A file that can be read under a path that ends in a name can be replaced there as a whole, if a temporary file can be
made beside it.
-/
namespace Patchwork

namespace Disk

open Volume

variable {u v w x : Volume} {dir path temp : Text} {b c : Bytes} {p q : Place}

theorem mem_toDigits {n : Nat} {d : Char} (hd : d ∈ Nat.toDigits 16 n) : ∃ k < 16, d = Nat.digitChar k := by
  induction n using Nat.strong_induction_on with
  | _ n ih =>
    rw [Nat.toDigits_eq_if (by decide)] at hd
    split at hd
    · next hn => exact ⟨n, hn, List.mem_singleton.mp hd⟩
    · next hn =>
      rcases List.mem_append.mp hd with hd | hd
      · exact ih (n / 16) (by omega) hd
      · exact ⟨n % 16, Nat.mod_lt n (by decide), List.mem_singleton.mp hd⟩

/-- The name of a temporary file is one that a file can have. -/
theorem name_tempName (n : Nat) : Path.Name (tempName n) := by
  have hslash : ∀ k < 16, Nat.digitChar k ≠ '/' := by decide
  refine ⟨?_, fun hin => ?_⟩
  · rw [Step.ofPart?, if_neg (by rintro ⟨⟩), if_neg (by rintro ⟨⟩), if_neg (by rintro ⟨⟩)]
  · rcases List.mem_append.mp hin with hin | hin
    · exact absurd hin (by decide)
    · obtain ⟨k, hk, hdigit⟩ := mem_toDigits hin
      exact hslash k hk hdigit.symm

/-- Where a temporary file can be made, there is a directory. -/
theorem find_of_createTemp (hd : dir ≠ []) (h : on v (createTemp dir) = (.ok temp, w)) :
    ∃ p, v.find .item dir = .ok (p, .dir) := by
  simp only [on, ExceptT.run, createTemp] at h
  split at h
  · next x hnew =>
    have hnames : ∀ name ∈ [tempName (freshSerial v dir)], Path.Name name := by
      simpa using name_tempName (freshSerial v dir)
    obtain ⟨core, tail, hcore, htail, hjoin⟩ := Step.ofPath_join hd hnames (List.cons_ne_nil _ _)
    have hrest := Path.not_isAbsolute_ofParts hnames (List.cons_ne_nil _ _)
    have hone : Path.ofParts [tempName (freshSerial v dir)] = tempName (freshSerial v dir) := by
      simp [Path.ofParts]
    rw [hone] at hjoin hrest
    unfold createNew at hnew
    split at hnew
    · next q hl =>
      have halike : Alike [] v { v with serial := freshSerial v dir + 1 } := ⟨rfl, fun _ => .inl rfl⟩
      rw [halike.locate] at hl
      obtain ⟨hu, hlead⟩ := locate_eq_ok_iff.mp hl
      rw [start_join hd hrest, hjoin] at hlead
      obtain ⟨p, k, hp, hk⟩ := hlead.split (List.cons_ne_nil _ _)
      have hdir := hk.dir_start
      have hprefix : dir <+: Path.join dir (tempName (freshSerial v dir)) := by
        unfold Path.join
        rw [if_neg (not_or.mpr ⟨ne_true_of_eq_false hrest, hd⟩)]
        split <;> exact List.prefix_append _ _
      refine ⟨p, find_eq_ok_iff.mpr ⟨locate_eq_ok_iff.mpr ⟨hu.of_isStart hprefix hd, ?_⟩, hdir⟩⟩
      rw [hcore]
      exact hp.append_idle hdir (idle_of_tail htail)
    · cases hnew
  · cases h

/-- What has been written as a whole has a path that ends in a name. -/
theorem endsInName_of_writeAtomic (h : on v (writeAtomic path c) = (.ok (), w)) :
    endsInName path = true ∧ path.getLast? ≠ some '/' := by
  obtain ⟨⟨⟩, u, -, h⟩ := on_bind_eq_ok h
  obtain ⟨temp, x, -, h⟩ := on_bind_eq_ok h
  have h := on_io_eq_ok h
  simp only [on, ExceptT.run, persist] at h
  split at h
  · next hrename =>
    unfold renameFile at hrename
    split at hrename
    · cases hrename
    · split at hrename
      · split at hrename
        · cases hrename
        · next hends =>
          split at hrename
          · split at hrename
            · cases hrename
            · next hslash =>
              exact ⟨by simpa using hends, by simpa [endsInSlash] using hslash⟩
          · cases hrename
          · cases hrename
      · cases hrename
      · cases hrename
  · cases h

/-- A temporary file takes the place of a file that can be read. -/
theorem persist_over (hnew : NewFile u x temp p) (hg : Grows u x) (hslash : temp.getLast? ≠ some '/')
    (hread : u.read path = .ok b) (hname : endsInName path = true) (hpath : path.getLast? ≠ some '/') (c : Bytes) :
    ∃ w, on x (persist temp path c) = (.ok (), w) := by
  obtain ⟨r, hr⟩ := read_eq_ok_iff.mp (hg.read hread)
  obtain ⟨hl, hfile⟩ := find_eq_ok_iff.mp hr
  obtain ⟨hu, hlead⟩ := locate_eq_ok_iff.mp hl
  obtain ⟨q, hentry, -⟩ := hlead.exists_entry (by rw [hfile]; rfl)
  have hdir : x.item? q ≠ some .dir := fun hd => by
    have hitem := hentry.item_of_entry fun t ht => by
      rw [hd] at ht
      cases ht
    rw [hitem.unique hlead, hfile] at hd
    cases hd
  obtain ⟨htemp, hp⟩ := find_eq_ok_iff.mp hnew.find
  have halike : Alike p x (x.put p (.file c)) := alike_put hp c
  obtain ⟨-, -, hfilled⟩ := find_filled hnew.find c
  obtain ⟨hfrom, hcontent⟩ := find_eq_ok_iff.mp hfilled
  have hto : (x.put p (.file c)).locate .entry path = .ok q := by
    rw [halike.locate]
    exact locate_eq_ok_iff.mpr ⟨hu, hentry⟩
  have hnul : '\x00' ∉ temp ++ path := by
    rw [List.mem_append, not_or]
    exact ⟨(locate_eq_ok_iff.mp htemp).1.noNul, hu.noNul⟩
  have hdir' : (x.put p (.file c)).item? q ≠ some .dir := mt (halike.dir_iff q).mp hdir
  have hends : endsInSlash path = false := by simpa [endsInSlash] using hpath
  have hrename : ∃ w, (x.put p (.file c)).renameFile temp path = .ok w := by
    refine ⟨(((x.put p (.file c)).erase p).erase q).put q (.file c), ?_⟩
    unfold renameFile
    rw [if_neg hnul, locateName_of_getLast? hslash, hfrom, locateName_of_getLast? hpath, hto]
    simp only [hname, hcontent, hends, if_neg hdir']
    rfl
  obtain ⟨w, hrename⟩ := hrename
  refine ⟨w, ?_⟩
  simp only [on, ExceptT.run, persist, hnew.find, hrename]

/-- A file that can be read is replaced as a whole if a temporary file can be made beside it. -/
theorem writeAtomic_over (hread : u.read path = .ok b) (hname : endsInName path = true)
    (hpath : path.getLast? ≠ some '/') (htemp : on u (createTemp (Path.directory path)) = (.ok temp, x)) (c : Bytes) :
    ∃ w, on u (writeAtomic path c) = (.ok (), w) := by
  have hne : Path.directory path ≠ [] := by
    unfold Path.directory
    split
    · split
      · exact List.cons_ne_nil _ _
      · next hdir => exact hdir
    · exact List.cons_ne_nil _ _
  obtain ⟨p, hdir⟩ := find_of_createTemp hne htemp
  have hmade : on u (io (createDirAll (Path.directory path))) = (.ok (), u) := on_io_of_ok (makeDirs_of_find hdir)
  obtain ⟨hg, hslash, p, hnew⟩ := createTemp_eq_ok htemp
  obtain ⟨w, hpersist⟩ := persist_over hnew hg hslash hread hname hpath c
  refine ⟨w, ?_⟩
  rw [writeAtomic, on_bind_of_ok hmade, on_bind_of_ok (on_io_of_ok htemp)]
  exact on_io_of_ok hpersist

end Disk

end Patchwork
