import Patchwork.Archive.Extract
import Patchwork.Proofs.Archive.Fresh
import Patchwork.Proofs.Archive.Walking
import Patchwork.Proofs.Glob.AnyOf

/-!
# The pattern of two stars

Two stars stand for any text without a line feed.  So the set of this pattern selects from an archive what the empty
set does, just if no entry has a line feed in its name.
-/
namespace Patchwork

open Volume
open Zip (Member)

variable {F G : FilterSet} {h : Handle} {v : Volume} {source path : Text}

/-! ### Runs that select alike -/

/-- What becomes of the files of an archive depends on which of them are selected. -/
theorem Handle.report_congr (hsame : h.selected F = h.selected G) : h.report F = h.report G := by
  rw [report, report, hsame]

theorem Staging.filterCopy_congr (hsame : h.selected F = h.selected G) : filterCopy h F = filterCopy h G := by
  rw [filterCopy, filterCopy, hsame, Handle.report_congr hsame]

theorem Archive.extract_congr (hsame : h.selected F = h.selected G) (dir : Text) :
    extract h dir F = extract h dir G := by
  rw [extract, extract, hsame, Handle.report_congr hsame]

/-- The runs on an archive that opens do the same, if they select the same. -/
theorem Archive.runs_congr {u : Volume} (hopen : Disk.on v (Handle.openAt source false) = (.ok h, u))
    (hsame : h.selected F = h.selected G) (dest : Text) :
    Disk.on v (copy source dest F) = Disk.on v (copy source dest G) ∧
    Disk.on v (copyFresh source dest F) = Disk.on v (copyFresh source dest G) ∧
    Disk.on v (extractAt source dest F) = Disk.on v (extractAt source dest G) := by
  refine ⟨?_, ?_, ?_⟩
  · rw [copy, copy, Disk.on_bind_of_ok hopen, Disk.on_bind_of_ok hopen, Staging.filterCopy_congr hsame]
  · rw [copyFresh, copyFresh, Disk.on_bind_of_ok hopen, Disk.on_bind_of_ok hopen, Staging.filterCopy_congr hsame]
  · rw [extractAt, extractAt, Disk.on_bind_of_ok hopen, Disk.on_bind_of_ok hopen, extract_congr hsame]

theorem Archive.strip_congr {u : Volume} (hopen : Disk.on v (Handle.openAt source false) = (.ok h, u))
    (hsame : h.selected F = h.selected G) (hkept : keptEntries h F = keptEntries h G) (dest : Text) :
    Disk.on v (strip source dest F) = Disk.on v (strip source dest G) := by
  rw [strip, strip, Disk.on_bind_of_ok hopen, Disk.on_bind_of_ok hopen, hkept, Handle.report_congr hsame]

/-! ### What two stars stand for -/

namespace Glob

theorem tokens_stars : tokens "**".toList = [.anyDeep] := rfl

theorem matches_anyDeep {t : Text} : Matches [.anyDeep] t ↔ '\n' ∉ t := by
  rw [matches_cons]
  constructor
  · rintro ⟨s, u, rfl, hs, hu⟩
    rw [matches_nil.mp hu, List.append_nil]
    exact hs
  · exact fun ht => ⟨t, [], (List.append_nil t).symm, ht, .nil⟩

theorem test_stars {g : Glob} (hg : compile "**".toList = .ok g) : g.test path = true ↔ '\n' ∉ path := by
  have hroot : '\n' ∉ rooted path ↔ '\n' ∉ path := by
    unfold rooted
    split
    · rfl
    · simp
  rw [compile_eq_ok hg, test, accepts_iff, reads_root, reads_items, tokens_stars, matches_anyDeep, ← hroot, rooted_eq]
  simp

theorem exists_compile_stars : ∃ g, compile "**".toList = .ok g := by
  rw [compile_eq]
  exact ⟨_, if_pos (by decide)⟩

end Glob

namespace FilterSet

theorem exists_ofPatterns_stars : ∃ F, ofPatterns ["**".toList] = .ok F := by
  have hsome : ((ofPatterns ["**".toList]).map fun _ => ()) = .ok () := by decide +kernel
  cases hF : ofPatterns ["**".toList] with
  | ok F => exact ⟨F, rfl⟩
  | error e =>
    rw [hF] at hsome
    cases hsome

theorem accepts_stars (hF : ofPatterns ["**".toList] = .ok F) : F.accepts path = true ↔ '\n' ∉ path := by
  obtain ⟨g, hg⟩ := Glob.exists_compile_stars
  rw [(lists_of_ofPatterns hF).accepts_iff, ← Glob.test_stars hg]
  refine ⟨fun h => ?_, fun htest => .inr ⟨_, List.mem_singleton_self _, g, hg, htest⟩⟩
  obtain ⟨p, hp, g', hg', htest⟩ := h.resolve_left (List.cons_ne_nil _ _)
  rw [List.mem_singleton.mp hp, hg] at hg'
  cases hg'
  exact htest

theorem selected_stars (hF : ofPatterns ["**".toList] = .ok F) (h : Handle) :
    h.selected F = h.files.filter ('\n' ∉ ·) :=
  List.filter_congr fun _ _ => Bool.eq_iff_iff.mpr ((accepts_stars hF).trans decide_eq_true_iff.symm)

theorem selected_all (h : Handle) : h.selected .all = h.files := List.filter_eq_self.mpr fun _ _ => rfl

/-- What is above a file without a line feed in its name has none either. -/
theorem keptEntries_stars (hF : ofPatterns ["**".toList] = .ok F) (h : Handle) :
    Archive.keptEntries h F = (h.entries.filter fun e => '\n' ∉ e.1).map (·.1) := by
  unfold Archive.keptEntries
  refine congrArg _ (List.filter_congr fun e he => Bool.eq_iff_iff.mpr ?_)
  obtain ⟨path, kind⟩ := e
  rw [selected_stars hF]
  cases kind with
  | file =>
    have hfile : path ∈ h.files := List.mem_map.mpr ⟨_, List.mem_filter.mpr ⟨he, rfl⟩, rfl⟩
    simp [hfile]
  | dir =>
    have habove (f : Text) (hf : '\n' ∉ f) (hpath : path ∈ Entry.ancestors f) : '\n' ∉ path :=
      fun hmem => hf ((Entry.prefix_of_mem_ancestors hpath).subset hmem)
    simp only [Bool.or_eq_true, decide_eq_true_eq, accepts_stars hF, List.mem_flatMap, List.mem_filter]
    exact or_iff_right_of_imp fun ⟨f, ⟨_, hf⟩, hpath⟩ => habove f hf hpath

theorem keptEntries_all (h : Handle) : Archive.keptEntries h .all = h.entries.map (·.1) := by
  unfold Archive.keptEntries
  refine congrArg _ (List.filter_eq_self.mpr fun e he => ?_)
  obtain ⟨path, kind⟩ := e
  cases kind with
  | file =>
    rw [selected_all]
    exact decide_eq_true (List.mem_map.mpr ⟨_, List.mem_filter.mpr ⟨he, rfl⟩, rfl⟩)
  | dir => exact Bool.or_true _

/-- Two stars match just the paths without a line feed, with a slash in front or not.  So the files that the set of
this pattern selects are those without a line feed in their names, and the same entries are kept; these are the files
that the empty set selects, and all runs do the same with both sets, if no name in the archive has a line feed. -/
theorem stars_accept_all_but_lineFeeds (path : Text) (h : Handle) (v : Volume) (source dest : Text) :
    ∃ g F, Glob.compile "**".toList = .ok g ∧ ofPatterns ["**".toList] = .ok F ∧
    (g.test path = true ↔ '\n' ∉ path) ∧ (F.accepts path = true ↔ '\n' ∉ path) ∧
    h.selected F = h.files.filter ('\n' ∉ ·) ∧
    Archive.keptEntries h F = (h.entries.filter fun e => '\n' ∉ e.1).map (·.1) ∧
    (h.selected F = h.selected .all ↔ ∀ f ∈ h.files, '\n' ∉ f) ∧
    (Archive.keptEntries h F = Archive.keptEntries h .all ↔ ∀ e ∈ h.entries, '\n' ∉ e.1) ∧
    ∀ u, Disk.on v (Handle.openAt source false) = (.ok h, u) →
      ((∀ f ∈ h.files, '\n' ∉ f) →
        Disk.on v (Archive.copy source dest F) = Disk.on v (Archive.copy source dest .all) ∧
        Disk.on v (Archive.copyFresh source dest F) = Disk.on v (Archive.copyFresh source dest .all) ∧
        Disk.on v (Archive.extractAt source dest F) = Disk.on v (Archive.extractAt source dest .all)) ∧
      ((∀ e ∈ h.entries, '\n' ∉ e.1) →
        Disk.on v (Archive.strip source dest F) = Disk.on v (Archive.strip source dest .all)) := by
  obtain ⟨g, hg⟩ := Glob.exists_compile_stars
  obtain ⟨F, hF⟩ := exists_ofPatterns_stars
  have hselected : h.selected F = h.selected .all ↔ ∀ f ∈ h.files, '\n' ∉ f := by
    rw [selected_stars hF, selected_all, List.filter_eq_self]
    simp only [decide_eq_true_eq]
  have hkept : Archive.keptEntries h F = Archive.keptEntries h .all ↔ ∀ e ∈ h.entries, '\n' ∉ e.1 := by
    rw [keptEntries_stars hF, keptEntries_all]
    refine ⟨fun heq => ?_, fun hall => ?_⟩
    · have hlength := congrArg List.length heq
      rw [List.length_map, List.length_map, List.length_filter_eq_length_iff] at hlength
      exact fun e he => of_decide_eq_true (hlength e he)
    · rw [List.filter_eq_self.mpr fun e he => decide_eq_true (hall e he)]
  refine ⟨g, F, hg, hF, Glob.test_stars hg, accepts_stars hF, selected_stars hF h, keptEntries_stars hF h, hselected,
    hkept, fun u hopen => ⟨fun hall => Archive.runs_congr hopen (hselected.mpr hall) dest, fun hall => ?_⟩⟩
  refine Archive.strip_congr hopen (hselected.mpr fun f hf => ?_) (hkept.mpr hall) dest
  obtain ⟨e, he, rfl⟩ := List.mem_map.mp hf
  exact hall e (List.mem_of_mem_filter he)

/-- A file whose name has a line feed. -/
def brokenName : Volume :=
  { Volume.empty with items := [([['s']], .file (Zip.write [.file "a\nb".toList [104]]))] }

/-- One star passes over a line feed, but two stars do not, and the file is left out of what is copied. -/
theorem stars_miss_lineFeed : ∃ one two F, Glob.compile "*".toList = .ok one ∧ Glob.compile "**".toList = .ok two ∧
    ofPatterns ["**".toList] = .ok F ∧ one.test "a\nb".toList = true ∧ two.test "a\nb".toList = false ∧
    (Disk.on brokenName (Archive.copyFresh ['s'] ['a'] F)).1 = .ok ⟨0, 1⟩ ∧
    (Disk.on brokenName (Archive.copyFresh ['s'] ['a'] .all)).1 = .ok ⟨1, 0⟩ := by
  have hrun : ((Glob.compile "*".toList).bind fun one => (Glob.compile "**".toList).bind fun two =>
      (ofPatterns ["**".toList]).bind fun F => .ok (decide (one.test "a\nb".toList = true ∧
        two.test "a\nb".toList = false ∧ (Disk.on brokenName (Archive.copyFresh ['s'] ['a'] F)).1 = .ok ⟨0, 1⟩ ∧
        (Disk.on brokenName (Archive.copyFresh ['s'] ['a'] .all)).1 = .ok ⟨1, 0⟩))) = .ok true := by decide +kernel
  obtain ⟨two, htwo⟩ := Glob.exists_compile_stars
  obtain ⟨F, hF⟩ := exists_ofPatterns_stars
  cases hone : Glob.compile "*".toList with
  | error e =>
    rw [hone] at hrun
    cases hrun
  | ok one =>
    rw [hone, htwo, hF] at hrun
    exact ⟨one, two, F, rfl, htwo, hF, of_decide_eq_true (Except.ok.inj hrun)⟩

end FilterSet

end Patchwork
