import Patchwork.Proofs.Patch.RoundTrip
import Patchwork.Proofs.Tree.Loading

/-!
# The file that a patch is taken for

The patch that a diff writes for a file is read back with the path of the file, whatever label goes in front of it
on the new side.  Taking off the configured beginnings gives the same file just if none of them fits the path.
-/
namespace Patchwork

open Text (Line)

variable {beginnings before after : List Text} {b f label mark path rest old new origin : Text} {p : FilePatch}

/-! ### Taking off beginnings -/

theorem Text.isPrefixOf?_eq_some_iff {s t u : Text} : s.isPrefixOf? t = some u ↔ t = s ++ u := by
  constructor
  · intro h
    induction s generalizing t with
    | nil => exact Option.some.inj h
    | cons c s ih =>
      cases t with
      | nil => cases h
      | cons d t =>
        rw [List.isPrefixOf?] at h
        split at h
        · next hc =>
          rw [eq_of_beq hc, ih h]
          rfl
        · cases h
  · rintro rfl
    exact Text.isPrefixOf?_append s u

theorem Text.isPrefixOf?_eq_none_iff {s t : Text} : s.isPrefixOf? t = none ↔ ¬ s <+: t := by
  rw [Option.eq_none_iff_forall_ne_some]
  constructor
  · rintro h ⟨u, hu⟩
    exact h u (Text.isPrefixOf?_eq_some_iff.mpr hu.symm)
  · rintro h u hu
    exact h ⟨u, (Text.isPrefixOf?_eq_some_iff.mp hu).symm⟩

/-- Beginnings that do not fit are not taken off. -/
theorem findSome?_misfits (h : ∀ b ∈ beginnings, b ≠ [] → ¬ b <+: f) :
    (beginnings.filter (· ≠ [])).findSome? (·.isPrefixOf? f) = none := by
  rw [List.findSome?_eq_none_iff]
  intro b hb
  obtain ⟨hmem, hne⟩ := List.mem_filter.mp hb
  exact Text.isPrefixOf?_eq_none_iff.mpr (h b hmem (by simpa using hne))

theorem targetPath_misfits (hf : Path.Plain f) (h : ∀ b ∈ beginnings, b ≠ [] → ¬ b <+: f) :
    targetPath beginnings f = f := by
  rw [targetPath, findSome?_misfits h]
  exact hf.dropWhile_slash

/-- Of the beginnings that fit, the first one is taken off. -/
theorem targetPath_fits (hbefore : ∀ a ∈ before, a ≠ [] → ¬ a <+: b ++ rest) (hb : b ≠ []) :
    targetPath (before ++ b :: after) (b ++ rest) = rest.dropWhile (· = '/') := by
  rw [targetPath, List.filter_append, List.filter_cons_of_pos (by simpa using hb), List.findSome?_append,
    findSome?_misfits hbefore, List.findSome?_cons, Text.isPrefixOf?_append]
  rfl

theorem length_targetPath_fits (hbefore : ∀ a ∈ before, a ≠ [] → ¬ a <+: b ++ rest) (hb : b ≠ [])
    (after : List Text) : (targetPath (before ++ b :: after) (b ++ rest)).length < (b ++ rest).length := by
  have hlen := List.length_pos_iff.mpr hb
  have hdrop := List.length_dropWhile_le (· = '/') rest
  rw [targetPath_fits hbefore hb, List.length_append]
  omega

/-- The first of some beginnings that fits. -/
theorem exists_first_fit (h : ∃ b ∈ beginnings, b ≠ [] ∧ b <+: f) :
    ∃ before b after rest, beginnings = before ++ b :: after ∧ b ≠ [] ∧ f = b ++ rest ∧
      ∀ a ∈ before, a ≠ [] → ¬ a <+: f := by
  obtain ⟨b, hmem, hb, hfits⟩ := h
  have hsome : (beginnings.find? fun b => decide (b ≠ [] ∧ b <+: f)).isSome :=
    List.find?_isSome.mpr ⟨b, hmem, decide_eq_true ⟨hb, hfits⟩⟩
  obtain ⟨first, hfirst⟩ := Option.isSome_iff_exists.mp hsome
  obtain ⟨hprop, before, after, rfl, hbefore⟩ := List.find?_eq_some_iff_append.mp hfirst
  obtain ⟨hne, rest, rfl⟩ := of_decide_eq_true hprop
  refine ⟨before, first, after, rest, rfl, hne, rfl, fun a ha hane hafits => ?_⟩
  have hnot := hbefore a ha
  simp [hane, hafits] at hnot

/-- A path keeps its place just if no beginning fits it. -/
theorem targetPath_eq_self_iff (hf : Path.Plain f) :
    targetPath beginnings f = f ↔ ∀ b ∈ beginnings, b ≠ [] → ¬ b <+: f := by
  refine ⟨fun hsame b hmem hb hfits => ?_, targetPath_misfits hf⟩
  obtain ⟨before, first, after, rest, rfl, hne, rfl, hbefore⟩ := exists_first_fit ⟨b, hmem, hb, hfits⟩
  have hlen := length_targetPath_fits hbefore hne after
  rw [hsame] at hlen
  exact Nat.lt_irrefl _ hlen

/-! ### Reading the patch back -/

namespace Header

/-- A label that leaves the header line of the new side one: it has no line feed, and no tab comes first. -/
structure Labels (label path : Text) : Prop where
  noFeed : '\n' ∉ label
  noTab : (escape (label ++ path)).head? ≠ some '\t'

instance (label path : Text) : Decidable (Labels label path) :=
  decidable_of_iff ('\n' ∉ label ∧ (escape (label ++ path)).head? ≠ some '\t')
    ⟨fun h => ⟨h.1, h.2⟩, fun h => ⟨h.noFeed, h.noTab⟩⟩

theorem not_endsLine_escape (hf : Printable path) (label : Text) :
    ∀ c ∈ (escape (label ++ path)).getLast?, Text.endsLine c = false := by
  intro c hc
  unfold escape at hc
  split at hc
  · rw [List.getLast?_append] at hc
    cases hc
    rfl
  · next hs =>
    obtain ⟨-, hlast, -⟩ := hf.ends.resolve_left fun h => hs (List.mem_append_right _ h)
    rw [List.getLast?_append, Option.or_of_isSome (List.getLast?_isSome.mpr hf.ne_nil)] at hc
    cases he : Text.endsLine c with
    | false => rfl
    | true => rw [← isBlank_of_endsLine he, hlast c hc]

/-- The line of the new side is read as such a line, even if the label is not read back. -/
theorem destination?_label (hf : Printable path) (hl : Labels label path) :
    ∃ d, destination? ("+++ ".toList ++ escape (label ++ path) ++ ['\n']) = some d := by
  have hne : escape (label ++ path) ≠ [] := escape_ne_nil (List.append_ne_nil_of_right_ne_nil _ hf.ne_nil)
  have hlast := not_endsLine_escape hf label
  have hfirst := hl.noTab
  generalize escape (label ++ path) = shown at hne hlast hfirst
  have hbody : Text.body ("+++ ".toList ++ shown ++ ['\n']) = "+++ ".toList ++ shown := by
    refine Text.body_append_feed fun c hc => hlast c ?_
    rwa [List.getLast?_append, Option.or_of_isSome (List.getLast?_isSome.mpr hne)] at hc
  have htake : shown.takeWhile (· ≠ '\t') ≠ [] := by
    cases shown with
    | nil => exact absurd rfl hne
    | cons c shown =>
      have hc : c ≠ '\t' := by simpa using hfirst
      rw [List.takeWhile_cons_of_pos (by simpa using hc)]
      exact List.cons_ne_nil _ _
  refine ⟨shown.takeWhile (· ≠ '\t'), ?_⟩
  rw [destination?, path?, hbody, Text.isPrefixOf?_append]
  exact if_neg htake

end Header

namespace FilePatch

/-- A patch with a label is read back but for the label. -/
theorem parse_print_label (hsource : Header.Printable p.source) (hl : Header.Labels label p.source)
    (hdest : p.destination = label ++ p.source) (hhunks : ∀ h ∈ p.hunks, h.Printable) (origin : Text) :
    ∃ d, parse origin (print [p]) = .ok [{ p with destination := d }] := by
  have hclosed : ∀ l ∈ p.render, Text.Closed l := by
    intro l hmem
    rw [render, List.mem_cons, List.mem_cons] at hmem
    rcases hmem with rfl | rfl | hmem
    · exact Header.closed hsource (by decide)
    · have hfeed : '\n' ∉ label ++ p.source := by simp [hl.noFeed, hsource.noFeed]
      refine ⟨_, ?_, rfl⟩
      rw [hdest]
      simp [Header.not_mem_escape hfeed (by decide) (by decide)]
    · obtain ⟨h, hh, hmem⟩ := List.mem_flatMap.mp hmem
      exact Hunk.closed_render (hhunks h hh) l hmem
  have hlines : Text.lines (print [p]) = p.render := by
    rw [print, List.flatMap_singleton, Text.lines_flatten hclosed]
  obtain ⟨d, hd⟩ := Header.destination?_label hsource hl
  have hpath : Header.path? "--- ".toList _ = _ := Header.path?_escape hsource
  have hend : NoMarker [] := noMarker_render []
  obtain ⟨reached, hreached⟩ :=
    readSections_hunks 2 ⟨p.source, Header.unescape d, []⟩ hhunks hend
  refine ⟨Header.unescape d, ?_⟩
  rw [List.append_nil] at hreached
  rw [parse, hlines, render, hdest, readSections, List.head?_cons, Option.bind_some, Header.source?, hpath, hd]
  simp only [Header.unescape_escape hsource, List.drop_one, List.tail_cons, Nat.zero_add, hreached]
  rw [readSections]
  rfl

end FilePatch

/-! ### One configuration for both directions -/

namespace Tree

open Volume

variable {v : Volume} {c : Config} {baseline modified : Text}

/-- The patch that is written for a file is read back with the path of the file.  With the same configuration it
is taken for that file just if none of the beginnings fits the path; if one does, the first of them is taken off,
and the patch is taken for a file with a shorter path. -/
theorem target_of_diff (hv : Loadable v) (hf : Path.Plain f) (hshown : Header.Printable f)
    (hlabel : Header.Labels c.patchLabel f) (h : diffFile c v baseline modified f = .ok (some p))
    (origin : Text) : ∃ q, FilePatch.parse origin (FilePatch.print [p]) = .ok [q] ∧ q.source = f ∧
      q.hunks = p.hunks ∧
      (targetPath c.beginnings q.source = f ↔ ∀ b ∈ c.beginnings, b ≠ [] → ¬ b <+: f) ∧
      ∀ before b after rest, c.beginnings = before ++ b :: after → b ≠ [] → f = b ++ rest →
        (∀ a ∈ before, a ≠ [] → ¬ a <+: f) → targetPath c.beginnings q.source = rest.dropWhile (· = '/') ∧
          (targetPath c.beginnings q.source).length < f.length := by
  obtain ⟨old, new, hold, hnew, htexts⟩ := ((diffFile_eq_ok hf h).2 p).mp rfl
  have hsource := FilePatch.source_ofTexts htexts
  subst hsource
  obtain ⟨d, hparse⟩ := FilePatch.parse_print_label hshown hlabel (FilePatch.destination_ofTexts htexts)
    (FilePatch.printable_hunks_ofTexts (hv.length hold) (hv.length hnew) htexts) origin
  refine ⟨_, hparse, rfl, rfl, targetPath_eq_self_iff hf, fun before b after rest hb hne hfit hbefore => ?_⟩
  simp only [hb]
  rw [hfit] at hbefore ⊢
  exact ⟨targetPath_fits hbefore hne, length_targetPath_fits hbefore hne after⟩

theorem diffFile_of_readText (hpath : Path.resolve? modified f = some path)
    (hold : v.readText (Path.join baseline f) = .ok old) (hnew : v.readText path = .ok new) :
    diffFile c v baseline modified f = .ok (FilePatch.ofTexts? c.patchLabel f old new) := by
  simp only [diffFile, hpath, hold, hnew]

/-- Two versions of a tree with two files of one name. -/
def sameNames : Volume :=
  { Volume.empty with items :=
    [([['b']], .dir), ([['b'], ['x']], .file [49, 10]), ([['b'], ['a']], .dir), ([['b'], ['a'], ['x']], .file [49, 10]),
     ([['m']], .dir), ([['m'], ['x']], .file [50, 10]), ([['m'], ['a']], .dir), ([['m'], ['a'], ['x']], .file [50, 10])] }

/-- A configuration with a beginning that fits one of them. -/
def withoutA : Config := { beginnings := ["a/".toList] }

theorem diffFile_sameNames (c : Config) (hf : f = ['x'] ∨ f = "a/x".toList) :
    ∃ p, FilePatch.ofTexts? c.patchLabel f "1\n".toList "2\n".toList = some p ∧
      diffFile c sameNames ['b'] ['m'] f = .ok (some p) ∧ ∀ label, p.apply label "1\n".toList = .ok "2\n".toList := by
  obtain ⟨p, hp, happly⟩ := exists_ofTexts c.patchLabel f (by decide : "1\n".toList ≠ "2\n".toList)
  refine ⟨p, hp, ?_, happly⟩
  have htexts : ∃ path, Path.resolve? ['m'] f = some path ∧ sameNames.readText (Path.join ['b'] f) = .ok "1\n".toList ∧
      sameNames.readText path = .ok "2\n".toList := by
    rcases hf with rfl | rfl
    · exact ⟨"m/x".toList, rfl, by decide +kernel, by decide +kernel⟩
    · exact ⟨"m/a/x".toList, rfl, by decide +kernel, by decide +kernel⟩
  obtain ⟨path, hpath, hold, hnew⟩ := htexts
  rw [diffFile_of_readText hpath hold hnew]
  exact congrArg Except.ok hp

/-- The beginning does not fit the path of the first file. -/
theorem target_of_diff_sameNames : Loadable sameNames ∧ Path.Plain ['x'] ∧ Header.Printable ['x'] ∧
    Header.Labels withoutA.patchLabel ['x'] ∧ ∃ p q, diffFile withoutA sameNames ['b'] ['m'] ['x'] = .ok (some p) ∧
      FilePatch.parse [] (FilePatch.print [p]) = .ok [q] ∧ targetPath withoutA.beginnings q.source = ['x'] := by
  have hv : Loadable sameNames := loadable_of_items (by simp [sameNames]; decide)
  obtain ⟨p, -, hdiff, -⟩ := diffFile_sameNames withoutA (.inl rfl)
  obtain ⟨q, hparse, -, -, hiff, -⟩ := target_of_diff hv (by decide) (by decide) (by decide) hdiff []
  exact ⟨hv, by decide, by decide, by decide, p, q, hdiff, hparse, hiff.mpr (by decide)⟩

/-- A label that ends the header and begins another section. -/
def intoSection : Config := { patchLabel := "y\n--- a/x\n+++ ".toList }

/-- Everything in a patch with that label is read as a part of the other section. -/
theorem parse_intoSection (hsource : p.source = ['x']) (hdest : p.destination = intoSection.patchLabel ++ ['x'])
    (hhunks : ∀ h ∈ p.hunks, h.Printable) (origin : Text) : FilePatch.parse origin (FilePatch.print [p]) =
      .ok [⟨['x'], "\"y".toList, []⟩, ⟨"a/x".toList, "x\"".toList, p.hunks⟩] := by
  have hshown : "+++ ".toList ++ Header.escape (intoSection.patchLabel ++ ['x']) ++ ['\n'] =
      "+++ \"y\n".toList ++ ("--- a/x\n".toList ++ "+++ x\"\n".toList) := by decide
  have hlines : Text.lines (FilePatch.print [p]) = "--- x\n".toList :: "+++ \"y\n".toList ::
      "--- a/x\n".toList :: "+++ x\"\n".toList :: p.hunks.flatMap Hunk.render := by
    have hclosed (t : Text) (ht : '\n' ∉ t) : Text.Closed (t ++ ['\n']) := ⟨t, ht, rfl⟩
    refine .trans (congrArg Text.lines ?_) (Text.lines_flatten fun l hl => ?_)
    · rw [FilePatch.print, List.flatMap_singleton, FilePatch.render, hsource, hdest, hshown]
      simp only [List.flatten_cons, List.append_assoc]
      rfl
    · simp only [List.mem_cons] at hl
      rcases hl with rfl | rfl | rfl | rfl | hl
      · exact hclosed "--- x".toList (by decide)
      · exact hclosed "+++ \"y".toList (by decide)
      · exact hclosed "--- a/x".toList (by decide)
      · exact hclosed "+++ x\"".toList (by decide)
      · obtain ⟨h, hh, hl⟩ := List.mem_flatMap.mp hl
        exact Hunk.closed_render (hhunks h hh) l hl
  have hfirst : Header.source? "--- x\n".toList = some ['x'] ∧
      Header.destination? "+++ \"y\n".toList = some "\"y".toList := by decide
  have hsecond : Header.source? "--- a/x\n".toList = some "a/x".toList ∧
      Header.destination? "+++ x\"\n".toList = some "x\"".toList := by decide
  have hranges : Hunk.ranges? "--- a/x\n".toList = none := by decide
  have hend : NoMarker [] := FilePatch.noMarker_render []
  obtain ⟨reached, hreached⟩ := FilePatch.readSections_hunks 4 ⟨"a/x".toList, "x\"".toList, []⟩ hhunks hend
  rw [List.append_nil] at hreached
  rw [FilePatch.parse, hlines, FilePatch.readSections, List.head?_cons, Option.bind_some, hfirst.1, hfirst.2]
  dsimp only
  rw [List.drop_one, List.tail_cons, FilePatch.readSections, hranges, hsecond.1]
  dsimp only
  rw [FilePatch.readSections, List.head?_cons, Option.bind_some, hsecond.1, hsecond.2]
  dsimp only
  rw [List.drop_one, List.tail_cons]
  have hlast : FilePatch.readSections 4 (some ⟨Header.unescape "a/x".toList, Header.unescape "x\"".toList, []⟩)
      (p.hunks.flatMap Hunk.render) = .ok [⟨"a/x".toList, "x\"".toList, p.hunks⟩] := by
    refine hreached.trans ?_
    rw [FilePatch.readSections, List.nil_append]
  rw [hlast]
  rfl

/-- It fits the path of the second file, and the patch for that one is taken for the first.  With a label that begins
another section, the patch for the first file is taken for the second. -/
theorem target_of_diff_other : withoutA.validate = .ok () ∧ intoSection.validate = .ok () ∧
    sameNames.file? [['b'], ['a'], ['x']] = some [49, 10] ∧ sameNames.file? [['b'], ['x']] = some [49, 10] ∧
    (∃ p, diffFile withoutA sameNames ['b'] ['m'] "a/x".toList = .ok (some p) ∧
      FilePatch.parse [] (FilePatch.print [p]) = .ok [p] ∧ targetPath withoutA.beginnings p.source = ['x']) ∧
    ∃ p first second, diffFile intoSection sameNames ['b'] ['m'] ['x'] = .ok (some p) ∧
      FilePatch.parse [] (FilePatch.print [p]) = .ok [first, second] ∧ first.hunks = [] ∧
      targetPath intoSection.beginnings second.source = "a/x".toList ∧ second.hunks = p.hunks ∧
      second.apply "a/x".toList "1\n".toList = .ok "2\n".toList := by
  refine ⟨rfl, rfl, rfl, rfl, ?_, ?_⟩
  · obtain ⟨p, htexts, hdiff, -⟩ := diffFile_sameNames withoutA (.inr rfl)
    have hprint : p.Printable := FilePatch.printable_ofTexts (by decide) (by decide) (by decide) (by decide) htexts
    refine ⟨p, hdiff, FilePatch.parse_print_singleton hprint [], ?_⟩
    rw [FilePatch.source_ofTexts htexts]
    rfl
  · obtain ⟨p, htexts, hdiff, happly⟩ := diffFile_sameNames intoSection (.inl rfl)
    have hparse := parse_intoSection (FilePatch.source_ofTexts htexts)
      (FilePatch.destination_ofTexts htexts) (FilePatch.printable_hunks_ofTexts (by decide) (by decide) htexts) []
    exact ⟨p, _, _, hdiff, hparse, rfl, rfl, rfl, happly _⟩

end Tree

end Patchwork
