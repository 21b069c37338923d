import Patchwork.Proofs.Patch.Parsed

/-!
# Paths that survive a header

A path that is written into a header is read back just if it has neither tab nor line feed and, unless a space
has it quoted, no white space and no pair of quotes at its ends.  What is read is never longer than what stands
in the line, so a path that loses anything there is not read back.
-/
namespace Patchwork

namespace Header

variable {path shown origin : Text}

theorem length_replacePair_le (a b c : Char) (t : Text) : (replacePair a b c t).length ≤ t.length := by
  fun_induction replacePair a b c t with
  | case1 x y t _ ih => simp only [List.length_cons]; omega
  | case2 x y t _ ih => simp only [List.length_cons] at ih ⊢; omega
  | case3 t => exact Nat.le_refl _

theorem length_unescapeQuoted_le (t : Text) : (unescapeQuoted t).length ≤ t.length :=
  (length_replacePair_le ..).trans (length_replacePair_le ..)

/-- What is read is trimmed, and shorter if it was quoted. -/
theorem unescape_cases (t : Text) :
    (unescape t).length + 2 ≤ (Text.trim t).length ∨
      unescape t = Text.trim t ∧ ¬ ((Text.trim t).head? = some '"' ∧ (Text.trim t).getLast? = some '"' ∧
        2 ≤ (Text.trim t).length) := by
  rw [unescape]
  split
  · next hquoted =>
    left
    have hle := length_unescapeQuoted_le ((Text.trim t).drop 1).dropLast
    rw [List.length_dropLast, List.length_drop] at hle
    omega
  · next hquoted => exact .inr ⟨rfl, hquoted⟩

theorem length_trim_le (t : Text) : (Text.trim t).length ≤ t.length :=
  (Text.dropEnd_prefix_self ..).length_le.trans (List.length_dropWhile_le ..)

/-- A path without a space that is read from a part of itself is read from all of it, and loses nothing. -/
theorem whole_of_unescape (hpart : shown.Sublist path) (hne : shown ≠ []) (h : unescape shown = path) :
    Whole path := by
  have hlen := hpart.length_le
  have htrim := length_trim_le shown
  rcases unescape_cases shown with hshort | ⟨hsame, hquoted⟩
  · rw [h] at hshort
    omega
  · rw [h] at hsame
    obtain rfl : shown = path := by
      refine hpart.eq_of_length_le ?_
      rwa [hsame]
    rw [← hsame] at hquoted
    exact ⟨hne, .inr ⟨hsame.symm, hquoted⟩⟩

/-- The header of a section without hunks, with `path` on the old side. -/
def lone (path : Text) : Text := "--- ".toList ++ escape path ++ "\n+++ x\n".toList

theorem lines_lone (hfeed : '\n' ∉ path) :
    Text.lines (lone path) = ["--- ".toList ++ escape path ++ ['\n'], "+++ x\n".toList] := by
  have hmark : '\n' ∉ "--- ".toList ++ escape path := by
    rw [List.mem_append, not_or]
    exact ⟨by decide, not_mem_escape hfeed (by decide) (by decide)⟩
  exact Text.lines_append_feed hmark "+++ x\n".toList

/-- Two lines give the section that they open, or none if the first one is no header. -/
theorem parse_lone (hfeed : '\n' ∉ path) (origin : Text) : FilePatch.parse origin (lone path) =
    .ok ((source? ("--- ".toList ++ escape path ++ ['\n'])).map fun shown =>
      ⟨unescape shown, ['x'], []⟩).toList := by
  have hdest : destination? "+++ x\n".toList = some ['x'] := rfl
  have hnone : source? "+++ x\n".toList = none := rfl
  rw [FilePatch.parse, lines_lone hfeed, FilePatch.readSections, List.head?_cons, Option.bind_some, hdest]
  cases source? ("--- ".toList ++ escape path ++ ['\n']) with
  | some shown =>
    dsimp only [Option.map_some, Option.toList]
    rw [List.drop_one, List.tail_cons, FilePatch.readSections]
    rfl
  | none =>
    dsimp only [Option.map_none, Option.toList]
    rw [FilePatch.readSections, hnone]
    dsimp only
    rw [FilePatch.readSections]

/-- What a header line shows of a path that is not quoted. -/
theorem source?_bare (hs : ' ' ∉ path) (h : source? ("--- ".toList ++ escape path ++ ['\n']) = some shown) :
    shown.Sublist path ∧ shown ≠ [] := by
  have hmark : ∀ c ∈ "--- ".toList.getLast?, Text.endsLine c = false := by
    rintro c ⟨⟩
    rfl
  have hbody : Text.body ("--- ".toList ++ path ++ ['\n']) =
      "--- ".toList ++ Text.dropEnd Text.endsLine path := by
    rw [List.append_assoc, Text.body_append hmark, Text.body_feed]
  rw [escape, if_neg hs, source?, path?, hbody, Text.isPrefixOf?_append] at h
  dsimp only at h
  split at h
  · cases h
  · next hne =>
    obtain rfl := Option.some.inj h
    exact ⟨(List.takeWhile_sublist _).trans (Text.dropEnd_prefix_self ..).sublist, hne⟩

theorem parse_lone_of_printable (h : Printable path) (origin : Text) :
    FilePatch.parse origin (lone path) = .ok [⟨path, ['x'], []⟩] := by
  have hsource : source? ("--- ".toList ++ escape path ++ ['\n']) = some (escape path) := path?_escape h
  rw [parse_lone h.noFeed, hsource, Option.map_some, unescape_escape h]
  rfl

theorem printable_of_parse_lone {q : FilePatch} (h : FilePatch.parse origin (lone path) = .ok [q])
    (hq : q.source = path) : Printable path := by
  have hclean : Clean path := hq ▸ (FilePatch.wellRead_of_parse h q List.mem_cons_self).source
  refine Whole.printable ?_ hclean
  by_cases hs : ' ' ∈ path
  · exact ⟨List.ne_nil_of_mem hs, .inl hs⟩
  · rw [parse_lone hclean.2] at h
    cases hsource : source? ("--- ".toList ++ escape path ++ ['\n']) with
    | none =>
      rw [hsource] at h
      cases h
    | some shown =>
      rw [hsource] at h
      cases h
      obtain ⟨hpart, hne⟩ := source?_bare hs hsource
      exact whole_of_unescape hpart hne hq

/-- A header line gives its path back just if the path is one that header lines can hold; and a path with a
space is given back by its quotes, whatever else it has. -/
theorem survives_iff (path origin : Text) :
    ((∃ q, FilePatch.parse origin (lone path) = .ok [q] ∧ q.source = path) ↔ Printable path) ∧
      (' ' ∈ path → unescape (escape path) = path) := by
  refine ⟨⟨?_, fun h => ⟨_, parse_lone_of_printable h origin, rfl⟩⟩, unescape_escape_of_space⟩
  rintro ⟨q, hparse, hq⟩
  exact printable_of_parse_lone hparse hq

/-- Backslashes in front of quotes, and quotes at both ends. -/
def runs : Text := "\"\\\\\" \\\"\"\\\"".toList

theorem survives_iff_runs : ' ' ∈ runs ∧ unescape (escape runs) = runs ∧
    ∃ q, FilePatch.parse [] (lone runs) = .ok [q] ∧ q.source = runs :=
  ⟨by decide, (survives_iff runs []).2 (by decide), (survives_iff runs []).1.mpr (by decide)⟩

end Header

end Patchwork
