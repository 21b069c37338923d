import Patchwork.Proofs.Patch.Applying
import Patchwork.Proofs.Patch.Parsed

/-!
# Lines that run into each other

A patch puts together lines of the file and lines of its own, and nothing is put between them.  They are the
lines of the result as long as a line without a line feed is not followed by another one; otherwise the result
has fewer lines than the counts of the hunks call for.
-/
namespace Patchwork

open Text (Line)

namespace Text

/-- Lines that stay apart when they are put together: each one but the last ends with a line feed, and none is
empty. -/
def Apart (ls : List Line) : Prop := (∀ l ∈ ls.dropLast, terminated l = true) ∧ [] ∉ ls

instance (ls : List Line) : Decidable (Apart ls) := inferInstanceAs (Decidable (_ ∧ _))

variable {l : Line} {ls : List Line} {t : Text}

theorem lines_eq_nil_iff : lines t = [] ↔ t = [] := by
  refine ⟨fun h => ?_, fun h => by rw [h, lines_nil]⟩
  rw [← flatten_lines t, h, List.flatten_nil]

theorem lines_append_of_terminated (hl : '\n' ∉ l.dropLast) (hend : terminated l = true) (t : Text) :
    lines (l ++ t) = l :: lines t := by
  have hfeed := lines_append_feed (not_mem_unterminated hl) t
  rwa [← List.singleton_append, ← List.append_assoc, append_feed_of_terminated hend] at hfeed

theorem not_mem_of_not_terminated (hl : '\n' ∉ l.dropLast) (hend : terminated l = false) : '\n' ∉ l := by
  rw [← unterminated_of_not hend]
  exact not_mem_unterminated hl

/-- A text without a line feed runs into the first line of what follows. -/
theorem length_lines_append (hl : '\n' ∉ l) (ht : t ≠ []) : (lines (l ++ t)).length = (lines t).length := by
  induction l with
  | nil => rfl
  | cons c l ih =>
    simp only [List.mem_cons, not_or] at hl
    rw [List.cons_append, lines_cons, if_neg (Ne.symm hl.1), ← ih hl.2]
    cases hlines : lines (l ++ t) with
    | nil => exact absurd (List.append_eq_nil_iff.mp (lines_eq_nil_iff.mp hlines)).2 ht
    | cons m ms => rfl

theorem length_lines_of_not_mem (hl : '\n' ∉ l) (hne : l ≠ []) : (lines l).length = 1 := by
  induction l with
  | nil => exact absurd rfl hne
  | cons c l ih =>
    simp only [List.mem_cons, not_or] at hl
    rw [lines_cons, if_neg (Ne.symm hl.1)]
    cases hlines : lines l with
    | nil => rfl
    | cons m ms =>
      have hrest := ih hl.2 fun hnil => by simp [hnil] at hlines
      rwa [hlines] at hrest

theorem apart_cons_of_terminated (hend : terminated l = true) : Apart (l :: ls) ↔ Apart ls := by
  have hne : [] ≠ l := by
    rintro rfl
    cases hend
  cases ls with
  | nil => simp [Apart, hne]
  | cons m ls => simp [Apart, hend, hne]

theorem apart_cons_of_not_terminated (hend : terminated l = false) : Apart (l :: ls) ↔ l ≠ [] ∧ ls = [] := by
  cases ls with
  | nil => simp [Apart, @eq_comm _ [] l]
  | cons m ls => simp [Apart, hend]

/-- By induction on the lines.  One without a line feed takes in the first of those behind it, if there are
any. -/
theorem length_lines_flatten (hls : ∀ l ∈ ls, '\n' ∉ l.dropLast) : (lines ls.flatten).length ≤ ls.length ∧
    ((lines ls.flatten).length = ls.length ↔ Apart ls) := by
  induction ls with
  | nil => simp [Apart]
  | cons l ls ih =>
    obtain ⟨hl, hls⟩ := List.forall_mem_cons.mp hls
    obtain ⟨hle, hiff⟩ := ih hls
    rw [List.flatten_cons, List.length_cons]
    cases hend : terminated l with
    | true =>
      rw [lines_append_of_terminated hl hend, List.length_cons, apart_cons_of_terminated hend, ← hiff]
      omega
    | false =>
      have hfeed := not_mem_of_not_terminated hl hend
      rw [apart_cons_of_not_terminated hend]
      by_cases hrest : ls.flatten = []
      · rw [hrest, List.append_nil]
        by_cases hne : l = []
        · simp [hne]
        · rw [length_lines_of_not_mem hfeed hne, ← List.length_eq_zero_iff (l := ls)]
          simp only [hne, ne_eq, not_false_eq_true, true_and]
          omega
      · have hls : ls ≠ [] := fun hnil => hrest (by rw [hnil, List.flatten_nil])
        rw [length_lines_append hfeed hrest]
        exact ⟨by omega, ⟨fun h => by omega, fun h => absurd h.2 hls⟩⟩

theorem lines_flatten_of_apart (hls : ∀ l ∈ ls, '\n' ∉ l.dropLast) (hapart : Apart ls) :
    lines ls.flatten = ls := by
  induction ls with
  | nil => rfl
  | cons l ls ih =>
    obtain ⟨hl, hls⟩ := List.forall_mem_cons.mp hls
    cases hend : terminated l with
    | true =>
      rw [List.flatten_cons, lines_append_of_terminated hl hend,
        ih hls ((apart_cons_of_terminated hend).mp hapart)]
    | false =>
      obtain ⟨hne, rfl⟩ := (apart_cons_of_not_terminated hend).mp hapart
      have hone := length_lines_of_not_mem (not_mem_of_not_terminated hl hend) hne
      obtain ⟨m, hm⟩ := List.length_eq_one_iff.mp hone
      have hflat := flatten_lines l
      rw [hm, List.flatten_singleton] at hflat
      rw [List.flatten_singleton, hm, hflat]

theorem lines_flatten_iff (hls : ∀ l ∈ ls, '\n' ∉ l.dropLast) : lines ls.flatten = ls ↔ Apart ls :=
  ⟨fun h => (length_lines_flatten hls).2.mp (congrArg List.length h), lines_flatten_of_apart hls⟩

theorem apart_lines (t : Text) : Apart (lines t) :=
  (lines_flatten_iff fun _ hl => (isLine_of_mem_lines hl).2).mp (by rw [flatten_lines])

/-- Only the last line of a text may lack its line feed. -/
theorem getLast?_of_not_terminated (hl : l ∈ lines t) (hend : terminated l = false) :
    (lines t).getLast? = some l := by
  obtain ⟨front, last, hsplit⟩ := List.eq_nil_or_concat' (lines t) |>.resolve_left (List.ne_nil_of_mem hl)
  have hapart := (apart_lines t).1
  rw [hsplit] at hl hapart ⊢
  rw [List.dropLast_concat] at hapart
  rcases List.mem_append.mp hl with hfront | hlast
  · rw [hapart l hfront] at hend
    cases hend
  · rw [List.getLast?_concat, List.mem_singleton.mp hlast]

end Text

namespace Hunk

variable {ls : List Line} {cursor : Nat} {hs : List Hunk} {l : Line} {h : Hunk}

/-- The hunks leave as many lines more than they found as they add more than they show. -/
theorem length_spliced (hcursor : cursor ≤ ls.length) (hfits : ∀ q ∈ chained cursor hs, Applies ls q.1 q.2) :
    cursor + (spliced ls cursor hs).length + (hs.map (·.sourceLines.length)).sum =
      ls.length + (hs.map (·.destLines.length)).sum := by
  induction hs generalizing cursor with
  | nil =>
    simp
    omega
  | cons h hs ih =>
    obtain ⟨hfit, hrest⟩ := List.forall_mem_cons.mp hfits
    obtain ⟨hle, hlen⟩ : cursor ≤ h.sourceIndex ∧ h.sourceIndex ≤ ls.length := hfit.start
    have hih := ih (sourceEnd_le hlen hfit.stands) hrest
    have hend : h.sourceEnd = h.sourceIndex + h.sourceLines.length := rfl
    simp only [spliced_cons, List.length_append, List.length_drop, List.length_take, List.map_cons, List.sum_cons]
    omega

/-- Each line that is left is a line of the file, or one that is inserted. -/
theorem mem_spliced (hfits : ∀ q ∈ chained cursor hs, Applies ls q.1 q.2) (hl : l ∈ spliced ls cursor hs) :
    l ∈ ls ∨ ∃ h ∈ hs, ⟨.insert, l⟩ ∈ h.lines := by
  induction hs generalizing cursor with
  | nil => exact .inl (List.mem_of_mem_drop hl)
  | cons h hs ih =>
    obtain ⟨hfit, hrest⟩ := List.forall_mem_cons.mp hfits
    rw [spliced_cons, List.append_assoc, List.mem_append, List.mem_append] at hl
    rcases hl with hl | hl | hl
    · exact .inl (List.mem_of_mem_take (List.mem_of_mem_drop hl))
    · obtain ⟨⟨kind, text⟩, hline, rfl⟩ := List.mem_map.mp hl
      obtain ⟨hin, hdest⟩ := List.mem_filter.mp hline
      cases kind with
      | insert => exact .inr ⟨h, List.mem_cons_self, hin⟩
      | delete => cases hdest
      | context =>
        have hshown : text ∈ h.sourceLines := List.mem_map.mpr ⟨_, List.mem_filter.mpr ⟨hin, rfl⟩, rfl⟩
        exact .inl (List.mem_of_mem_drop (hfit.stands.subset hshown))
    · exact (ih hrest hl).imp_right fun ⟨g, hg, hin⟩ => ⟨g, List.mem_cons_of_mem h hg, hin⟩

end Hunk

namespace FilePatch

/-- The result has as many lines as the counts of the hunks call for. -/
def Tallies (p : FilePatch) (text out : Text) : Prop :=
  (Text.lines out).length + (p.hunks.map (·.sourceCount)).sum =
    (Text.lines text).length + (p.hunks.map (·.destCount)).sum

instance (p : FilePatch) (text out : Text) : Decidable (p.Tallies text out) := inferInstanceAs (Decidable (_ = _))

/-- The lines that a patch puts together are the lines of the result, as many as the counts of its hunks call
for, just if they stay apart; and none of them lacks a line feed but the last line of the file and lines that are
inserted. -/
theorem apply_joins {origin input label text out : Text} {ps : List FilePatch} {p : FilePatch}
    (hparse : parse origin input = .ok ps) (hp : p ∈ ps) (happly : p.apply label text = .ok out) :
    ∃ pieces, pieces = Hunk.spliced (Text.lines text) 0 p.hunks ∧ out = pieces.flatten ∧
      (Text.lines out = pieces ↔ Text.Apart pieces) ∧
      (p.Tallies text out ↔ Text.Apart pieces) ∧
      (Text.lines out).length + (p.hunks.map (·.sourceCount)).sum ≤
        (Text.lines text).length + (p.hunks.map (·.destCount)).sum ∧
      ∀ l ∈ pieces, Text.terminated l = false →
        (Text.lines text).getLast? = some l ∨ ∃ h ∈ p.hunks, ⟨.insert, l⟩ ∈ h.lines := by
  obtain ⟨hfits, rfl⟩ := apply_eq_ok_iff.mp happly
  have hprintable := (wellRead_of_parse hparse p hp).hunks
  have hcount := Hunk.length_spliced (Nat.zero_le _) hfits
  have hsource : (p.hunks.map (·.sourceLines.length)).sum = (p.hunks.map (·.sourceCount)).sum :=
    congrArg List.sum (List.map_congr_left fun h hh => (Prod.mk.inj (hprintable h hh).counted).1.symm)
  have hdest : (p.hunks.map (·.destLines.length)).sum = (p.hunks.map (·.destCount)).sum :=
    congrArg List.sum (List.map_congr_left fun h hh => (Prod.mk.inj (hprintable h hh).counted).2.symm)
  have hpieces : ∀ l ∈ Hunk.spliced (Text.lines text) 0 p.hunks, '\n' ∉ l.dropLast := by
    intro l hl
    rcases Hunk.mem_spliced hfits hl with hl | ⟨h, hh, hl⟩
    · exact (Text.isLine_of_mem_lines hl).2
    · exact (hprintable h hh).lines _ hl
  obtain ⟨hle, hiff⟩ := Text.length_lines_flatten hpieces
  rw [hsource, hdest, Nat.zero_add] at hcount
  refine ⟨_, rfl, rfl, Text.lines_flatten_iff hpieces, ?_, ?_, fun l hl hend => ?_⟩
  · rw [Tallies, ← hiff, ← hcount, Nat.add_right_cancel_iff]
  · rw [← hcount]
    exact Nat.add_le_add_right hle _
  · exact (Hunk.mem_spliced hfits hl).imp_left fun hl => Text.getLast?_of_not_terminated hl hend

/-- A line without a line feed is added behind the last one of the file. -/
def lastLine : Text := "--- f\n+++ f\n@@ -1 +1,2 @@\n a\n+b\n\\ No newline at end of file\n".toList

def lastLinePatch : FilePatch :=
  ⟨['f'], ['f'], [⟨1, 1, 1, 2, [⟨.context, "a\n".toList⟩, ⟨.insert, ['b']⟩]⟩]⟩

set_option maxRecDepth 10000 in
theorem apply_joins_lastLine : parse [] lastLine = .ok [lastLinePatch] ∧
    lastLinePatch.apply ['f'] "a\n".toList = .ok "a\nb".toList ∧
    Text.lines "a\nb".toList = ["a\n".toList, ['b']] := by
  have hparse : parse [] lastLine = .ok [lastLinePatch] := by cbv
  have happly : lastLinePatch.apply ['f'] "a\n".toList = .ok "a\nb".toList := by decide
  obtain ⟨pieces, hpieces, -, hlines, -⟩ := apply_joins hparse List.mem_cons_self happly
  have hspliced : pieces = ["a\n".toList, ['b']] := by
    rw [hpieces]
    decide
  rw [hspliced] at hlines
  exact ⟨hparse, happly, hlines.mpr (by decide)⟩

set_option maxRecDepth 10000 in
/-- A line without a line feed is put in front of another one, a line is put behind the last line of a file that
lacks its line feed, and an empty line is added. -/
theorem apply_loses_lines :
    (∃ p, parse [] "--- f\n+++ f\n@@ -1 +1,2 @@\n+x\n\\ No newline at end of file\n a\n".toList = .ok [p] ∧
      p.apply ['f'] "a\n".toList = .ok "xa\n".toList ∧ ¬ p.Tallies "a\n".toList "xa\n".toList) ∧
    (∃ p, parse [] "--- f\n+++ f\n@@ -1,0 +2 @@\n+b\n".toList = .ok [p] ∧
      p.apply ['f'] ['a'] = .ok "ab\n".toList ∧ ¬ p.Tallies ['a'] "ab\n".toList) ∧
    ∃ p, parse [] "--- f\n+++ f\n@@ -1,0 +2 @@\n+".toList = .ok [p] ∧
      p.apply ['f'] "a\n".toList = .ok "a\n".toList ∧ ¬ p.Tallies "a\n".toList "a\n".toList := by
  refine ⟨⟨⟨['f'], ['f'], [⟨1, 1, 1, 2, [⟨.insert, ['x']⟩, ⟨.context, "a\n".toList⟩]⟩]⟩, ?_⟩,
    ⟨⟨['f'], ['f'], [⟨1, 0, 2, 1, [⟨.insert, "b\n".toList⟩]⟩]⟩, ?_⟩,
    ⟨['f'], ['f'], [⟨1, 0, 2, 1, [⟨.insert, []⟩]⟩]⟩, ?_⟩
  · exact ⟨by cbv, by decide, by decide⟩
  · exact ⟨by cbv, by decide, by decide⟩
  · exact ⟨by cbv, by decide, by decide⟩

end FilePatch

end Patchwork
