import Patchwork.Proofs.Patch.Header

/-!
# The lines of a printed patch

A printed text is cut into the lines that were printed: what a patch prints has a line feed at the end
of each line, and nowhere else.
-/
namespace Patchwork

open Text (Line)

/-- A line of a hunk has no line feed before its last character. -/
def HunkLine.Printable (l : HunkLine) : Prop := '\n' ∉ l.text.dropLast

instance (l : HunkLine) : Decidable l.Printable :=
  inferInstanceAs (Decidable ('\n' ∉ l.text.dropLast))

/-- The numbers of a hunk are machine words, and its counts are those of its lines. -/
structure Hunk.Printable (h : Hunk) : Prop where
  sourceStart : h.sourceStart < UInt64.size
  sourceCount : h.sourceCount < UInt64.size
  destStart : h.destStart < UInt64.size
  destCount : h.destCount < UInt64.size
  counted : (h.sourceCount, h.destCount) = h.counted
  lines : ∀ l ∈ h.lines, l.Printable

instance (h : Hunk) : Decidable h.Printable :=
  decidable_of_iff ((h.sourceStart < UInt64.size ∧ h.sourceCount < UInt64.size ∧ h.destStart < UInt64.size ∧
      h.destCount < UInt64.size) ∧ (h.sourceCount, h.destCount) = h.counted ∧ ∀ l ∈ h.lines, l.Printable)
    ⟨fun hp => ⟨hp.1.1, hp.1.2.1, hp.1.2.2.1, hp.1.2.2.2, hp.2.1, hp.2.2⟩, fun hp =>
      ⟨⟨hp.sourceStart, hp.sourceCount, hp.destStart, hp.destCount⟩, hp.counted, hp.lines⟩⟩

structure FilePatch.Printable (p : FilePatch) : Prop where
  source : Header.Printable p.source
  destination : Header.Printable p.destination
  hunks : ∀ h ∈ p.hunks, h.Printable

instance (p : FilePatch) : Decidable p.Printable :=
  decidable_of_iff (Header.Printable p.source ∧ Header.Printable p.destination ∧
      ∀ h ∈ p.hunks, h.Printable)
    ⟨fun hp => ⟨hp.1, hp.2.1, hp.2.2⟩, fun hp => ⟨hp.source, hp.destination, hp.hunks⟩⟩

namespace Text

theorem lines_append_feed {t : Text} (h : '\n' ∉ t) (u : Text) :
    lines (t ++ '\n' :: u) = (t ++ ['\n']) :: lines u := by
  induction t with
  | nil => rfl
  | cons c t ih =>
    simp only [List.mem_cons, not_or] at h
    rw [List.cons_append, lines_cons, if_neg (Ne.symm h.1), ih h.2]
    rfl

/-- A line that ends with a line feed and has no other. -/
def Closed (l : Line) : Prop := ∃ t, '\n' ∉ t ∧ l = t ++ ['\n']

theorem lines_flatten {ls : List Line} (h : ∀ l ∈ ls, Closed l) : lines ls.flatten = ls := by
  induction ls with
  | nil => rfl
  | cons l ls ih =>
    obtain ⟨t, ht, rfl⟩ := h l List.mem_cons_self
    rw [List.flatten_cons, List.append_assoc, List.singleton_append, lines_append_feed ht,
      ih fun m hm => h m (List.mem_cons_of_mem _ hm)]

theorem unterminated_append_feed (t : Text) : unterminated (t ++ ['\n']) = t := by
  simp [unterminated, terminated]

theorem unterminated_of_not {t : Text} (h : terminated t = false) : unterminated t = t := by
  rw [unterminated, h]
  rfl

theorem append_feed_of_terminated {t : Text} (h : terminated t = true) :
    unterminated t ++ ['\n'] = t := by
  rcases List.eq_nil_or_concat t with rfl | ⟨s, c, rfl⟩
  · simp [terminated] at h
  · obtain rfl : c = '\n' := by simpa [terminated] using h
    rw [List.concat_eq_append, unterminated_append_feed]

theorem not_mem_unterminated {t : Text} (h : '\n' ∉ t.dropLast) : '\n' ∉ unterminated t := by
  rcases List.eq_nil_or_concat t with rfl | ⟨s, c, rfl⟩
  · simp [unterminated, terminated]
  · rw [List.concat_eq_append, List.dropLast_concat] at h
    by_cases hc : c = '\n'
    · rwa [List.concat_eq_append, hc, unterminated_append_feed]
    · rw [List.concat_eq_append, unterminated_of_not (by simp [terminated, hc])]
      simp [h, Ne.symm hc]

end Text

theorem HunkLine.closed_render {l : HunkLine} (h : l.Printable) :
    ∀ m ∈ l.render, Text.Closed m := by
  intro m hm
  rw [HunkLine.render, List.mem_cons] at hm
  rcases hm with rfl | hm
  · refine ⟨l.kind.mark :: Text.unterminated l.text, ?_, rfl⟩
    have hmark : '\n' ≠ l.kind.mark := by cases l.kind <;> decide
    simp [hmark, Text.not_mem_unterminated h]
  · split at hm
    · simp at hm
    · rw [List.mem_singleton.mp hm]
      exact ⟨noNewline, by decide, rfl⟩

theorem Text.Decimal.not_mem_digits {c : Char} (h : c.isDigit = false) (n : Nat) :
    c ∉ Text.Decimal.digits n := by
  intro hc
  have hall := List.all_eq_true.mp (Text.Decimal.all_isDigit_digits n) c hc
  rw [h] at hall
  cases hall

/-- A hunk header without its line feed. -/
def Hunk.headerText (h : Hunk) : Text :=
  "@@ -".toList ++ Text.Decimal.digits h.sourceStart ++ [','] ++ Text.Decimal.digits h.sourceCount ++
    " +".toList ++ Text.Decimal.digits h.destStart ++ [','] ++ Text.Decimal.digits h.destCount ++
    " @@".toList

theorem Hunk.headerLine_eq (h : Hunk) : h.headerLine = h.headerText ++ ['\n'] := by
  have hend : " @@\n".toList = " @@".toList ++ ['\n'] := rfl
  unfold Hunk.headerLine Hunk.headerText
  simp only [hend, List.append_assoc]

theorem Hunk.not_mem_headerText (h : Hunk) : '\n' ∉ h.headerText := by
  have hdigits (n : Nat) : '\n' ∉ Text.Decimal.digits n := Text.Decimal.not_mem_digits rfl n
  have hmarks : '\n' ∉ "@@ -".toList ∧ '\n' ∉ " +".toList ∧ '\n' ∉ " @@".toList := by decide
  unfold Hunk.headerText
  simp only [List.mem_append, List.mem_singleton, hdigits, hmarks, or_false, or_self]
  decide

theorem Hunk.closed_headerLine (h : Hunk) : Text.Closed h.headerLine :=
  ⟨h.headerText, h.not_mem_headerText, h.headerLine_eq⟩

theorem Hunk.closed_render {h : Hunk} (hp : h.Printable) : ∀ m ∈ h.render, Text.Closed m := by
  intro m hm
  rw [Hunk.render, List.mem_cons] at hm
  rcases hm with rfl | hm
  · exact h.closed_headerLine
  · obtain ⟨l, hl, hml⟩ := List.mem_flatMap.mp hm
    exact HunkLine.closed_render (hp.lines l hl) m hml

theorem Header.closed {path mark : Text} (h : Header.Printable path) (hmark : '\n' ∉ mark) :
    Text.Closed (mark ++ Header.escape path ++ ['\n']) := by
  refine ⟨_, ?_, rfl⟩
  simp [hmark, Header.not_mem_escape h.noFeed (by decide) (by decide)]

theorem FilePatch.closed_render {p : FilePatch} (hp : p.Printable) :
    ∀ m ∈ p.render, Text.Closed m := by
  intro m hm
  rw [FilePatch.render, List.mem_cons, List.mem_cons] at hm
  rcases hm with rfl | rfl | hm
  · exact Header.closed hp.source (by decide)
  · exact Header.closed hp.destination (by decide)
  · obtain ⟨h, hh, hmh⟩ := List.mem_flatMap.mp hm
    exact Hunk.closed_render (hp.hunks h hh) m hmh

/-- The lines of a printed text are the lines that were printed. -/
theorem FilePatch.lines_print {ps : List FilePatch} (h : ∀ p ∈ ps, p.Printable) :
    Text.lines (FilePatch.print ps) = ps.flatMap FilePatch.render := by
  refine Text.lines_flatten fun l hl => ?_
  obtain ⟨p, hp, hlp⟩ := List.mem_flatMap.mp hl
  exact FilePatch.closed_render (h p hp) l hlp

end Patchwork
