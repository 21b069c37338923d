import Patchwork.Proofs.Patch.Division

/-!
# Patches that were read

Whatever text is read, the counts of each hunk are those of its lines, and no line feed is left but at the
ends of lines.  So patches that were read are read again once they are printed, unless a path has got
white space or quotes at its ends that only a quoted path can hold.
-/
namespace Patchwork

open Text (Line)

namespace Text

variable {l : Line} {t : Text} {c : Char}

theorem mem_of_mem_dropEnd {p : Char → Bool} (h : c ∈ dropEnd p t) : c ∈ t :=
  (dropEnd_prefix_self p t).subset h

theorem mem_of_mem_trim (h : c ∈ trim t) : c ∈ t :=
  (List.dropWhile_sublist isBlank).subset (mem_of_mem_dropEnd h)

/-- A text that is trimmed neither starts nor ends with white space. -/
theorem ends_of_trim (h : trim t = t) :
    (∀ c ∈ t.head?, isBlank c = false) ∧ ∀ c ∈ t.getLast?, isBlank c = false := by
  have hlen : t.length ≤ (t.dropWhile isBlank).length := by
    calc t.length = (trim t).length := by rw [h]
      _ ≤ (t.dropWhile isBlank).length := (dropEnd_prefix_self ..).length_le
  have hfront : t.dropWhile isBlank = t := (List.dropWhile_sublist isBlank).eq_of_length_le hlen
  refine ⟨fun c hc => ?_, fun c hc => ?_⟩
  · rw [← hfront] at hc
    have hnot := List.head?_dropWhile_not isBlank t
    rw [hc] at hnot
    simpa using hnot
  · have hback : t.reverse.dropWhile isBlank = t.reverse := by
      rw [trim, dropBoth, hfront, dropEnd] at h
      rw [← List.reverse_reverse (t.reverse.dropWhile isBlank), h]
    rw [← List.head?_reverse, ← hback] at hc
    have hnot := List.head?_dropWhile_not isBlank t.reverse
    rw [hc] at hnot
    simpa using hnot

theorem not_mem_body (hl : '\n' ∉ l.dropLast) : '\n' ∉ body l := by
  rcases List.eq_nil_or_concat l with rfl | ⟨t, c, rfl⟩
  · simp [body, dropEnd]
  · rw [List.concat_eq_append, List.dropLast_concat] at hl
    rw [List.concat_eq_append]
    intro h
    by_cases hc : c = '\n'
    · rw [hc, body_feed] at h
      exact hl (mem_of_mem_dropEnd h)
    · rcases List.mem_append.mp (mem_of_mem_dropEnd h) with h | h
      · exact hl h
      · exact hc (List.mem_singleton.mp h).symm

theorem Decimal.lt_of_word? {n : Nat} (h : Decimal.word? t = some n) : n < UInt64.size := by
  rw [Decimal.word?, Option.filter_eq_some_iff] at h
  exact of_decide_eq_true h.2

end Text

namespace Header

variable {l : Line} {path mark : Text} {c : Char}

theorem mem_replacePair {a b x : Char} {t : Text} (h : c ∈ replacePair a b x t) : c = x ∨ c ∈ t := by
  fun_induction replacePair a b x t with
  | case1 y z t hpair ih =>
    rcases List.mem_cons.mp h with rfl | h
    · exact .inl rfl
    · exact (ih h).imp_right fun hm => List.mem_cons_of_mem _ (List.mem_cons_of_mem _ hm)
  | case2 y z t hpair ih =>
    rcases List.mem_cons.mp h with rfl | h
    · exact .inr List.mem_cons_self
    · exact (ih h).imp_right (List.mem_cons_of_mem _)
  | case3 t hshort => exact .inr h

/-- Reading brings no characters into a path but quotes and backslashes. -/
theorem mem_of_mem_unescape (h : c ∈ unescape path) (hquote : c ≠ '"') (hslash : c ≠ '\\') :
    c ∈ path := by
  simp only [unescape] at h
  split at h
  · have hinner := (mem_replacePair ((mem_replacePair h).resolve_left hslash)).resolve_left hquote
    exact Text.mem_of_mem_trim (List.mem_of_mem_drop (List.mem_of_mem_dropLast hinner))
  · exact Text.mem_of_mem_trim h

/-- Neither a tab nor a line feed is in the path: each of them would end it. -/
def Clean (path : Text) : Prop := '\t' ∉ path ∧ '\n' ∉ path

theorem clean_unescape (hl : '\n' ∉ l.dropLast) (h : path? mark l = some path) :
    Clean (unescape path) := by
  unfold path? at h
  split at h
  · next rest hrest =>
    have hbody : mark ++ rest = Text.body l := List.isPrefixOf?_eq_some_iff_append_eq.mp hrest
    dsimp only at h
    split at h
    · cases h
    · obtain rfl := Option.some.inj h
      refine ⟨fun htab => ?_, fun hfeed => ?_⟩
      · have htake := mem_of_mem_unescape htab (by decide) (by decide)
        simpa using List.mem_takeWhile_imp htake
      · have htake := mem_of_mem_unescape hfeed (by decide) (by decide)
        refine Text.not_mem_body hl ?_
        rw [← hbody]
        exact List.mem_append_right _ ((List.takeWhile_sublist _).subset htake)
  · cases h

/-- A path that is there, and that reading leaves as it is: it has a space, so that it is printed in quotes, or
it has neither white space nor quotes at its ends. -/
def Whole (path : Text) : Prop :=
  path ≠ [] ∧ (' ' ∈ path ∨ Text.trim path = path ∧
    ¬ (path.head? = some '"' ∧ path.getLast? = some '"' ∧ 2 ≤ path.length))

instance (path : Text) : Decidable (Whole path) := inferInstanceAs (Decidable (_ ∧ _))

theorem Whole.printable (h : Whole path) (hclean : Clean path) : Printable path where
  ne_nil := h.1
  noTab := hclean.1
  noFeed := hclean.2
  ends := h.2.imp_right fun hends =>
    ⟨(Text.ends_of_trim hends.1).1, (Text.ends_of_trim hends.1).2, hends.2⟩

end Header

namespace Hunk

variable {l : Line} {body rest : List Line} {source dest : Nat} {read : List HunkLine} {h : Hunk}

theorem printable_shown {line : HunkLine} (hl : '\n' ∉ l.dropLast) (h : BodyLine.ofLine l = .shown line) :
    line.Printable := by
  unfold BodyLine.ofLine at h
  split at h
  · cases h
    exact hl
  · cases h
    exact hl
  · cases h
  · next c text _ _ _ =>
    split at h
    · cases h
      intro hm
      refine hl ?_
      rw [List.dropLast_cons_of_ne_nil (List.ne_nil_of_mem (List.mem_of_mem_dropLast hm))]
      exact List.mem_cons_of_mem c hm
    · cases h
  · cases h

theorem printable_unterminateLast (hread : ∀ line ∈ read, line.Printable) :
    ∀ line ∈ unterminateLast read, line.Printable := by
  cases read with
  | nil => exact hread
  | cons last read =>
    obtain ⟨hlast, hread⟩ := List.forall_mem_cons.mp hread
    refine List.forall_mem_cons.mpr ⟨fun hm => ?_, hread⟩
    exact Text.not_mem_unterminated hlast (List.mem_of_mem_dropLast hm)

/-- Each line of a body leaves the lines that were read so far without a line feed in front of their ends. -/
theorem printable_addLine (hl : '\n' ∉ l.dropLast) (hread : ∀ line ∈ read, line.Printable) :
    ∀ line ∈ addLine read l, line.Printable := by
  unfold addLine
  split
  · next line hline => exact List.forall_mem_cons.mpr ⟨printable_shown hl hline, hread⟩
  · exact printable_unterminateLast hread
  · exact hread

theorem printable_foldl_addLine (hbody : ∀ l ∈ body, '\n' ∉ l.dropLast)
    (hread : ∀ line ∈ read, line.Printable) : ∀ line ∈ body.foldl addLine read, line.Printable := by
  induction body generalizing read with
  | nil => exact hread
  | cons l body ih =>
    obtain ⟨hl, hbody⟩ := List.forall_mem_cons.mp hbody
    exact ih hbody (printable_addLine hl hread)

/-- The numbers of a hunk header are machine words. -/
theorem ofRanges?_lt {s d : Range} (h' : ofRanges? s d = some h) :
    h.sourceStart < UInt64.size ∧ h.sourceCount < UInt64.size ∧ h.destStart < UInt64.size ∧
      h.destCount < UInt64.size := by
  have hcount {count : Option Text} {n : Nat}
      (hn : count.elim (some 1) Text.Decimal.word? = some n) : n < UInt64.size := by
    cases count with
    | none =>
      obtain rfl := Option.some.inj hn
      decide
    | some t => exact Text.Decimal.lt_of_word? hn
  simp only [ofRanges?, Option.bind_eq_bind, Option.bind_eq_some_iff, Option.some.injEq] at h'
  obtain ⟨a, ha, b, hb, c, hc, d, hd, rfl⟩ := h'
  exact ⟨Text.Decimal.lt_of_word? ha, hcount hc, Text.Decimal.lt_of_word? hb, hcount hd⟩

/-- A hunk that was read has the numbers of its header and the counts of its body. -/
theorem Body.printable {header : Line} {s d : Range} (hb : Body h.sourceCount h.destCount body rest)
    (hranges : ranges? header = some (s, d)) (hh : ofRanges? s d = some h)
    (hbody : ∀ l ∈ body, '\n' ∉ l.dropLast) :
    Printable { h with lines := (body.foldl addLine []).reverse } := by
  obtain ⟨hsource, hsourceCount, hdest, hdestCount⟩ := ofRanges?_lt hh
  refine ⟨hsource, hsourceCount, hdest, hdestCount, (hb.whole hranges hh).counted.symm, ?_⟩
  intro line hline
  have hnil : ∀ line ∈ ([] : List HunkLine), line.Printable := List.forall_mem_nil _
  exact printable_foldl_addLine hbody hnil line (List.mem_reverse.mp hline)

end Hunk

namespace FilePatch

/-- A patch as it is read: all but the ends of its paths is as printing needs it. -/
structure WellRead (p : FilePatch) : Prop where
  source : Header.Clean p.source
  destination : Header.Clean p.destination
  hunks : ∀ h ∈ p.hunks, h.Printable

/-- By induction on the pieces: each of them keeps the section that is open well read. -/
theorem Divides.wellRead {current : Option FilePatch} {es : List Piece} {ps : List FilePatch}
    (hdiv : Divides current es ps) (hlines : ∀ l ∈ allLines es, '\n' ∉ l.dropLast)
    (hcurrent : ∀ p ∈ current, p.WellRead) : ∀ p ∈ ps, p.WellRead := by
  induction hdiv with
  | nil => exact fun p hp => absurd hp List.not_mem_nil
  | passed _ _ ih => exact ih (List.forall_mem_cons.mp hlines).2 fun p hp => by cases hp
  | @opening a b source destination es ps hs hd _ ih =>
    obtain ⟨ha, hb, hrest⟩ : '\n' ∉ a.dropLast ∧ '\n' ∉ b.dropLast ∧
        ∀ l ∈ allLines es, '\n' ∉ l.dropLast := by
      simpa [Piece.lines] using hlines
    refine ih hrest ?_
    rintro p ⟨⟩
    exact ⟨Header.clean_unescape ha hs, Header.clean_unescape hb hd, fun g hg => absurd hg List.not_mem_nil⟩
  | between _ _ _ ih => exact ih (List.forall_mem_cons.mp hlines).2 hcurrent
  | @hunk p header s d h body es ps hr hh hb _ ih =>
    obtain ⟨-, hbody, hrest⟩ : '\n' ∉ header.dropLast ∧ (∀ l ∈ body, '\n' ∉ l.dropLast) ∧
        ∀ l ∈ allLines es, '\n' ∉ l.dropLast := by
      simpa [Piece.lines, or_imp, forall_and] using hlines
    have hp := hcurrent p rfl
    refine ih hrest ?_
    rintro q ⟨⟩
    refine ⟨hp.source, hp.destination, fun g hg => ?_⟩
    rcases List.mem_append.mp hg with hg | hg
    · exact hp.hunks g hg
    · rw [List.mem_singleton.mp hg]
      exact hb.printable hr hh hbody
  | close _ _ ih => exact List.forall_mem_cons.mpr ⟨hcurrent _ rfl, ih hlines fun p hp => by cases hp⟩

theorem wellRead_of_parse {origin text : Text} {ps : List FilePatch} (h : parse origin text = .ok ps) :
    ∀ p ∈ ps, p.WellRead := by
  rw [parse] at h
  split at h
  · next qs hread =>
    cases h
    obtain ⟨es, hes, hdiv⟩ := exists_divides hread
    refine hdiv.wellRead (fun l hl => ?_) fun p hp => by cases hp
    rw [hes] at hl
    exact (Text.isLine_of_mem_lines hl).2
  · cases h

/-- Whatever is read from a text has hunks with the counts of their lines, lines with no line feed but the one
at the end, and paths with neither tab nor line feed.  If its paths lose nothing in reading, it is read again
from the text that it is printed to. -/
theorem parse_stable {origin text : Text} {ps : List FilePatch} (h : parse origin text = .ok ps) :
    (∀ p ∈ ps,
      (∀ hunk ∈ p.hunks, (hunk.sourceCount, hunk.destCount) = hunk.counted ∧
        ∀ line ∈ hunk.lines, '\n' ∉ line.text.dropLast) ∧
      ∀ path ∈ [p.source, p.destination], '\t' ∉ path ∧ '\n' ∉ path) ∧
    ((∀ p ∈ ps, ∀ path ∈ [p.source, p.destination], Header.Whole path) →
      ∀ origin', parse origin' (print ps) = .ok ps) := by
  have hread := wellRead_of_parse h
  refine ⟨fun p hp => ⟨fun hunk hh => ?_, ?_⟩, fun hwhole origin' => ?_⟩
  · have hprint := (hread p hp).hunks hunk hh
    exact ⟨hprint.counted, hprint.lines⟩
  · simpa using ⟨(hread p hp).source, (hread p hp).destination⟩
  · have hprint : ∀ p ∈ ps, p.Printable := fun p hp =>
      ⟨(hwhole p hp p.source (by simp)).printable (hread p hp).source,
        (hwhole p hp p.destination (by simp)).printable (hread p hp).destination, (hread p hp).hunks⟩
    rw [parse, lines_print hprint, readSections_flatMap_render hprint]

/-- A text with a time behind a path, a carriage return, counts that are left out, a context line without its
mark, and two markers. -/
def handmade : Text :=
  "Index: a\n--- \"a b\"\t2024-01-01\n+++ b\r\n@@ -1,2 +1 @@ f()\n-x\n\\ No newline\n\n\\ -".toList

def handmadePatch : FilePatch :=
  ⟨"a b".toList, ['b'], [⟨1, 2, 1, 1, [⟨.delete, ['x']⟩, ⟨.context, []⟩]⟩]⟩

set_option maxRecDepth 10000 in
theorem parse_stable_handmade : parse [] handmade = .ok [handmadePatch] ∧
    (∀ p ∈ [handmadePatch], ∀ path ∈ [p.source, p.destination], Header.Whole path) ∧
    parse ['o'] (print [handmadePatch]) = .ok [handmadePatch] := by
  have h : parse [] handmade = .ok [handmadePatch] := by cbv
  have hwhole : ∀ p ∈ [handmadePatch], ∀ path ∈ [p.source, p.destination], Header.Whole path := by decide
  exact ⟨h, hwhole, (parse_stable h).2 hwhole ['o']⟩

end FilePatch

end Patchwork
