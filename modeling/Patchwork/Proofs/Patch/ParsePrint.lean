import Patchwork.Proofs.Patch.HunkHeader

/-!
# Reading what was printed

Printed patches are read back as they were: the marks of the lines, the counts in the hunk headers and
the lines that follow an unterminated one keep apart what the lines say.
-/
namespace Patchwork

open Text (Line)

/-- The text does not go on with a line that speaks of the one before it. -/
def NoMarker (ls : List Line) : Prop := ∀ l ∈ ls.head?, l.head? ≠ some '\\'

namespace Hunk

theorem ofLine_ne_marker {l : Line} (h : l.head? ≠ some '\\') : BodyLine.ofLine l ≠ .marker := by
  unfold BodyLine.ofLine
  split
  · nofun
  · nofun
  · exact absurd rfl h
  · split <;> nofun
  · nofun

theorem ofLine_mark (l : HunkLine) : BodyLine.ofLine (l.kind.mark :: l.text) = .shown l := by
  obtain ⟨k, t⟩ := l
  cases k <;> rfl

theorem readBody_done (h : Hunk) (number : Nat) (read : List HunkLine) {rest : List Line}
    (hrest : NoMarker rest) : h.readBody number 0 0 read rest = .ok (read.reverse, number) := by
  cases rest with
  | nil => rfl
  | cons l ls =>
    have hl := ofLine_ne_marker (hrest l rfl)
    rw [readBody, if_pos ⟨rfl, rfl⟩]
    split
    · next he => exact absurd he hl
    · rfl

theorem readBody_shown (h : Hunk) (number source dest : Nat) (read : List HunkLine)
    {l : Line} {line : HunkLine} (hl : BodyLine.ofLine l = .shown line) (rest : List Line) :
    h.readBody number (source + if line.inSource then 1 else 0)
        (dest + if line.inDest then 1 else 0) read (l :: rest) =
      h.readBody (number + 1) source dest (line :: read) rest := by
  have hmore : ¬ (source + (if line.inSource then 1 else 0) = 0 ∧
      dest + (if line.inDest then 1 else 0) = 0) := by
    rcases line with ⟨_ | _ | _, t⟩ <;> simp [HunkLine.inSource, HunkLine.inDest]
  have hroom : (line.inSource → 0 < source + if line.inSource then 1 else 0) ∧
      (line.inDest → 0 < dest + if line.inDest then 1 else 0) := by
    constructor <;> intro hin <;> simp [hin]
  have hleft (p : Bool) (n : Nat) :
      (if p then (n + if p then 1 else 0) - 1 else n + if p then 1 else 0) = n := by
    cases p <;> simp
  rw [readBody, if_neg hmore, hl]
  simp only [if_pos hroom, hleft]

theorem readBody_marker (h : Hunk) (number source dest : Nat) (read : List HunkLine)
    {l : Line} (hl : BodyLine.ofLine l = .marker) (hm : isMarker l = true) {rest : List Line}
    (hrest : source = 0 → dest = 0 → NoMarker rest) :
    h.readBody number source dest read (l :: rest) =
      h.readBody (number + 1) source dest (unterminateLast read) rest := by
  rw [readBody]
  simp only [hl, hm, if_true]
  split
  · next hz =>
    obtain ⟨rfl, rfl⟩ := hz
    rw [readBody_done h _ _ (hrest rfl rfl)]
  · rfl

/-- A hunk line is followed by a hunk line, or by what follows the body. -/
theorem noMarker_body (ls : List HunkLine) {rest : List Line} (hrest : NoMarker rest) :
    NoMarker (ls.flatMap HunkLine.render ++ rest) := by
  cases ls with
  | nil => exact hrest
  | cons l ls =>
    rintro m ⟨⟩ he
    have hmark : l.kind.mark ≠ '\\' := by cases l.kind <;> decide
    exact hmark (Option.some.inj he)

theorem readBody_render (h : Hunk) (ls : List HunkLine) {rest : List Line} (hrest : NoMarker rest)
    (number : Nat) (read : List HunkLine) :
    h.readBody number (ls.countP HunkLine.inSource) (ls.countP HunkLine.inDest) read
        (ls.flatMap HunkLine.render ++ rest) =
      .ok (read.reverse ++ ls, number + (ls.flatMap HunkLine.render).length) := by
  induction ls generalizing number read with
  | nil =>
    have hdone := readBody_done h number read hrest
    simpa using hdone
  | cons l ls ih =>
    obtain ⟨k, t⟩ := l
    rw [List.countP_cons, List.countP_cons, List.flatMap_cons, HunkLine.render]
    cases ht : Text.terminated t with
    | true =>
      have hshown := readBody_shown h number (ls.countP HunkLine.inSource)
        (ls.countP HunkLine.inDest) read (ofLine_mark ⟨k, t⟩) (ls.flatMap HunkLine.render ++ rest)
      simp only [List.cons_append, Text.append_feed_of_terminated ht, if_true, List.nil_append]
      rw [hshown, ih]
      simp
      omega
    | false =>
      have hshown := readBody_shown h number (ls.countP HunkLine.inSource)
        (ls.countP HunkLine.inDest) read (ofLine_mark ⟨k, t ++ ['\n']⟩)
        ((noNewline ++ ['\n']) :: (ls.flatMap HunkLine.render ++ rest))
      have hlast : unterminateLast (⟨k, t ++ ['\n']⟩ :: read) = ⟨k, t⟩ :: read := by
        rw [unterminateLast, Text.unterminated_append_feed]
      have hmarker := readBody_marker h (number + 1) (ls.countP HunkLine.inSource)
        (ls.countP HunkLine.inDest) (⟨k, t ++ ['\n']⟩ :: read) (l := noNewline ++ ['\n']) rfl
        (by decide) fun _ _ => noMarker_body ls hrest
      simp only [List.cons_append, Text.unterminated_of_not ht, List.nil_append, Bool.false_eq_true,
        if_false]
      rw [hlast, ih] at hmarker
      refine (hshown.trans hmarker).trans ?_
      simp
      omega

end Hunk

namespace FilePatch

theorem noMarker_hunks (hs : List Hunk) {rest : List Line} (hrest : NoMarker rest) :
    NoMarker (hs.flatMap Hunk.render ++ rest) := by
  cases hs with
  | nil => exact hrest
  | cons h hs =>
    rintro m ⟨⟩ he
    exact absurd (Option.some.inj he) (by decide)

theorem noMarker_render (ps : List FilePatch) : NoMarker (ps.flatMap render) := by
  cases ps with
  | nil => nofun
  | cons p ps =>
    rintro m ⟨⟩ he
    exact absurd (Option.some.inj he) (by decide)

/-- A hunk is read behind any line that gives the numbers of its header. -/
theorem readSections_hunk_of_ranges (number : Nat) (p : FilePatch) {h : Hunk} (hp : h.Printable) {header : Line}
    (hheader : Hunk.ranges? header = Hunk.ranges? h.headerLine) {rest : List Line} (hrest : NoMarker rest) :
    readSections number (some p) (header :: (h.lines.flatMap HunkLine.render ++ rest)) =
      readSections (number + h.render.length) (some { p with hunks := p.hunks ++ [h] }) rest := by
  have hsource : h.sourceCount = h.lines.countP HunkLine.inSource := by
    refine (congrArg Prod.fst hp.counted).trans ?_
    rw [Hunk.counted, Hunk.sourceLines, List.length_map, List.countP_eq_length_filter]
  have hdest : h.destCount = h.lines.countP HunkLine.inDest := by
    refine (congrArg Prod.snd hp.counted).trans ?_
    rw [Hunk.counted, Hunk.destLines, List.length_map, List.countP_eq_length_filter]
  have hbody := Hunk.readBody_render { h with lines := [] } h.lines hrest (number + 1) []
  rw [← hsource, ← hdest] at hbody
  rw [readSections, hheader, Hunk.ranges?_headerLine]
  simp only [Hunk.ofRanges?_digits hp, hbody]
  rw [Nat.add_sub_cancel_left, List.drop_left, List.reverse_nil, List.nil_append, Hunk.render, List.length_cons,
    Nat.add_assoc number, Nat.add_comm 1]

theorem readSections_hunk (number : Nat) (p : FilePatch) {h : Hunk} (hp : h.Printable)
    {rest : List Line} (hrest : NoMarker rest) :
    readSections number (some p) (h.render ++ rest) =
      readSections (number + h.render.length) (some { p with hunks := p.hunks ++ [h] }) rest :=
  readSections_hunk_of_ranges number p hp rfl hrest

theorem readSections_hunks (number : Nat) (p : FilePatch) {hs : List Hunk}
    (hp : ∀ h ∈ hs, h.Printable) {rest : List Line} (hrest : NoMarker rest) :
    ∃ reached, readSections number (some p) (hs.flatMap Hunk.render ++ rest) =
      readSections reached (some { p with hunks := p.hunks ++ hs }) rest := by
  induction hs generalizing number p with
  | nil => exact ⟨number, by rw [List.append_nil]; rfl⟩
  | cons h hs ih =>
    have hhunk := readSections_hunk number p (hp h List.mem_cons_self) (noMarker_hunks hs hrest)
    obtain ⟨reached, hreached⟩ := ih (number + h.render.length) { p with hunks := p.hunks ++ [h] }
      fun g hg => hp g (List.mem_cons_of_mem _ hg)
    refine ⟨reached, ?_⟩
    rw [List.flatMap_cons, List.append_assoc, hhunk, hreached, List.append_assoc]
    rfl

/-- Two lines that give back the paths of a patch open its section. -/
theorem readSections_opening (number : Nat) {p : FilePatch} (hp : p.Printable) {a b : Line}
    (ha : Header.source? a = some (Header.escape p.source))
    (hb : Header.destination? b = some (Header.escape p.destination)) (rest : List Line) :
    readSections number none (a :: b :: rest) =
      readSections (number + 2) (some ⟨p.source, p.destination, []⟩) rest := by
  rw [readSections, List.head?_cons, Option.bind_some, ha, hb]
  simp only [Header.unescape_escape hp.source, Header.unescape_escape hp.destination]
  rw [List.drop_one, List.tail_cons]

theorem readSections_render (number : Nat) {p : FilePatch} (hp : p.Printable) {rest : List Line}
    (hrest : NoMarker rest) :
    ∃ reached, readSections number none (p.render ++ rest) = readSections reached (some p) rest := by
  obtain ⟨reached, hreached⟩ :=
    readSections_hunks (number + 2) ⟨p.source, p.destination, []⟩ hp.hunks hrest
  refine ⟨reached, ?_⟩
  rw [render, List.cons_append, List.cons_append,
    readSections_opening number hp (Header.path?_escape hp.source) (Header.path?_escape hp.destination), hreached]
  rfl

theorem ranges?_eq_none_of_source? {l : Line} {source : Text} (h : Header.source? l = some source) :
    Hunk.ranges? l = none := by
  unfold Hunk.ranges?
  unfold Header.source? Header.path? at h
  cases hbody : Text.body l with
  | nil => rfl
  | cons c t =>
    rw [hbody] at h
    by_cases hc : c = '-'
    · rw [hc]
      rfl
    · have hnone : "--- ".toList.isPrefixOf? (c :: t) = none :=
        if_neg fun he => hc (eq_of_beq he).symm
      rw [hnone] at h
      cases h

/-- A header line closes the section before it. -/
theorem readSections_close (number : Nat) (p : FilePatch) {l : Line} {source : Text}
    (hl : Header.source? l = some source) (rest : List Line) :
    readSections number (some p) (l :: rest) = (readSections number none (l :: rest)).map (p :: ·) := by
  conv =>
    lhs
    rw [readSections, ranges?_eq_none_of_source? hl]
  simp only [hl]

/-- The header of a section closes the section before it. -/
theorem readSections_next (number : Nat) (p : FilePatch) {q : FilePatch} (hq : q.Printable)
    (rest : List Line) :
    readSections number (some p) (q.render ++ rest) =
      (readSections number none (q.render ++ rest)).map (p :: ·) :=
  readSections_close number p (Header.path?_escape hq.source) _

theorem readSections_flatMap_render {ps : List FilePatch} (hp : ∀ p ∈ ps, p.Printable)
    (number : Nat) : readSections number none (ps.flatMap render) = .ok ps := by
  induction ps generalizing number with
  | nil => rw [List.flatMap_nil, readSections]
  | cons p ps ih =>
    obtain ⟨reached, hreached⟩ :=
      readSections_render number (hp p List.mem_cons_self) (noMarker_render ps)
    rw [List.flatMap_cons, hreached]
    cases ps with
    | nil => rw [List.flatMap_nil, readSections]
    | cons q ps =>
      have hrest := ih (fun r hr => hp r (List.mem_cons_of_mem _ hr)) reached
      rw [List.flatMap_cons] at hrest ⊢
      rw [readSections_next reached p (hp q (by simp)), hrest]
      rfl

/-- Reading undoes printing, for every list of patches that can be printed. -/
theorem parse_print {ps : List FilePatch} (hp : ∀ p ∈ ps, p.Printable) (origin : Text) :
    parse origin (print ps) = .ok ps := by
  rw [parse, lines_print hp, readSections_flatMap_render hp]

/-- Paths that need their quotes, lines that look like headers and markers, and one in the middle of a
hunk that has no line feed. -/
def lookalikes : List FilePatch :=
  [⟨" a \"b\\".toList, "\"".toList,
    [⟨0, 3, 18446744073709551615, 2,
      [⟨.delete, "-- x\n".toList⟩, ⟨.context, "@@ -1,1 +1,1 @@".toList⟩, ⟨.insert, "\r".toList⟩,
        ⟨.delete, "\\ No newline at end of file\n".toList⟩]⟩,
      ⟨7, 0, 7, 0, []⟩, ⟨1, 0, 1, 1, [⟨.insert, []⟩]⟩]⟩,
    ⟨"c".toList, "+++ d".toList, []⟩]

theorem parse_print_lookalikes :
    (∀ p ∈ lookalikes, p.Printable) ∧ parse [] (print lookalikes) = .ok lookalikes :=
  ⟨by decide, parse_print (by decide) []⟩

end FilePatch

end Patchwork
