import Patchwork.Proofs.Patch.ParsePrint

/-!
# Noise around sections

A printed text may be disturbed without changing what is read: by lines around the sections that are no headers,
by a tab and more text behind a path, by text behind a hunk header, and by carriage returns at the ends of header
lines.
-/
namespace Patchwork

open Text (Line)

namespace Text

/-- The end of a line: a line feed, or a carriage return and a line feed. -/
def Feed (feed : Text) : Prop := feed = ['\n'] ∨ feed = ['\r', '\n']

variable {feed : Text}

theorem Feed.body (h : Feed feed) : body feed = [] := by
  rcases h with rfl | rfl <;> decide

theorem Feed.closed (h : Feed feed) {t : Text} (ht : '\n' ∉ t) : Closed (t ++ feed) := by
  rcases h with rfl | rfl
  · exact ⟨t, ht, rfl⟩
  · exact ⟨t ++ ['\r'], by simpa using ht, by simp⟩

end Text

namespace FilePatch

/-- A line that is neither a header line nor a hunk header and does not speak of the line before it. -/
structure Idle (l : Line) : Prop where
  closed : Text.Closed l
  source : Header.source? l = none
  ranges : Hunk.ranges? l = none
  noMarker : l.head? ≠ some '\\'

/-- A header line: what it shows, perhaps a tab and any text behind that, and the end of the line. -/
def Dressed (shown : Text) (l : Line) : Prop :=
  ∃ extra feed, (∀ c ∈ extra.head?, c = '\t') ∧ '\n' ∉ extra ∧ Text.Feed feed ∧ l = shown ++ extra ++ feed

/-- The lines of some hunks, with any text behind their headers. -/
inductive NoisyHunks : List Hunk → List Line → Prop
  | nil : NoisyHunks [] []
  | cons {h : Hunk} {hs : List Hunk} {ls : List Line} {extra feed : Text} :
      '\n' ∉ extra → Text.Feed feed → NoisyHunks hs ls →
      NoisyHunks (h :: hs) ((h.headerText ++ extra ++ feed) :: (h.lines.flatMap HunkLine.render ++ ls))

/-- The lines of some patches, with idle lines in front of each of them and behind the last one. -/
inductive Noisy : List FilePatch → List Line → Prop
  | done {noise : List Line} : (∀ l ∈ noise, Idle l) → Noisy [] noise
  | section {p : FilePatch} {ps : List FilePatch} {noise hunks ls : List Line} {a b : Line} :
      (∀ l ∈ noise, Idle l) → Dressed ("--- ".toList ++ Header.escape p.source) a →
      Dressed ("+++ ".toList ++ Header.escape p.destination) b → NoisyHunks p.hunks hunks → Noisy ps ls →
      Noisy (p :: ps) (noise ++ a :: b :: (hunks ++ ls))

variable {p : FilePatch} {ps : List FilePatch} {h : Hunk} {hs : List Hunk} {l : Line}
  {ls noise rest : List Line} {shown extra feed mark path : Text} {number : Nat}

/-! ### Disturbed lines -/

/-- Behind a path, the body of a header line goes on with a tab if it goes on at all. -/
theorem head?_body_extra (hextra : ∀ c ∈ extra.head?, c = '\t') (hfeed : Text.Feed feed) :
    ∀ c ∈ (Text.body (extra ++ feed)).head?, c = '\t' := by
  cases extra with
  | nil =>
    rw [List.nil_append, hfeed.body]
    nofun
  | cons c extra =>
    obtain rfl := hextra c rfl
    have htab : Text.body (['\t'] ++ (extra ++ feed)) = ['\t'] ++ Text.body (extra ++ feed) := by
      refine Text.body_append ?_ _
      rintro c ⟨⟩
      rfl
    rw [List.cons_append, ← List.singleton_append, htab]
    rintro c ⟨⟩
    rfl

theorem Dressed.path? (hl : Dressed (mark ++ Header.escape path) l) (hp : Header.Printable path) :
    Header.path? mark l = some (Header.escape path) := by
  obtain ⟨extra, feed, hextra, -, hfeed, rfl⟩ := hl
  refine Header.path?_shown hp ?_ (head?_body_extra hextra hfeed)
  rw [List.append_assoc, Text.body_append (Header.not_endsLine_shown hp mark)]

theorem Dressed.closed (hl : Dressed shown l) (hshown : '\n' ∉ shown) : Text.Closed l := by
  obtain ⟨extra, feed, -, hextra, hfeed, rfl⟩ := hl
  exact hfeed.closed (by simpa using ⟨hshown, hextra⟩)

/-- A header line as it is printed. -/
theorem dressed_printed (shown : Text) : Dressed shown (shown ++ ['\n']) :=
  ⟨[], ['\n'], nofun, nofun, .inl rfl, by rw [List.append_nil]⟩

theorem ranges?_extra (h : Hunk) (extra feed : Text) :
    Hunk.ranges? (h.headerText ++ extra ++ feed) = Hunk.ranges? h.headerLine := by
  rw [Hunk.ranges?_headerLine, List.append_assoc]
  exact Hunk.ranges?_of_body (Text.body_append h.not_endsLine_headerText _)

/-! ### Disturbed texts -/

theorem noMarker_append (hnoise : ∀ l ∈ noise, Idle l) (hrest : NoMarker rest) : NoMarker (noise ++ rest) := by
  cases noise with
  | nil => exact hrest
  | cons l noise =>
    rintro m ⟨⟩
    exact (hnoise l List.mem_cons_self).noMarker

theorem Noisy.noMarker (h : Noisy ps ls) : NoMarker ls := by
  cases h with
  | done hnoise =>
    rw [← List.append_nil ls]
    exact noMarker_append hnoise nofun
  | «section» hnoise ha =>
    refine noMarker_append hnoise ?_
    obtain ⟨extra, feed, -, -, -, rfl⟩ := ha
    rintro m ⟨⟩ he
    exact absurd (Option.some.inj he) (by decide)

theorem NoisyHunks.noMarker (h : NoisyHunks hs ls) (hrest : NoMarker rest) : NoMarker (ls ++ rest) := by
  cases h with
  | nil => exact hrest
  | cons =>
    rintro m ⟨⟩ he
    exact absurd (Option.some.inj he) (by decide)

/-- Idle lines in front of a section are passed over. -/
theorem readSections_idle (hnoise : ∀ l ∈ noise, Idle l) (number : Nat) (rest : List Line) :
    readSections number none (noise ++ rest) = readSections (number + noise.length) none rest := by
  induction noise generalizing number with
  | nil => rfl
  | cons l noise ih =>
    obtain ⟨hl, hnoise⟩ := List.forall_mem_cons.mp hnoise
    rw [List.cons_append, readSections, hl.source]
    dsimp only
    rw [ih hnoise, List.length_cons, Nat.add_assoc, Nat.add_comm 1]

/-- Idle lines behind the hunks of a section are passed over. -/
theorem readSections_idle_open (hnoise : ∀ l ∈ noise, Idle l) (number : Nat) (p : FilePatch) (rest : List Line) :
    readSections number (some p) (noise ++ rest) = readSections (number + noise.length) (some p) rest := by
  induction noise generalizing number with
  | nil => rfl
  | cons l noise ih =>
    obtain ⟨hl, hnoise⟩ := List.forall_mem_cons.mp hnoise
    rw [List.cons_append, readSections, hl.ranges]
    simp only [hl.source]
    rw [ih hnoise, List.length_cons, Nat.add_assoc, Nat.add_comm 1]

theorem NoisyHunks.readSections (h : NoisyHunks hs ls) (hp : ∀ h ∈ hs, h.Printable) (hrest : NoMarker rest)
    (number : Nat) (p : FilePatch) : ∃ reached, readSections number (some p) (ls ++ rest) =
      FilePatch.readSections reached (some { p with hunks := p.hunks ++ hs }) rest := by
  induction h generalizing number p with
  | nil => exact ⟨number, by rw [List.append_nil]; rfl⟩
  | @cons h hs ls extra feed _ _ hls ih =>
    obtain ⟨hh, hhs⟩ := List.forall_mem_cons.mp hp
    have hhunk := readSections_hunk_of_ranges number p hh (ranges?_extra h extra feed) (hls.noMarker hrest)
    obtain ⟨reached, hreached⟩ := ih hhs (number + h.render.length) { p with hunks := p.hunks ++ [h] }
    refine ⟨reached, ?_⟩
    rw [List.cons_append, List.append_assoc (h.lines.flatMap HunkLine.render), hhunk, hreached, List.append_assoc]
    rfl

/-- By induction on the patches, for a section that is open and for none: what is passed over in front of a
section belongs to the one before it. -/
theorem Noisy.readSections (h : Noisy ps ls) (hp : ∀ p ∈ ps, p.Printable) :
    (∀ number, FilePatch.readSections number none ls = .ok ps) ∧
      ∀ number p, FilePatch.readSections number (some p) ls = .ok (p :: ps) := by
  induction h with
  | @done noise hnoise =>
    constructor
    · intro number
      rw [← List.append_nil noise, readSections_idle hnoise, FilePatch.readSections]
    · intro number p
      rw [← List.append_nil noise, readSections_idle_open hnoise, FilePatch.readSections]
  | @«section» q qs noise hunks ls a b hnoise ha hb hhunks hls ih =>
    obtain ⟨hq, hqs⟩ := List.forall_mem_cons.mp hp
    obtain ⟨-, hopen⟩ := ih hqs
    have hsource : Header.source? a = some (Header.escape q.source) := ha.path? hq.source
    have hdest : Header.destination? b = some (Header.escape q.destination) := hb.path? hq.destination
    have hread (number : Nat) :
        FilePatch.readSections number none (a :: b :: (hunks ++ ls)) = .ok (q :: qs) := by
      obtain ⟨reached, hreached⟩ :=
        hhunks.readSections hq.hunks hls.noMarker (number + 2) ⟨q.source, q.destination, []⟩
      rw [readSections_opening number hq hsource hdest, hreached, List.nil_append, hopen]
    constructor
    · intro number
      rw [readSections_idle hnoise, hread]
    · intro number p
      rw [readSections_idle_open hnoise, readSections_close _ p hsource, hread]
      rfl

theorem NoisyHunks.closed (h : NoisyHunks hs ls) (hp : ∀ h ∈ hs, h.Printable) : ∀ l ∈ ls, Text.Closed l := by
  induction h with
  | nil => nofun
  | @cons h hs ls extra feed hextra hfeed _ ih =>
    obtain ⟨hh, hhs⟩ := List.forall_mem_cons.mp hp
    refine List.forall_mem_cons.mpr ⟨hfeed.closed ?_, List.forall_mem_append.mpr ⟨?_, ih hhs⟩⟩
    · rw [List.mem_append, not_or]
      exact ⟨h.not_mem_headerText, hextra⟩
    · exact fun l hl => Hunk.closed_render hh l (List.mem_cons_of_mem _ hl)

theorem Noisy.closed (h : Noisy ps ls) (hp : ∀ p ∈ ps, p.Printable) : ∀ l ∈ ls, Text.Closed l := by
  induction h with
  | done hnoise => exact fun l hl => (hnoise l hl).closed
  | @«section» q qs noise hunks ls a b hnoise ha hb hhunks hls ih =>
    obtain ⟨hq, hqs⟩ := List.forall_mem_cons.mp hp
    have hshown {mark path : Text} (hmark : '\n' ∉ mark) (hpath : Header.Printable path) :
        '\n' ∉ mark ++ Header.escape path := by
      rw [List.mem_append, not_or]
      exact ⟨hmark, Header.not_mem_escape hpath.noFeed (by decide) (by decide)⟩
    refine List.forall_mem_append.mpr ⟨fun l hl => (hnoise l hl).closed, List.forall_mem_cons.mpr
      ⟨ha.closed (hshown (by decide) hq.source), List.forall_mem_cons.mpr
        ⟨hb.closed (hshown (by decide) hq.destination), List.forall_mem_append.mpr
          ⟨hhunks.closed hq.hunks, ih hqs⟩⟩⟩⟩

theorem noisyHunks_render (hs : List Hunk) : NoisyHunks hs (hs.flatMap Hunk.render) := by
  induction hs with
  | nil => exact .nil
  | cons h hs ih =>
    rw [List.flatMap_cons, Hunk.render, h.headerLine_eq, ← List.append_nil h.headerText]
    exact .cons List.not_mem_nil (.inl rfl) ih

theorem noisy_render (ps : List FilePatch) : Noisy ps (ps.flatMap render) := by
  induction ps with
  | nil => exact .done nofun
  | cons p ps ih =>
    exact .section (p := p) (List.forall_mem_nil _) (dressed_printed _) (dressed_printed _) (noisyHunks_render _) ih

/-- Patches are read from their printed text, and from every text that it becomes when idle lines are put around
its sections, a tab and more text behind the paths of its header lines, text without a line feed behind its hunk
headers, and carriage returns in front of the line feeds of either. -/
theorem parse_noisy {ps : List FilePatch} (hp : ∀ p ∈ ps, p.Printable) :
    Noisy ps (ps.flatMap render) ∧ ∀ ls, Noisy ps ls → ∀ origin, parse origin ls.flatten = .ok ps := by
  refine ⟨noisy_render ps, fun ls h origin => ?_⟩
  rw [parse, Text.lines_flatten (h.closed hp), (h.readSections hp).1]

/-- One line in the place of another one, and a section without hunks. -/
def commented : List FilePatch :=
  [⟨['a'], "b c".toList, [⟨3, 1, 3, 1, [⟨.delete, "x\n".toList⟩, ⟨.insert, ['y']⟩]⟩]⟩, ⟨['d'], ['e'], []⟩]

/-- Lines around the sections, a time, the name of a function, carriage returns, and a line that the hunk before
it has no room for. -/
def comments : Text :=
  ("diff --git a b\n--- a\t2024-01-01\r\n+++ \"b c\"\r\n@@ -3,1 +3,1 @@ f()\r\n-x\n+y\n" ++
    "\\ No newline at end of file\n+z\n--- d\n+++ e\n@@\n").toList

set_option maxRecDepth 10000 in
theorem noisy_comments : ∃ ls, Noisy commented ls ∧ ls.flatten = comments := by
  have hidle {t : Text} (ht : '\n' ∉ t ∧ Header.source? (t ++ ['\n']) = none ∧ Hunk.ranges? (t ++ ['\n']) = none ∧
      (t ++ ['\n']).head? ≠ some '\\') : ∀ l ∈ [t ++ ['\n']], Idle l := by
    intro l hl
    obtain rfl := List.mem_singleton.mp hl
    exact ⟨⟨t, ht.1, rfl⟩, ht.2.1, ht.2.2.1, ht.2.2.2⟩
  have hfirst := hidle (t := "diff --git a b".toList) ⟨by decide, rfl, rfl, by decide⟩
  have hbetween := hidle (t := "+z".toList) ⟨by decide, rfl, rfl, by decide⟩
  have hlast := hidle (t := "@@".toList) ⟨by decide, rfl, rfl, by decide⟩
  have hsource : Dressed ("--- ".toList ++ Header.escape ['a']) _ :=
    ⟨"\t2024-01-01".toList, ['\r', '\n'], by rintro c ⟨⟩; rfl, by decide, .inr rfl, rfl⟩
  have hdest : Dressed ("+++ ".toList ++ Header.escape "b c".toList) _ :=
    ⟨[], ['\r', '\n'], nofun, nofun, .inr rfl, rfl⟩
  have hextra : '\n' ∉ " f()".toList := by decide
  have hhunk : NoisyHunks [⟨3, 1, 3, 1, [⟨.delete, "x\n".toList⟩, ⟨.insert, ['y']⟩]⟩] _ :=
    .cons hextra (.inr rfl) .nil
  have hrest : Noisy [⟨['d'], ['e'], []⟩] _ :=
    .section hbetween (dressed_printed _) (dressed_printed _) .nil (.done hlast)
  exact ⟨_, .section hfirst hsource hdest hhunk hrest, rfl⟩

theorem parse_noisy_comments : (∀ p ∈ commented, p.Printable) ∧
    (∃ ls, Noisy commented ls ∧ ls.flatten = comments) ∧ parse [] comments = .ok commented := by
  have hp : ∀ p ∈ commented, p.Printable := by decide
  obtain ⟨ls, hls, hflat⟩ := noisy_comments
  have hread := (parse_noisy hp).2 ls hls []
  rw [hflat] at hread
  exact ⟨hp, ⟨ls, hls, hflat⟩, hread⟩

/-- One line in the place of another one. -/
def swap : FilePatch :=
  ⟨['a'], ['b'], [⟨1, 1, 1, 1, [⟨.delete, "x\n".toList⟩, ⟨.insert, "y\n".toList⟩]⟩]⟩

set_option maxRecDepth 10000 in
/-- Text with a line feed behind a hunk header puts a line into the body of the hunk, and the last line of the body
is passed over. -/
theorem parse_spilled : swap.Printable ∧ print [swap] = "--- a\n+++ b\n@@ -1,1 +1,1 @@\n-x\n+y\n".toList ∧
    parse [] "--- a\n+++ b\n@@ -1,1 +1,1 @@\n+z\n-x\n+y\n".toList =
      .ok [⟨['a'], ['b'], [⟨1, 1, 1, 1, [⟨.insert, "z\n".toList⟩, ⟨.delete, "x\n".toList⟩]⟩]⟩] :=
  ⟨by decide, rfl, by cbv⟩

end FilePatch

end Patchwork
