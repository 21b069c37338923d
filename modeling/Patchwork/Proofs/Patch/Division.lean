import Patchwork.Proofs.Patch.ParsePrint

/-!
# How the text of a patch is divided

A text that can be read is divided into pieces: the headers of its sections, its hunks, and the lines
that are passed over in sections and outside of them (`readSections_eq_ok`).  A hunk takes its body
whole, as its counts say.  A hunk header that no hunk is read for stands before all sections, or behind
a header line that opens none.
-/
namespace Patchwork

open Text (Line)

variable {l header : Line} {ls body rest : List Line} {number source dest : Nat}
  {read : List HunkLine} {h : Hunk}

namespace Hunk

/-! ### Bodies -/

/-- The lines read so far, last one first, when one more line of the body is read. -/
def addLine (read : List HunkLine) (l : Line) : List HunkLine :=
  match BodyLine.ofLine l with
  | .shown line => line :: read
  | .marker => unterminateLast read
  | .stray => read

/-- The body that is read when `source` and `dest` more lines are called for on either side and `rest`
follows it. -/
inductive Body : Nat → Nat → List Line → List Line → Prop
  | stop {rest : List Line} : NoMarker rest → Body 0 0 [] rest
  | marked {l : Line} {rest : List Line} :
      BodyLine.ofLine l = .marker → isMarker l = true → Body 0 0 [l] rest
  | shown {source dest : Nat} {l : Line} {line : HunkLine} {body rest : List Line} :
      BodyLine.ofLine l = .shown line →
      Body source dest body rest →
      Body (source + if line.inSource then 1 else 0) (dest + if line.inDest then 1 else 0)
        (l :: body) rest
  | marker {source dest : Nat} {l : Line} {body rest : List Line} :
      ¬ (source = 0 ∧ dest = 0) → BodyLine.ofLine l = .marker → isMarker l = true →
      Body source dest body rest → Body source dest (l :: body) rest

theorem ofLine_eq_marker_iff : BodyLine.ofLine l = .marker ↔ l.head? = some '\\' := by
  constructor
  · intro hl
    by_contra hne
    exact ofLine_ne_marker hne hl
  · intro hl
    cases l with
    | nil => cases hl
    | cons c t => rw [Option.some.inj hl]; rfl

theorem noMarker_of_ofLine (hl : BodyLine.ofLine l ≠ .marker) : NoMarker (l :: ls) := by
  intro m hm
  obtain rfl := Option.some.inj hm
  exact fun he => hl (ofLine_eq_marker_iff.mpr he)

/-- What is read of a body is a body. -/
theorem readBody_eq_ok {lines : List HunkLine} {reached : Nat}
    (e : h.readBody number source dest read ls = .ok (lines, reached)) :
    ∃ body rest, ls = body ++ rest ∧ reached = number + body.length ∧
      lines = (body.foldl addLine read).reverse ∧ Body source dest body rest := by
  induction ls generalizing number source dest read with
  | nil =>
    rw [readBody] at e
    split at e
    · next hz =>
      obtain ⟨rfl, rfl⟩ := hz
      cases e
      refine ⟨[], [], rfl, rfl, rfl, .stop ?_⟩
      intro m hm
      cases hm
    · cases e
  | cons l ls ih =>
    rw [readBody] at e
    split at e
    · next hz =>
      obtain ⟨rfl, rfl⟩ := hz
      split at e
      · next hl =>
        split at e
        · next hm =>
          cases e
          refine ⟨[l], ls, rfl, rfl, ?_, .marked hl hm⟩
          simp [addLine, hl]
        · cases e
      · next hl =>
        cases e
        exact ⟨[], l :: ls, rfl, rfl, rfl, .stop (noMarker_of_ofLine hl)⟩
    · next hz =>
      split at e
      · next line hl =>
        split at e
        · next hroom =>
          obtain ⟨body, rest, rfl, rfl, rfl, hb⟩ := ih e
          refine ⟨l :: body, rest, rfl, by simp; omega, by simp [addLine, hl], ?_⟩
          have hbody := Body.shown hl hb
          -- the count of a side that the line is on was not yet used up
          have hs : (if line.inSource then source - 1 else source) +
              (if line.inSource then 1 else 0) = source := by
            split
            · next hin => exact Nat.sub_add_cancel (hroom.1 hin)
            · rfl
          have hd : (if line.inDest then dest - 1 else dest) +
              (if line.inDest then 1 else 0) = dest := by
            split
            · next hin => exact Nat.sub_add_cancel (hroom.2 hin)
            · rfl
          rwa [hs, hd] at hbody
        · cases e
      · next hl =>
        split at e
        · next hm =>
          obtain ⟨body, rest, rfl, rfl, rfl, hb⟩ := ih e
          exact ⟨l :: body, rest, rfl, by simp; omega, by simp [addLine, hl], .marker hz hl hm hb⟩
        · cases e
      · cases e

/-- A body is read to its end and no further. -/
theorem Body.readBody (hb : Body source dest body rest) (h : Hunk) (number : Nat)
    (read : List HunkLine) : h.readBody number source dest read (body ++ rest) =
      .ok ((body.foldl addLine read).reverse, number + body.length) := by
  induction hb generalizing number read with
  | stop hrest => exact readBody_done h number read hrest
  | marked hl hm => simp [Hunk.readBody, hl, hm, addLine]
  | shown hl hb ih =>
    rw [List.cons_append, readBody_shown h number _ _ read hl, ih, List.foldl_cons, addLine, hl,
      List.length_cons, Nat.add_assoc number, Nat.add_comm 1]
  | marker hz hl hm hb ih =>
    rw [List.cons_append, readBody_marker h number _ _ read hl hm (fun hs hd => absurd ⟨hs, hd⟩ hz),
      ih, List.foldl_cons, addLine, hl, List.length_cons, Nat.add_assoc number, Nat.add_comm 1]

theorem countP_unterminateLast {p : HunkLine → Bool} (hp : ∀ line text,
    p { line with text := text } = p line) (read : List HunkLine) :
    (unterminateLast read).countP p = read.countP p := by
  cases read with
  | nil => rfl
  | cons line read => simp [unterminateLast, List.countP_cons, hp]

/-- A body brings as many lines of either side as are called for. -/
theorem Body.countP_addLine (hb : Body source dest body rest) (read : List HunkLine) :
    (body.foldl addLine read).countP HunkLine.inSource = read.countP HunkLine.inSource + source ∧
    (body.foldl addLine read).countP HunkLine.inDest = read.countP HunkLine.inDest + dest := by
  have hs : ∀ (line : HunkLine) text, ({ line with text := text } : HunkLine).inSource =
      line.inSource := fun _ _ => rfl
  have hd : ∀ (line : HunkLine) text, ({ line with text := text } : HunkLine).inDest =
      line.inDest := fun _ _ => rfl
  induction hb generalizing read with
  | stop _ => exact ⟨rfl, rfl⟩
  | marked hl _ =>
    simp only [List.foldl_cons, List.foldl_nil, addLine, hl]
    exact ⟨countP_unterminateLast hs read, countP_unterminateLast hd read⟩
  | @shown source dest l line body rest hl _ ih =>
    have hkeep : addLine read l = line :: read := by simp only [addLine, hl]
    obtain ⟨h1, h2⟩ := ih (line :: read)
    rw [List.countP_cons] at h1 h2
    rw [List.foldl_cons, hkeep]
    exact ⟨by omega, by omega⟩
  | @marker source dest l body rest _ hl _ _ ih =>
    have hkeep : addLine read l = unterminateLast read := by simp only [addLine, hl]
    obtain ⟨h1, h2⟩ := ih (unterminateLast read)
    rw [countP_unterminateLast hs] at h1
    rw [countP_unterminateLast hd] at h2
    rw [List.foldl_cons, hkeep]
    exact ⟨h1, h2⟩

theorem Body.ne_stray (hb : Body source dest body rest) :
    ∀ l ∈ body, BodyLine.ofLine l ≠ .stray := by
  induction hb with
  | stop _ => intro l hl; cases hl
  | marked hm _ =>
    intro l hl
    rw [List.mem_singleton.mp hl, hm]
    intro he
    cases he
  | shown hs _ ih =>
    refine List.forall_mem_cons.mpr ⟨?_, ih⟩
    rw [hs]
    intro he
    cases he
  | marker _ hm _ _ ih =>
    refine List.forall_mem_cons.mpr ⟨?_, ih⟩
    rw [hm]
    intro he
    cases he

/-- A body ends with the line that meets the counts, and the marker behind it if there is one. -/
theorem Body.ends (hb : Body source dest body rest) :
    ∃ shown marks, body = shown ++ marks ∧ (shown = [] → source = 0 ∧ dest = 0) ∧
      (∀ l ∈ shown.getLast?, ∃ line, BodyLine.ofLine l = .shown line) ∧
      marks.length ≤ 1 ∧ (∀ l ∈ marks, BodyLine.ofLine l = .marker) ∧
      (marks = [] → NoMarker rest) := by
  induction hb with
  | stop hrest => exact ⟨[], [], by simp [hrest]⟩
  | @marked l rest hl _ => exact ⟨[], [l], by simp [hl]⟩
  | @shown source dest l line body rest hl _ ih =>
    obtain ⟨shown, marks, rfl, -, hlast, hmarks⟩ := ih
    refine ⟨l :: shown, marks, rfl, by simp, ?_, hmarks⟩
    cases shown with
    | nil => simp [hl]
    | cons m shown => rwa [List.getLast?_cons_cons]
  | @marker source dest l body rest hz hl _ _ ih =>
    obtain ⟨shown, marks, rfl, hempty, hlast, hmarks⟩ := ih
    cases shown with
    | nil => exact absurd (hempty rfl) hz
    | cons m shown =>
      refine ⟨l :: m :: shown, marks, rfl, by simp, ?_, hmarks⟩
      rwa [List.getLast?_cons_cons]

/-- A hunk as its text says: a header line, and a body that meets the counts in it. -/
structure Whole (header : Line) (body rest : List Line) (h : Hunk) : Prop where
  /-- The numbers are the header's. -/
  declared : ∃ source dest, ranges? header = some (source, dest) ∧
    ofRanges? source dest = some { h with lines := [] }
  /-- The counts are the body's. -/
  counted : h.counted = (h.sourceCount, h.destCount)
  /-- Each line of the body is kept, or speaks of the one before it. -/
  kept : h.lines = (body.foldl addLine []).reverse
  ne_stray : ∀ l ∈ body, BodyLine.ofLine l ≠ .stray
  /-- The body ends when the counts are met, but for one marker. -/
  ends : ∃ shown marks, body = shown ++ marks ∧
    (∀ l ∈ shown.getLast?, ∃ line, BodyLine.ofLine l = .shown line) ∧
    marks.length ≤ 1 ∧ (∀ l ∈ marks, BodyLine.ofLine l = .marker) ∧ (marks = [] → NoMarker rest)

theorem counted_eq (h : Hunk) :
    h.counted = (h.lines.countP HunkLine.inSource, h.lines.countP HunkLine.inDest) := by
  simp [counted, sourceLines, destLines, List.countP_eq_length_filter]

theorem Body.whole {s d : Range} (hb : Body h.sourceCount h.destCount body rest)
    (hranges : ranges? header = some (s, d)) (hh : ofRanges? s d = some h) :
    Whole header body rest { h with lines := (body.foldl addLine []).reverse } where
  declared := by
    refine ⟨s, d, hranges, ?_⟩
    have hlines : h.lines = [] := by
      unfold ofRanges? at hh
      simp only [Option.bind_eq_bind, Option.bind_eq_some_iff, Option.some.injEq] at hh
      obtain ⟨_, -, _, -, _, -, _, -, rfl⟩ := hh
      rfl
    rw [hh, ← hlines]
  counted := by
    obtain ⟨hs, hd⟩ := hb.countP_addLine []
    rw [counted_eq]
    simp only [List.countP_reverse, hs, hd, List.countP_nil, Nat.zero_add]
  kept := rfl
  ne_stray := hb.ne_stray
  ends := by
    obtain ⟨shown, marks, hbody, -, hlast, hmarks⟩ := hb.ends
    exact ⟨shown, marks, hbody, hlast, hmarks⟩

end Hunk

namespace FilePatch

/-! ### Pieces -/

/-- A stretch of a patch's text. -/
inductive Piece
  | passed (l : Line)
  | opening (source destination : Line)
  | between (l : Line)
  | hunk (header : Line) (body : List Line) (h : Hunk)

namespace Piece

def lines : Piece → List Line
  | passed l => [l]
  | opening source destination => [source, destination]
  | between l => [l]
  | hunk header body _ => header :: body

def hunk? : Piece → Option Hunk
  | hunk _ _ h => some h
  | _ => none

def isOpening : Piece → Bool
  | opening _ _ => true
  | _ => false

end Piece

def allLines (es : List Piece) : List Line := es.flatMap Piece.lines

@[simp] theorem allLines_nil : allLines [] = [] := rfl

@[simp]
theorem allLines_cons (e : Piece) (es : List Piece) : allLines (e :: es) = e.lines ++ allLines es :=
  rfl

/-- How pieces are read, with the section that is open, to patches. -/
inductive Divides : Option FilePatch → List Piece → List FilePatch → Prop
  | nil : Divides none [] []
  | passed {l : Line} {es : List Piece} {ps : List FilePatch} :
      ((Header.source? l).isSome → (allLines es).head?.bind Header.destination? = none) →
      Divides none es ps → Divides none (.passed l :: es) ps
  | opening {a b : Line} {source destination : Text} {es : List Piece} {ps : List FilePatch} :
      Header.source? a = some source → Header.destination? b = some destination →
      Divides (some ⟨Header.unescape source, Header.unescape destination, []⟩) es ps →
      Divides none (.opening a b :: es) ps
  | between {p : FilePatch} {l : Line} {es : List Piece} {ps : List FilePatch} :
      Hunk.ranges? l = none → Header.source? l = none →
      Divides (some p) es ps → Divides (some p) (.between l :: es) ps
  | hunk {p : FilePatch} {header : Line} {s d : Hunk.Range} {h : Hunk} {body : List Line}
      {es : List Piece} {ps : List FilePatch} :
      Hunk.ranges? header = some (s, d) → Hunk.ofRanges? s d = some h →
      Hunk.Body h.sourceCount h.destCount body (allLines es) →
      Divides (some { p with
        hunks := p.hunks ++ [{ h with lines := (body.foldl Hunk.addLine []).reverse }] }) es ps →
      Divides (some p)
        (.hunk header body { h with lines := (body.foldl Hunk.addLine []).reverse } :: es) ps
  | close {p : FilePatch} {es : List Piece} {ps : List FilePatch} :
      (∀ l ∈ (allLines es).head?, (Header.source? l).isSome) →
      Divides none es ps → Divides (some p) es (p :: ps)

/-- What is read to patches is divided into pieces. -/
theorem exists_divides {number : Nat} {current : Option FilePatch} {ls : List Line}
    {ps : List FilePatch} (e : readSections number current ls = .ok ps) :
    ∃ es, allLines es = ls ∧ Divides current es ps := by
  induction number, current, ls using readSections.induct generalizing ps with
  | case1 number =>
    rw [readSections] at e
    cases e
    exact ⟨[], rfl, .nil⟩
  | case2 number p =>
    rw [readSections] at e
    cases e
    exact ⟨[], rfl, .close (fun l hl => by cases hl) .nil⟩
  | case3 number l ls source destination hd hs ih =>
    rw [readSections, hs, hd] at e
    obtain ⟨es, hes, hdiv⟩ := ih e
    cases ls with
    | nil => cases hd
    | cons m ls => exact ⟨.opening l m :: es, congrArg (l :: m :: ·) hes, .opening hs hd hdiv⟩
  | case4 number l ls hne ih =>
    rw [readSections] at e
    split at e
    · next hs hd => exact absurd hd (hne _ _ hs)
    · obtain ⟨es, rfl, hdiv⟩ := ih e
      refine ⟨.passed l :: es, rfl, .passed (fun hsome => ?_) hdiv⟩
      obtain ⟨source, hs⟩ := Option.isSome_iff_exists.mp hsome
      exact Option.eq_none_iff_forall_ne_some.mpr fun destination hd => hne _ _ hs hd
  | case5 number p l ls s d hr h hh lines reached hbody ih =>
    rw [readSections, hr] at e
    simp only [hh, hbody] at e
    obtain ⟨es, hes, hdiv⟩ := ih e
    obtain ⟨body, rest, rfl, rfl, rfl, hb⟩ := Hunk.readBody_eq_ok hbody
    rw [Nat.add_sub_cancel_left, List.drop_left] at hes
    subst hes
    exact ⟨.hunk l body _ :: es, rfl, .hunk hr hh hb hdiv⟩
  | case6 number p l ls s d hr h hh flaw hbody =>
    rw [readSections, hr] at e
    simp only [hh, hbody] at e
    cases e
  | case7 number p l ls s d hr hh =>
    rw [readSections, hr] at e
    simp only [hh] at e
    cases e
  | case8 number p l ls hr source hs ih =>
    rw [readSections, hr] at e
    simp only [hs] at e
    cases hrest : readSections number none (l :: ls) with
    | error flaw =>
      rw [hrest] at e
      cases e
    | ok qs =>
      rw [hrest] at e
      cases e
      obtain ⟨es, hes, hdiv⟩ := ih hrest
      refine ⟨es, hes, .close (fun m hm => ?_) hdiv⟩
      rw [hes] at hm
      obtain rfl := Option.some.inj hm
      exact Option.isSome_of_eq_some hs
  | case9 number p l ls hr hs ih =>
    rw [readSections, hr] at e
    simp only [hs] at e
    obtain ⟨es, rfl, hdiv⟩ := ih e
    exact ⟨.between l :: es, rfl, .between hr hs hdiv⟩

/-- Pieces that can be read are read. -/
theorem Divides.readSections {current : Option FilePatch} {es : List Piece} {ps : List FilePatch}
    (hdiv : Divides current es ps) (number : Nat) :
    readSections number current (allLines es) = .ok ps := by
  induction hdiv generalizing number with
  | nil => rw [allLines_nil, FilePatch.readSections]
  | @passed l es ps hl _ ih =>
    rw [allLines_cons, Piece.lines, List.singleton_append, FilePatch.readSections]
    split
    · next hs hd =>
      rw [hl (Option.isSome_of_eq_some hs)] at hd
      cases hd
    · exact ih _
  | opening hs hd _ ih =>
    rw [allLines_cons, Piece.lines, List.cons_append, List.singleton_append,
      FilePatch.readSections, hs, List.head?_cons, Option.bind_some, hd]
    exact ih _
  | between hr hs _ ih =>
    rw [allLines_cons, Piece.lines, List.singleton_append, FilePatch.readSections, hr]
    simp only [hs]
    exact ih _
  | hunk hr hh hb _ ih =>
    rw [allLines_cons, Piece.lines, List.cons_append, FilePatch.readSections, hr]
    simp only [hh, hb.readBody]
    rw [Nat.add_sub_cancel_left, List.drop_left]
    exact ih _
  | @close p es ps hl _ ih =>
    cases hes : allLines es with
    | nil =>
      have hnil := ih number
      rw [hes, FilePatch.readSections] at hnil
      cases hnil
      rw [FilePatch.readSections]
    | cons l ls =>
      have hnext := ih number
      rw [hes] at hl hnext
      obtain ⟨source, hs⟩ := Option.isSome_iff_exists.mp (hl l rfl)
      rw [readSections_close number p hs, hnext]
      rfl

theorem readSections_eq_ok {number : Nat} {current : Option FilePatch} {ls : List Line}
    {ps : List FilePatch} : readSections number current ls = .ok ps ↔
      ∃ es, allLines es = ls ∧ Divides current es ps := by
  refine ⟨exists_divides, ?_⟩
  rintro ⟨es, rfl, hdiv⟩
  exact hdiv.readSections number

/-! ### What is passed over -/

/-- The hunks that are read are those of the pieces. -/
theorem Divides.flatMap_hunks {current : Option FilePatch} {es : List Piece} {ps : List FilePatch}
    (hdiv : Divides current es ps) :
    ps.flatMap FilePatch.hunks = current.elim [] FilePatch.hunks ++ es.filterMap Piece.hunk? := by
  induction hdiv with
  | nil => rfl
  | passed _ _ ih => exact ih
  | opening _ _ _ ih => exact ih
  | between _ _ _ ih => exact ih
  | hunk _ _ _ _ ih =>
    rw [ih, List.filterMap_cons]
    simp [Piece.hunk?]
  | close _ _ ih => rw [List.flatMap_cons, ih]; rfl

theorem Divides.whole {current : Option FilePatch} {es : List Piece} {ps : List FilePatch}
    (hdiv : Divides current es ps) {pre post : List Piece} {header : Line} {body : List Line}
    {h : Hunk} (he : es = pre ++ .hunk header body h :: post) :
    h.Whole header body (allLines post) := by
  induction hdiv generalizing pre with
  | nil => simp at he
  | close _ _ ih => exact ih he
  | hunk hr hh hb _ ih =>
    cases pre with
    | nil =>
      obtain ⟨he, rfl⟩ := List.cons.inj he
      cases he
      exact hb.whole hr hh
    | cons e pre => exact ih (List.cons.inj he).2
  | passed _ _ ih | opening _ _ _ ih | between _ _ _ ih =>
    cases pre with
    | nil => cases (List.cons.inj he).1
    | cons e pre => exact ih (List.cons.inj he).2

theorem Divides.ranges?_between {current : Option FilePatch} {es : List Piece} {ps : List FilePatch}
    (hdiv : Divides current es ps) {l : Line} (hl : Piece.between l ∈ es) :
    Hunk.ranges? l = none := by
  induction hdiv with
  | nil => cases hl
  | close _ _ ih => exact ih hl
  | between hr _ _ ih =>
    rcases List.mem_cons.mp hl with he | hl
    · cases he
      exact hr
    · exact ih hl
  | passed _ _ ih | opening _ _ _ ih | hunk _ _ _ _ ih =>
    rcases List.mem_cons.mp hl with he | hl
    · cases he
    · exact ih hl

/-- The pieces end outside of the sections since a header line that opened none. -/
def Stray (es : List Piece) : Prop :=
  ∃ pre l post, es = pre ++ .passed l :: post ∧ (Header.source? l).isSome ∧
    ∀ e ∈ post, e.isOpening = false

theorem Stray.cons {es : List Piece} (h : Stray es) (e : Piece) : Stray (e :: es) := by
  obtain ⟨pre, l, post, rfl, hl, hpost⟩ := h
  exact ⟨e :: pre, l, post, rfl, hl, hpost⟩

/-- A hunk header is passed over only before the sections and behind a stray header line. -/
theorem Divides.stray {current : Option FilePatch} {es : List Piece} {ps : List FilePatch}
    (hdiv : Divides current es ps) {pre post : List Piece} {l : Line}
    (he : es = pre ++ .passed l :: post) (hl : (Hunk.ranges? l).isSome) :
    (current = none ∧ ∀ e ∈ pre, e.isOpening = false) ∨ Stray pre := by
  induction hdiv generalizing pre with
  | nil => simp at he
  | passed _ _ ih =>
    cases pre with
    | nil => exact .inl ⟨rfl, fun e he => by cases he⟩
    | cons e pre =>
      obtain ⟨rfl, hrest⟩ := List.cons.inj he
      rcases ih hrest with ⟨-, hpre⟩ | hstray
      · exact .inl ⟨rfl, List.forall_mem_cons.mpr ⟨rfl, hpre⟩⟩
      · exact .inr (hstray.cons _)
  | opening _ _ _ ih | between _ _ _ ih | hunk _ _ _ _ ih =>
    cases pre with
    | nil => cases (List.cons.inj he).1
    | cons e pre =>
      rcases ih (List.cons.inj he).2 with ⟨hne, -⟩ | hstray
      · cases hne
      · exact .inr (hstray.cons _)
  | @close p es ps hfirst hdiv ih =>
    rcases ih he with ⟨-, hpre⟩ | hstray
    · -- the line that closed the section opened none, so it is the stray one
      refine .inr ?_
      cases pre with
      | nil =>
        have hsource := hfirst l (by simp [he, Piece.lines])
        obtain ⟨source, hs⟩ := Option.isSome_iff_exists.mp hsource
        rw [ranges?_eq_none_of_source? hs] at hl
        cases hl
      | cons e pre =>
        obtain ⟨hclosing, hothers⟩ := List.forall_mem_cons.mp hpre
        subst he
        cases hdiv with
        | passed _ _ => exact ⟨[], _, pre, rfl, hfirst _ (by simp [Piece.lines]), hothers⟩
        | opening _ _ _ => cases hclosing
    · exact .inr hstray

/-- A text is read to patches, if and only if it can be divided into pieces that are; otherwise it is
rejected as malformed.  However it is divided, the hunks of the patches are those of the pieces, each
of them has the counts and all lines of its body, which ends when the counts are met, and a hunk header
that stands in no hunk comes before the sections or behind a header line that opens none. -/
theorem parse_divided (origin text : Text) :
    (∀ ps, parse origin text = .ok ps ↔ ∃ es, allLines es = Text.lines text ∧ Divides none es ps) ∧
    (∀ fault, parse origin text = .error fault → ∃ flaw, fault = .malformedPatch origin flaw) ∧
    ∀ es ps, Divides none es ps →
      ps.flatMap FilePatch.hunks = es.filterMap Piece.hunk? ∧
      (∀ pre header body h post, es = pre ++ .hunk header body h :: post →
        h.Whole header body (allLines post)) ∧
      (∀ l, .between l ∈ es → Hunk.ranges? l = none) ∧
      (∀ pre l post, es = pre ++ .passed l :: post → (Hunk.ranges? l).isSome →
        (∀ e ∈ pre, e.isOpening = false) ∨ Stray pre) := by
  refine ⟨fun ps => ?_, fun fault hfault => ?_, fun es ps hdiv => ⟨?_, ?_, ?_, ?_⟩⟩
  · rw [parse, ← @readSections_eq_ok 0]
    cases readSections 0 none (Text.lines text) with
    | ok qs => simp
    | error flaw => simp
  · rw [parse] at hfault
    split at hfault
    · cases hfault
    · exact ⟨_, (Except.error.inj hfault).symm⟩
  · exact hdiv.flatMap_hunks
  · intro pre header body h post he
    exact hdiv.whole he
  · intro l hl
    exact hdiv.ranges?_between hl
  · intro pre l post he hl
    rcases hdiv.stray he hl with ⟨-, hpre⟩ | hstray
    · exact .inl hpre
    · exact .inr hstray

/-- One line in the place of another. -/
def lineChange : Hunk := ⟨1, 1, 1, 1, [⟨.delete, "x\n".toList⟩, ⟨.insert, "y\n".toList⟩]⟩

/-- A hunk of two lines with a third one behind them, and a hunk behind a stray header line. -/
def leftovers : Text :=
  "--- a\n+++ b\n@@ -1,1 +1,1 @@\n-x\n+y\n+z\n--- c\n@@ -1,1 +1,1 @@\n-x\n+y\n".toList

def leftoverPieces : List Piece :=
  [.opening "--- a\n".toList "+++ b\n".toList,
    .hunk lineChange.headerLine ["-x\n".toList, "+y\n".toList] lineChange, .between "+z\n".toList,
    .passed "--- c\n".toList, .passed lineChange.headerLine, .passed "-x\n".toList,
    .passed "+y\n".toList]

theorem divides_leftoverPieces :
    Divides none leftoverPieces [⟨['a'], ['b'], [lineChange]⟩] := by
  have hstop : Hunk.Body 0 0 [] (allLines (leftoverPieces.drop 2)) :=
    .stop (by simp [NoMarker, leftoverPieces, Piece.lines])
  have hinsert : BodyLine.ofLine "+y\n".toList = .shown ⟨.insert, "y\n".toList⟩ := rfl
  have hdelete : BodyLine.ofLine "-x\n".toList = .shown ⟨.delete, "x\n".toList⟩ := rfl
  have hbody : Hunk.Body 1 1 ["-x\n".toList, "+y\n".toList] (allLines (leftoverPieces.drop 2)) :=
    .shown hdelete (.shown hinsert hstop)
  have hopen : Divides (some ⟨['a'], ['b'], [lineChange]⟩) (leftoverPieces.drop 2)
      [⟨['a'], ['b'], [lineChange]⟩] :=
    .between rfl rfl <| .close (fun l hl => by obtain rfl := Option.some.inj hl; rfl) <|
      .passed (fun _ => rfl) <| .passed (fun _ => rfl) <| .passed (fun _ => rfl) <|
      .passed (fun _ => rfl) .nil
  have hsource : Header.source? "--- a\n".toList = some ['a'] := rfl
  have hdestination : Header.destination? "+++ b\n".toList = some ['b'] := rfl
  exact .opening hsource hdestination <|
    .hunk (h := { lineChange with lines := [] }) (Hunk.ranges?_headerLine lineChange)
      (Hunk.ofRanges?_digits (h := lineChange) (by decide)) hbody hopen

/-- The third line and the second hunk are passed over. -/
theorem parse_divided_leftovers : ∃ es, allLines es = Text.lines leftovers ∧
    Divides none es [⟨['a'], ['b'], [lineChange]⟩] ∧ [lineChange] = es.filterMap Piece.hunk? := by
  have hdiv := divides_leftoverPieces
  obtain ⟨hhunks, -⟩ := (parse_divided [] leftovers).2.2 _ _ hdiv
  exact ⟨leftoverPieces, by decide, hdiv, hhunks⟩

/-- A line that a complete hunk has no room for is passed over, and so is a hunk behind a header line
that opens no section. -/
theorem parse_leftovers : parse [] leftovers = .ok [⟨['a'], ['b'], [lineChange]⟩] := by
  have hread := divides_leftoverPieces.readSections 0
  have hlines : allLines leftoverPieces = Text.lines leftovers := by decide
  rw [parse, ← hlines, hread]

end FilePatch

end Patchwork
