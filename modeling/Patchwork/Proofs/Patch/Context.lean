import Patchwork.Proofs.Edit.Alternation
import Patchwork.Proofs.Patch.RoundTrip
import Patchwork.Proofs.Patch.Tiling

/-!
# The context of hunks

A hunk shows kept lines around its changes: some in front of the first one and behind the last one, and all that
stand between two of them.  What the groups of a script keep is what the hunks show as context, line by line.
-/
namespace Patchwork

open Text (Line)
open Edit

def HunkLine.isContext (l : HunkLine) : Bool := l.kind == .context

namespace Hunk

/-- The number of context lines in front of the first change. -/
def lead (h : Hunk) : Nat := (h.lines.takeWhile HunkLine.isContext).length

/-- The number of context lines behind the last change. -/
def trail (h : Hunk) : Nat := (h.lines.reverse.takeWhile HunkLine.isContext).length

/-- A hunk with a change, and with up to `n` lines of context on either side of each change. -/
structure Framed (n : Nat) (h : Hunk) : Prop where
  change : ∃ l ∈ h.lines, l.isContext = false
  lead : h.lead ≤ n
  trail : h.trail ≤ n
  between : ∀ context, context <:+: h.lines → (∀ l ∈ context, l.isContext = true) → context.length ≤ 2 * n
  counted : (h.sourceCount, h.destCount) = h.counted

variable {old new : Array Line} {h : Hunk} {hs : List Hunk} {g : List Edit} {e : Edit} {n c d k l : Nat}

/-- The lines of an edit: as many lines of context as it keeps, or one line or more, and no context. -/
structure Block (e : Edit) (ls : List HunkLine) : Prop where
  kept : isKeep e = true → ls.length = keptLen e ∧ ∀ l ∈ ls, l.isContext = true
  changed : isKeep e = false → ls ≠ [] ∧ ∀ l ∈ ls, l.isContext = false

theorem Block.reverse {ls : List HunkLine} (h : Block e ls) : Block e ls.reverse where
  kept hk := by simpa using h.kept hk
  changed hk := by simpa using h.changed hk

theorem isContext_of_kind (kind : LineKind) (ls : List Line) :
    ∀ l ∈ ls.map fun t => HunkLine.mk kind t, l.isContext = (kind == .context) := by
  intro l hl
  obtain ⟨t, -, rfl⟩ := List.mem_map.mp hl
  rfl

theorem length_slice_of_le {ls : Array Line} {i n : Nat} (h : i + n ≤ ls.size) : (slice ls i n).length = n := by
  have hlen := length_slice (Nat.le_add_right i n) h
  rwa [Nat.add_sub_cancel_left] at hlen

theorem isContext_linesOf (e : Edit) : ∀ l ∈ linesOf old new e, l.isContext = isKeep e := by
  cases e with
  | keep | delete | insert => exact isContext_of_kind _ _
  | replace => exact List.forall_mem_append.mpr ⟨isContext_of_kind _ _, isContext_of_kind _ _⟩

/-- An edit shows the lines that it takes on both sides, but those that it keeps only once. -/
theorem length_linesOf (hown : Own old new c d e) (hold : c + e.oldLen ≤ old.size)
    (hnew : d + e.newLen ≤ new.size) : (linesOf old new e).length + keptLen e = e.oldLen + e.newLen := by
  cases e with
  | keep o p len =>
    obtain ⟨rfl, -, -⟩ := hown
    rw [linesOf, List.length_map]
    exact congrArg (· + len) (length_slice_of_le hold)
  | delete o len p =>
    obtain ⟨rfl, -⟩ := hown
    rw [linesOf, List.length_map]
    exact length_slice_of_le hold
  | insert o p len =>
    obtain rfl := hown
    rw [linesOf, List.length_map]
    exact (length_slice_of_le hnew).trans (Nat.zero_add len).symm
  | replace o m p n =>
    obtain ⟨rfl, rfl⟩ := hown
    have holds : (oldLines old (.replace o m p n)).length = m := length_slice_of_le hold
    have hnews : (newLines new (.replace o m p n)).length = n := length_slice_of_le hnew
    rw [linesOf, List.length_append, List.length_map, List.length_map, holds, hnews]
    rfl

theorem block_linesOf (hown : Own old new c d e) (hfull : Full e) (hold : c + e.oldLen ≤ old.size)
    (hnew : d + e.newLen ≤ new.size) : Block e (linesOf old new e) := by
  have hlen := length_linesOf hown hold hnew
  refine ⟨fun hk => ⟨?_, fun l hl => (isContext_linesOf e l hl).trans hk⟩,
    fun hk => ⟨List.ne_nil_of_length_pos ?_, fun l hl => (isContext_linesOf e l hl).trans hk⟩⟩
  · cases e with
    | keep o p len => exact Nat.add_right_cancel hlen
    | delete | insert | replace => cases hk
  · have hpos := hfull hk
    rw [keptLen_of_change hk] at hlen
    omega

/-! ### Blocks in a row -/

section Blocks

variable {lines : Edit → List HunkLine}

theorem takeWhile_of_changed {xs ys : List HunkLine} (hne : xs ≠ []) (h : ∀ l ∈ xs, l.isContext = false) :
    (xs ++ ys).takeWhile HunkLine.isContext = [] := by
  cases xs with
  | nil => exact absurd rfl hne
  | cons x xs => exact List.takeWhile_cons_of_neg (by simp [h x List.mem_cons_self])

theorem takeWhile_flatMap_of_change (hlines : ∀ e ∈ g, Block e (lines e)) (hhead : ∀ e ∈ g.head?, isKeep e = false) :
    (g.flatMap lines).takeWhile HunkLine.isContext = [] := by
  cases g with
  | nil => rfl
  | cons e es =>
    obtain ⟨hne, hchange⟩ := (hlines e List.mem_cons_self).changed (hhead e rfl)
    exact takeWhile_of_changed hne hchange

/-- Lines that begin with context begin with a kept stretch, and this is all of the context. -/
theorem length_takeWhile_flatMap (hapart : g.IsChain Apart) (hlines : ∀ e ∈ g, Block e (lines e)) :
    ((g.flatMap lines).takeWhile HunkLine.isContext).length = g.head?.elim 0 keptLen := by
  cases g with
  | nil => rfl
  | cons e es =>
    obtain ⟨hblock, hrest⟩ := List.forall_mem_cons.mp hlines
    cases hk : isKeep e with
    | false =>
      rw [takeWhile_flatMap_of_change hlines (by rintro e ⟨⟩; exact hk)]
      exact (keptLen_of_change hk).symm
    | true =>
      obtain ⟨hlen, hcontext⟩ := hblock.kept hk
      have hnext := takeWhile_flatMap_of_change hrest fun f hf => (List.isChain_cons.mp hapart).1 f hf hk
      rw [List.flatMap_cons, List.takeWhile_append_of_pos hcontext, hnext, List.append_nil]
      exact hlen

/-- Nowhere behind does more context follow than one kept stretch has. -/
theorem length_takeWhile_of_suffix {m : Nat} (hapart : g.IsChain Apart) (hlines : ∀ e ∈ g, Block e (lines e))
    (hlen : ∀ e ∈ g, keptLen e ≤ m) {ls : List HunkLine} (hsuffix : ls <:+ g.flatMap lines) :
    (ls.takeWhile HunkLine.isContext).length ≤ m := by
  induction g with
  | nil =>
    rw [List.suffix_nil.mp hsuffix]
    exact Nat.zero_le m
  | cons e es ih =>
    obtain ⟨hblock, hrest⟩ := List.forall_mem_cons.mp hlines
    rw [List.isChain_cons] at hapart
    have hlater := ih hapart.2 hrest (List.forall_mem_cons.mp hlen).2
    obtain ⟨skipped, hls⟩ := hsuffix
    rw [List.flatMap_cons, List.append_eq_append_iff] at hls
    -- what is left begins among the lines of the first edit, or behind them
    rcases hls with ⟨own, hown, rfl⟩ | ⟨more, -, hmore⟩
    · cases hk : isKeep e with
      | true =>
        obtain ⟨hkept, hcontext⟩ := hblock.kept hk
        rw [hown, List.forall_mem_append] at hcontext
        have hnext := takeWhile_flatMap_of_change hrest fun f hf => hapart.1 f hf hk
        have hmost := hlen e List.mem_cons_self
        rw [List.takeWhile_append_of_pos hcontext.2, hnext, List.append_nil]
        rw [hown, List.length_append] at hkept
        omega
      | false =>
        have hchange := (hblock.changed hk).2
        rw [hown, List.forall_mem_append] at hchange
        by_cases hnil : own = []
        · subst hnil
          exact hlater (List.suffix_refl _)
        · rw [takeWhile_of_changed hnil hchange.2]
          exact Nat.zero_le m
    · exact hlater ⟨more, hmore.symm⟩

theorem length_le_of_infix {m : Nat} (hapart : g.IsChain Apart) (hlines : ∀ e ∈ g, Block e (lines e))
    (hlen : ∀ e ∈ g, keptLen e ≤ m) {context : List HunkLine} (hpart : context <:+: g.flatMap lines)
    (hcontext : ∀ l ∈ context, l.isContext = true) : context.length ≤ m := by
  obtain ⟨ls, ⟨rest, rfl⟩, hsuffix⟩ := List.infix_iff_prefix_suffix.mp hpart
  have hle := length_takeWhile_of_suffix hapart hlines hlen hsuffix
  rw [List.takeWhile_append_of_pos hcontext, List.length_append] at hle
  omega

end Blocks

/-! ### Hunks of groups -/

theorem lines_ofGroup (hof : ofGroup? old new g = some h) : h.lines = g.flatMap (linesOf old new) := by
  cases g with
  | nil => cases hof
  | cons e es =>
    obtain rfl := Option.some.inj hof
    rfl

theorem exists_own_of_spans {i j : Nat} (h : Spans (Own old new) i j g k l) (he : e ∈ g) :
    ∃ c d, Own old new c d e ∧ c + e.oldLen ≤ k ∧ d + e.newLen ≤ l := by
  induction g generalizing i j with
  | nil => cases he
  | cons f es ih =>
    rcases List.mem_cons.mp he with rfl | he
    · exact ⟨i, j, h.1, h.2.le⟩
    · exact ih h.2 he

theorem blocks_of_placed (hplaced : Placed old new old.size new.size g) (hfull : ∀ e ∈ g, Full e) :
    ∀ e ∈ g, Block e (linesOf old new e) := by
  obtain ⟨a, b, i, j, hspan, -, hi, hj⟩ := hplaced
  intro e he
  obtain ⟨c, d, hown, hold, hnew⟩ := exists_own_of_spans hspan he
  exact block_linesOf hown (hfull e he) (hold.trans hi) (hnew.trans hj)

section Group

variable (hof : ofGroup? old new g = some h) (hplaced : Placed old new old.size new.size g)
  (hframed : Edit.Framed n g)

include hof hplaced hframed

theorem lead_ofGroup : h.lead = g.head?.elim 0 keptLen := by
  rw [lead, lines_ofGroup hof]
  exact length_takeWhile_flatMap hframed.apart (blocks_of_placed hplaced hframed.full)

theorem trail_ofGroup : h.trail = g.getLast?.elim 0 keptLen := by
  -- read from its end, the group has the same shape
  have hapart : g.reverse.IsChain Apart := by
    refine List.isChain_reverse.mpr (hframed.apart.imp fun e f hef hf => ?_)
    by_contra he
    exact Bool.noConfusion (hf.symm.trans (hef (Bool.eq_true_of_not_eq_false he)))
  have hblocks := blocks_of_placed hplaced hframed.full
  rw [trail, lines_ofGroup hof, List.reverse_flatMap, ← List.head?_reverse]
  exact length_takeWhile_flatMap hapart fun e he => (hblocks e (List.mem_reverse.mp he)).reverse

theorem framed_ofGroup : h.Framed n := by
  have hblocks := blocks_of_placed hplaced hframed.full
  refine ⟨?_, ?_, ?_, ?_, (addressed_ofGroup hof).2.2⟩
  · obtain ⟨e, he, hk⟩ := hframed.change
    obtain ⟨hne, hchange⟩ := (hblocks e he).changed hk
    obtain ⟨l, hl⟩ := List.exists_mem_of_ne_nil _ hne
    rw [lines_ofGroup hof]
    exact ⟨l, List.mem_flatMap.mpr ⟨e, he, hl⟩, hchange l hl⟩
  · rw [lead_ofGroup hof hplaced hframed]
    cases hhead : g.head? with
    | none => exact Nat.zero_le n
    | some e => exact hframed.first e hhead
  · rw [trail_ofGroup hof hplaced hframed]
    cases hlast : g.getLast? with
    | none => exact Nat.zero_le n
    | some e => exact hframed.last e hlast
  · rw [lines_ofGroup hof]
    exact fun context => length_le_of_infix hframed.apart hblocks hframed.len

end Group

/-- The hunk has all of its context behind its last change, and the next one in front of its first. -/
def FullBetween (n : Nat) (first second : Hunk) : Prop := first.trail = n ∧ second.lead = n

theorem fullBetween_of_parted {first second : List Edit} {f s : Hunk} (hparted : Parted n first second)
    (hf : ofGroup? old new first = some f) (hs : ofGroup? old new second = some s)
    (hplaced : ∀ g ∈ [first, second], Placed old new old.size new.size g)
    (hframed : ∀ g ∈ [first, second], Edit.Framed n g) : FullBetween n f s := by
  obtain ⟨front, o, p, rest, o', p', rfl, rfl, -⟩ := hparted
  refine ⟨?_, ?_⟩
  · rw [trail_ofGroup hf (hplaced _ (by simp)) (hframed _ (by simp)), List.getLast?_concat]
    rfl
  · rw [lead_ofGroup hs (hplaced _ (by simp)) (hframed _ (by simp))]
    rfl

theorem FullBetween.ends (h : hs.IsChain (FullBetween n)) :
    (∀ hunk ∈ hs.tail, hunk.lead = n) ∧ ∀ hunk ∈ hs.dropLast, hunk.trail = n := by
  induction hs with
  | nil => exact ⟨nofun, nofun⟩
  | cons f hs ih =>
    cases hs with
    | nil => exact ⟨nofun, nofun⟩
    | cons s hs =>
      obtain ⟨hfirst, hrest⟩ := List.isChain_cons_cons.mp h
      obtain ⟨hleads, htrails⟩ := ih hrest
      exact ⟨List.forall_mem_cons.mpr ⟨hfirst.2, hleads⟩, List.forall_mem_cons.mpr ⟨hfirst.1, htrails⟩⟩

/-! ### Hunks of two texts -/

/-- The hunks show lines of both sides, in their order. -/
theorem Covers.sublist (hc : Covers old new c d hs) : (hs.flatMap sourceLines).Sublist (old.toList.drop c) ∧
    (hs.flatMap destLines).Sublist (new.toList.drop d) := by
  have hshown {ls : Array Line} {shown : List Line} {c g k : Nat} (hle : c + g ≤ k)
      (hrest : shown.Sublist (ls.toList.drop k)) :
      (slice ls (c + g) (k - (c + g)) ++ shown).Sublist (ls.toList.drop c) := by
    have hdrop := slice_append_drop ls (c + g) (k - (c + g))
    rw [Nat.add_sub_of_le hle] at hdrop
    refine .trans (hdrop ▸ hrest.append_left _) ?_
    rw [← List.drop_drop]
    exact List.drop_sublist g _
  induction hc with
  | done => exact ⟨List.nil_sublist _, List.nil_sublist _⟩
  | hunk _ hshow hak hbl _ _ _ ih =>
    rw [List.flatMap_cons, List.flatMap_cons, hshow.source, hshow.dest]
    exact ⟨hshown hak ih.1, hshown hbl ih.2⟩

theorem sublist_hunksOf (old new : Array Line) :
    ((hunksOf old new (script old new)).flatMap sourceLines).Sublist old.toList ∧
      ((hunksOf old new (script old new)).flatMap destLines).Sublist new.toList := by
  have hcovers := (covers_hunksOf old new).sublist
  cases hhunks : hunksOf old new (script old new) with
  | nil => exact ⟨List.nil_sublist _, List.nil_sublist _⟩
  | cons h hs =>
    rw [hhunks] at hcovers
    exact hcovers

theorem framed_hunksOf (old new : Array Line) :
    (∀ hunk ∈ hunksOf old new (script old new), hunk.Framed contextLines) ∧
      (hunksOf old new (script old new)).IsChain (FullBetween contextLines) := by
  have hplaced := placed_groups old new
  have hframed := framed_groups contextLines (full_script old new) (isChain_script old new)
  constructor
  · intro hunk hmem
    obtain ⟨g, hg, hof⟩ := List.mem_filterMap.mp hmem
    exact framed_ofGroup hof (hplaced g hg) (hframed g hg)
  · refine isChain_ofGroup (fun g => ne_nil_of_mem_cut) (parted_cut _ _ _) ?_
    intro first hfirst second hsecond f s hparted hf hs
    exact fullBetween_of_parted hparted hf hs
      (List.forall_mem_cons.mpr ⟨hplaced first hfirst, List.forall_mem_singleton.mpr (hplaced second hsecond)⟩)
      (List.forall_mem_cons.mpr ⟨hframed first hfirst, List.forall_mem_singleton.mpr (hframed second hsecond)⟩)

end Hunk

/-- Between any two texts that differ there is a patch.  Each of its hunks has a change, up to three lines of
context in front of the first one and behind the last one, up to six between two of them, and the counts of its
lines.  Fewer than three in front are only before the first hunk's changes, and fewer behind only after the last
one's; and the hunks show lines of the old text and of the new one in the order in which they stand there. -/
theorem FilePatch.framed_ofTexts (labelPrefix path : Text) {old new : Text} (h : old ≠ new) :
    ∃ p, FilePatch.ofTexts? labelPrefix path old new = some p ∧
      (∀ hunk ∈ p.hunks, hunk.Framed 3) ∧
      (∀ hunk ∈ p.hunks.tail, hunk.lead = 3) ∧ (∀ hunk ∈ p.hunks.dropLast, hunk.trail = 3) ∧
      (p.hunks.flatMap Hunk.sourceLines).Sublist (Text.lines old) ∧
      (p.hunks.flatMap Hunk.destLines).Sublist (Text.lines new) := by
  obtain ⟨p, hp, -⟩ := exists_ofTexts labelPrefix path h
  obtain rfl := FilePatch.eq_of_ofTexts hp
  obtain ⟨hframed, hchain⟩ := Hunk.framed_hunksOf (Text.lines old).toArray (Text.lines new).toArray
  obtain ⟨hleads, htrails⟩ := Hunk.FullBetween.ends hchain
  have hsublist := Hunk.sublist_hunksOf (Text.lines old).toArray (Text.lines new).toArray
  exact ⟨_, hp, hframed, hleads, htrails, hsublist⟩

/-- The second line of ten is changed and the last one is removed: the hunks have one and three lines of context
in front of their changes, and three and none behind them. -/
theorem FilePatch.framed_ofTexts_two :
    "a\nx\n1\n2\n3\n4\n5\n6\n7\ny\n".toList ≠ "a\nz\n1\n2\n3\n4\n5\n6\n7\n".toList ∧
      ∃ p, FilePatch.ofTexts? [] ['f'] "a\nx\n1\n2\n3\n4\n5\n6\n7\ny\n".toList
          "a\nz\n1\n2\n3\n4\n5\n6\n7\n".toList = some p ∧
        p.hunks.map (fun hunk => (hunk.lead, hunk.trail)) = [(1, 3), (3, 0)] ∧ ∀ hunk ∈ p.hunks, hunk.Framed 3 := by
  have hne : "a\nx\n1\n2\n3\n4\n5\n6\n7\ny\n".toList ≠ "a\nz\n1\n2\n3\n4\n5\n6\n7\n".toList := by decide
  have hends : (FilePatch.ofTexts? [] ['f'] "a\nx\n1\n2\n3\n4\n5\n6\n7\ny\n".toList
      "a\nz\n1\n2\n3\n4\n5\n6\n7\n".toList).map (·.hunks.map fun hunk => (hunk.lead, hunk.trail)) =
      some [(1, 3), (3, 0)] := by cbv
  obtain ⟨p, hp, hframed, -⟩ := framed_ofTexts [] ['f'] hne
  rw [hp] at hends
  exact ⟨hne, p, hp, Option.some.inj hends, hframed⟩

end Patchwork
