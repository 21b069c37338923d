import Patchwork.Proofs.Patch.Applying
import Patchwork.Proofs.Patch.Produced
import Patchwork.Proofs.Patch.Reversal

/-!
# Hunks of any script that tiles both lists

Whatever script leads through both lists, as long as each of its edits stands where it should: its hunks are
apart, each of them names the lines that it shows on both sides, and between them both sides are the same.  So
they turn the old lines into the new ones, and, read backwards, the new ones into the old ones.
-/
namespace Patchwork

open Text (Line)
open Edit

variable {old new : Array Line}

namespace Edit

/-- An edit stands right on both sides, and what is kept is the same on both. -/
def Exact (old new : Array Line) : Placing := fun i j e =>
  e.oldStart = i ∧ e.newStart = j ∧ (e.isKeep = true → Agree old new i j e.oldLen)

/-- The edits of a script stand behind each other on both sides, from the first lines to the last ones. -/
def Tiles (old new : Array Line) (es : List Edit) : Prop := Spans (Exact old new) 0 0 es old.size new.size

theorem Spans.own {i j k l : Nat} {es : List Edit} (h : Spans (Exact old new) i j es k l) (hl : l ≤ new.size) :
    Spans (Own old new) i j es k l := by
  induction es generalizing i j with
  | nil => exact h
  | cons e es ih =>
    obtain ⟨⟨hi, hj, hkeep⟩, hes⟩ := h
    have hle := hes.le.2
    refine ⟨?_, ih hes⟩
    cases e with
    | keep => exact ⟨hi, hj, hkeep rfl⟩
    | delete o len n => exact ⟨hi, show n ≤ new.size by rw [newStart] at hj; omega⟩
    | insert => exact hj
    | replace => exact ⟨hi, hj⟩

/-- A script that tiles both lists starts at their first lines. -/
theorem Tiles.head? {es : List Edit} (h : Tiles old new es) : ∀ e ∈ es.head?, e.oldStart = 0 ∧ e.newStart = 0 := by
  cases es with
  | nil => nofun
  | cons e es =>
    rintro e ⟨⟩
    exact ⟨h.1.1, h.1.2.1⟩

end Edit

namespace Hunk

/-- The lines that the hunk shows are those of the file that its numbers name; if it shows none, then its start
is the number of the line before it. -/
structure Denotes (ls : Array Line) (h : Hunk) : Prop where
  start : h.sourceStart = startOf h.sourceIndex h.sourceCount
  within : h.sourceIndex + h.sourceCount ≤ ls.size
  lines : h.sourceLines = slice ls h.sourceIndex h.sourceCount

/-- The stretches of a file behind the first `cursor` lines that no hunk shows: in front of each hunk, and behind
the last one. -/
def unshown (ls : List Line) (cursor : Nat) : List Hunk → List (List Line)
  | [] => [ls.drop cursor]
  | h :: hs => (ls.take h.sourceIndex).drop cursor :: unshown ls h.sourceEnd hs

/-- There are lines behind the first hunk that come before the second one. -/
def Before (first second : Hunk) : Prop := first.sourceEnd < second.sourceIndex

variable {h : Hunk} {hs : List Hunk} {es g : List Edit} {a b c d k l : Nat}

theorem addressed_ofGroup (hof : ofGroup? old new g = some h) :
    h.sourceStart = startOf h.sourceIndex h.sourceCount ∧ h.destStart = startOf h.destIndex h.destCount ∧
      (h.sourceCount, h.destCount) = h.counted := by
  cases g with
  | nil => cases hof
  | cons e es =>
    obtain ⟨hunk, hof', hsource, hdest, hstart⟩ := ofGroup_cons old new e es
    obtain rfl := Option.some.inj (hof.symm.trans hof')
    obtain rfl := Option.some.inj hof
    rw [hsource, hdest]
    exact ⟨rfl, rfl, rfl⟩

theorem Shows.sourceEnd (hs : Shows old new h a b k l) (hak : a ≤ k) (hk : k ≤ old.size) : h.sourceEnd = k := by
  rw [Hunk.sourceEnd, hs.index, hs.source, length_slice hak hk]
  omega

theorem Shows.denotes (hs : Shows old new h a b k l) (hak : a ≤ k) (hk : k ≤ old.size)
    (hstart : h.sourceStart = startOf h.sourceIndex h.sourceCount) (hcount : h.sourceCount = h.sourceLines.length) :
    h.Denotes old := by
  have hlen : h.sourceCount = k - a := by rw [hcount, hs.source, length_slice hak hk]
  refine ⟨hstart, ?_, ?_⟩
  · rw [hs.index, hlen]
    omega
  · rw [hs.index, hlen, hs.source]

theorem Covers.shows (hc : Covers old new c d hs) (hmem : h ∈ hs) :
    ∃ a b k l, Shows old new h a b k l ∧ a ≤ k ∧ b ≤ l ∧ k ≤ old.size ∧ l ≤ new.size := by
  induction hc with
  | done => cases hmem
  | hunk _ hshow hak hbl hk hl _ ih =>
    rcases List.mem_cons.mp hmem with rfl | hmem
    · exact ⟨_, _, _, _, hshow, hak, hbl, hk, hl⟩
    · exact ih hmem

theorem drop_take_gap (ls : Array Line) (c g : Nat) : (ls.toList.take (c + g)).drop c = slice ls c g := by
  rw [Edit.slice_eq, List.drop_take, Nat.add_sub_cancel_left]

/-- What the hunks leave out is the same on both sides. -/
theorem Covers.unshown (hc : Covers old new c d hs) :
    unshown old.toList c hs = Hunk.unshown new.toList d (hs.map Hunk.reverse) := by
  induction hc with
  | done h => rw [List.map_nil, Hunk.unshown, Hunk.unshown, h]
  | hunk hgap hshow hak hbl hk hl _ ih =>
    rw [List.map_cons, Hunk.unshown, Hunk.unshown, hshow.index, hshow.sourceEnd hak hk, hshow.reverse.index,
      hshow.reverse.sourceEnd hbl hl, drop_take_gap, drop_take_gap, hgap.slice_eq, ih]

/-- Lines between two hunks on one side are lines between them on the other side. -/
theorem Covers.isChain_reverse (hc : Covers old new c d hs) (hchain : hs.IsChain Before) :
    (hs.map Hunk.reverse).IsChain Before := by
  induction hc with
  | done => exact .nil
  | hunk _ hshow hak hbl hk hl hrest ih =>
    rw [List.isChain_cons] at hchain
    refine List.isChain_cons.mpr ⟨fun next hnext => ?_, ih hchain.2⟩
    cases hrest with
    | done => cases hnext
    | hunk _ hshow' =>
      cases hnext
      have hbefore := hchain.1 _ rfl
      rw [Before, hshow.sourceEnd hak hk, hshow'.index] at hbefore
      rw [Before, hshow.reverse.sourceEnd hbl hl, hshow'.reverse.index]
      omega

theorem before_of_parted {n : Nat} {first second : List Edit} {f s : Hunk} (hparted : Parted n first second)
    (hplaced : Placed old new old.size new.size first) (hf : ofGroup? old new first = some f)
    (hs : ofGroup? old new second = some s) : Before f s := by
  obtain ⟨front, o, p, rest, o', p', rfl, rfl, ho, -⟩ := hparted
  obtain ⟨a, b, i, j, hspan, hstart, hi, -⟩ := hplaced
  obtain ⟨hunk, hof, hshow⟩ := shows_ofGroup (by simp) hspan hstart
  obtain rfl := Option.some.inj (hf.symm.trans hof)
  have hend : f.sourceEnd = i := hshow.sourceEnd hspan.le.1 hi
  obtain ⟨o'', p'', -, hlast⟩ := spans_append.mp hspan
  obtain ⟨⟨rfl, -⟩, rfl, -⟩ := hlast
  obtain ⟨next, hof', hindex, -⟩ := ofGroup_cons old new (keep o' p' n) rest
  obtain rfl := Option.some.inj (hs.symm.trans hof')
  rw [Before, hend, hindex]
  exact ho

/-- What holds of each group and the next one goes over to their hunks. -/
theorem isChain_ofGroup {R : List Edit → List Edit → Prop} {S : Hunk → Hunk → Prop} {gs : List (List Edit)}
    (hne : ∀ g ∈ gs, g ≠ []) (hchain : gs.IsChain R)
    (hnext : ∀ first ∈ gs, ∀ second ∈ gs, ∀ f s, R first second → ofGroup? old new first = some f →
      ofGroup? old new second = some s → S f s) : (gs.filterMap (ofGroup? old new)).IsChain S := by
  have hsome : ∀ g ∈ gs, ∃ h, ofGroup? old new g = some h := by
    intro g hg
    obtain ⟨e, es, rfl⟩ := List.exists_cons_of_ne_nil (hne g hg)
    exact ⟨_, rfl⟩
  induction gs with
  | nil => exact .nil
  | cons first gs ih =>
    rw [List.isChain_cons] at hchain
    obtain ⟨hfirst, hgs⟩ := List.forall_mem_cons.mp hsome
    obtain ⟨f, hf⟩ := hfirst
    have hrest := ih (List.forall_mem_cons.mp hne).2 hchain.2
      (fun a ha b hb => hnext a (List.mem_cons_of_mem _ ha) b (List.mem_cons_of_mem _ hb)) hgs
    rw [List.filterMap_cons_some hf]
    refine List.isChain_cons.mpr ⟨fun s hs => ?_, hrest⟩
    cases gs with
    | nil => cases hs
    | cons second gs =>
      obtain ⟨s', hs'⟩ := hgs second List.mem_cons_self
      rw [List.filterMap_cons_some hs'] at hs
      obtain rfl := Option.some.inj hs
      exact hnext first List.mem_cons_self second (List.mem_cons_of_mem _ List.mem_cons_self) _ _
        (hchain.1 second rfl) hf hs'

theorem covers_of_tiles (h : Tiles old new es) : Covers old new 0 0 (hunksOf old new es) := by
  have hlevel : Level es := fun e he => (h.head? e he).2.trans (h.head? e he).1.symm
  have hcovers := covers_of_spans (Spans.own h (Nat.le_refl _)) fun e he => (h.head? e he).1
  rwa [grounded_of_level hlevel] at hcovers

/-- Whatever script tiles both lists, even if edits are empty or kept stretches meet: there are lines between
each hunk and the next one on both sides, the numbers of each hunk name the lines that it shows on either side,
and what no hunk shows is the same on both sides.  So the hunks turn the old lines into the new ones and, read
backwards, the new ones into the old ones, and so does a patch with these hunks for texts of these lines. -/
theorem hunksOf_tiles {old new : Array Line} {es : List Edit} (h : Tiles old new es) :
    (hunksOf old new es).IsChain Before ∧ ((hunksOf old new es).map Hunk.reverse).IsChain Before ∧
      (∀ hunk ∈ hunksOf old new es, hunk.Denotes old ∧ hunk.reverse.Denotes new) ∧
      unshown old.toList 0 (hunksOf old new es) = unshown new.toList 0 ((hunksOf old new es).map Hunk.reverse) ∧
      ∀ label, applyAll label old.size 0 0 (hunksOf old new es) old.toList = .ok new.toList ∧
        applyAll label new.size 0 0 ((hunksOf old new es).map Hunk.reverse) new.toList = .ok old.toList ∧
        ∀ (p : FilePatch) (o n : Text), p.hunks = hunksOf old new es → Text.lines o = old.toList →
          Text.lines n = new.toList → p.apply label o = .ok n ∧ p.reverse.apply label n = .ok o := by
  have hcovers := covers_of_tiles h
  have hown := Spans.own h (Nat.le_refl _)
  have hplaced := placed_groups_of_spans hown fun e he => (h.head? e he).1
  have hchain : (hunksOf old new es).IsChain Before :=
    isChain_ofGroup (fun g => ne_nil_of_mem_cut) (parted_cut _ _ _) fun first hfirst _ _ _ _ hparted =>
      before_of_parted hparted (hplaced first hfirst)
  refine ⟨hchain, hcovers.isChain_reverse hchain, fun hunk hmem => ?_, hcovers.unshown, fun label => ?_⟩
  · obtain ⟨a, b, k, l, hshow, hak, hbl, hk, hl⟩ := hcovers.shows hmem
    obtain ⟨g, -, hof⟩ := List.mem_filterMap.mp hmem
    obtain ⟨hsource, hdest, hcount⟩ := addressed_ofGroup hof
    rw [counted, Prod.mk.injEq] at hcount
    refine ⟨hshow.denotes hak hk hsource hcount.1, hshow.reverse.denotes hbl hl hdest ?_⟩
    rw [sourceLines_reverse]
    exact hcount.2
  · have happly := hcovers.applyAll label 0
    have hback := hcovers.reverse.applyAll label 0
    rw [List.drop_zero, List.drop_zero] at happly hback
    refine ⟨happly, hback, fun p o n hp ho hn => ?_⟩
    rw [FilePatch.apply, FilePatch.apply, FilePatch.reverse, hp, ho, hn, Array.length_toList, Array.length_toList,
      happly, hback]
    simp only [Except.map, ← ho, ← hn, Text.flatten_lines, and_self]

/-- Two changes with seven lines between them make two hunks, with one line between these. -/
theorem hunksOf_tiles_two :
    let k : List Line := List.replicate 7 ['k']
    let old : List Line := ['x'] :: k ++ [['y']]
    let new : List Line := k ++ [['z'], ['w']]
    let es := [.delete 0 1 0, .keep 1 0 7, .replace 8 1 7 2]
    Tiles old.toArray new.toArray es ∧
      (hunksOf old.toArray new.toArray es).map (fun h => (h.sourceStart, h.sourceCount, h.destStart, h.destCount)) =
        [(1, 4, 1, 3), (6, 4, 5, 5)] ∧
      ∀ label, applyAll label old.length 0 0 (hunksOf old.toArray new.toArray es) old = .ok new ∧
        applyAll label new.length 0 0 ((hunksOf old.toArray new.toArray es).map Hunk.reverse) new = .ok old := by
  intro k old new es
  have htiles : Tiles old.toArray new.toArray es :=
    ⟨⟨rfl, rfl, nofun⟩, ⟨rfl, rfl, fun _ => by unfold Agree; decide⟩, ⟨rfl, rfl, nofun⟩, rfl, rfl⟩
  obtain ⟨-, -, -, -, happly⟩ := hunksOf_tiles htiles
  exact ⟨htiles, rfl, fun label => ⟨(happly label).1, (happly label).2.1⟩⟩

end Hunk

end Patchwork
