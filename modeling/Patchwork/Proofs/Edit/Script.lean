import Patchwork.Edit.Groups
import Patchwork.Proofs.Edit.Compaction

/-!
# What a script spans

The search yields a script that leads from the first to the last line on both sides, compaction and
folding keep that, and the first edit of the result stands at the first line.
-/
namespace Patchwork.Edit

open Text (Line)

variable {old new : Array Line}

theorem spans_kept {i j len : Nat} (h : Agree old new i j len) :
    Spans (Loose old new) i j (kept i j len) (i + len) (j + len) := by
  unfold kept
  split
  · next h0 =>
    subst h0
    exact ⟨rfl, rfl⟩
  · next hlen => exact ⟨⟨Nat.pos_of_ne_zero hlen, rfl, rfl, h⟩, rfl, rfl⟩

theorem startsAt_kept (i j len : Nat) : StartsAt i (kept i j len) := by
  unfold kept
  split
  · exact nofun
  · rintro e he
    cases he
    rfl

/-- What both lists end with stands behind the rest of them. -/
theorem drop_commonEnd (as bs : List Line) :
    as.drop (as.length - commonEnd as bs) = bs.drop (bs.length - commonEnd as bs) := by
  have h := congrArg List.reverse (take_commonStart as.reverse bs.reverse)
  rwa [List.reverse_take, List.reverse_take, List.reverse_reverse, List.reverse_reverse,
    List.length_reverse, List.length_reverse] at h

theorem commonEnd_le (as bs : List Line) :
    commonEnd as bs ≤ as.length ∧ commonEnd as bs ≤ bs.length := by
  have h := commonStart_le as.reverse bs.reverse
  rwa [List.length_reverse, List.length_reverse] at h

/-- A part of a search: the script between two positions starts where it should. -/
def Leads (old new : Array Line) (i j : Nat) (es : List Edit) (k l : Nat) : Prop :=
  Spans (Loose old new) i j es k l ∧ StartsAt i es

theorem Leads.append {i j a b k l : Nat} {xs ys : List Edit} (hx : Leads old new i j xs a b)
    (hy : Leads old new a b ys k l) : Leads old new i j (xs ++ ys) k l := by
  refine ⟨spans_append.mpr ⟨a, b, hx.1, hy.1⟩, hx.2.append fun hnil => ?_⟩
  subst hnil
  obtain ⟨rfl, rfl⟩ := hx.1
  exact hy.2

theorem Leads.nil {i j : Nat} : Leads old new i j [] i j := ⟨⟨rfl, rfl⟩, nofun⟩

theorem leads_kept {i j len : Nat} (h : Agree old new i j len) :
    Leads old new i j (kept i j len) (i + len) (j + len) := ⟨spans_kept h, startsAt_kept i j len⟩

theorem leads_delete (i len : Nat) {j : Nat} (hj : j ≤ new.size) :
    Leads old new i j [delete i len j] (i + len) j :=
  ⟨⟨⟨rfl, hj⟩, rfl, rfl⟩, by rintro e ⟨⟩; rfl⟩

theorem leads_insert (i j len : Nat) : Leads old new i j [insert i j len] i (j + len) :=
  ⟨⟨rfl, rfl, rfl⟩, by rintro e ⟨⟩; rfl⟩

theorem leads_changed (i m n : Nat) {j : Nat} (hj : j ≤ new.size) :
    Leads old new i j [delete i m j, insert i j n] (i + m) (j + n) :=
  ⟨⟨⟨rfl, hj⟩, rfl, rfl, rfl⟩, by rintro e ⟨⟩; rfl⟩

/-- The part of a search between what both lists start with and what both end with. -/
def between (i j : Nat) (o n : List Line) : List Edit :=
  if o = [] ∧ n = [] then []
  else if n = [] then [delete i o.length j]
  else if o = [] then [insert i j n.length]
  else match splitPoint o n with
    | some (x, y) =>
      if x ≤ o.length ∧ y ≤ n.length ∧ 0 < x + y ∧ x + y < o.length + n.length then
        search i j (o.take x) (n.take y) ++ search (i + x) (j + y) (o.drop x) (n.drop y)
      else [delete i o.length j, insert i j n.length]
    | none => [delete i o.length j, insert i j n.length]

theorem search_eq (i j : Nat) (os ns : List Line) :
    ∃ p o n q, os = p ++ o ++ q ∧ ns = p ++ n ++ q ∧
      search i j os ns = kept i j p.length ++ between (i + p.length) (j + p.length) o n ++
        kept (i + p.length + o.length) (j + p.length + n.length) q.length := by
  obtain ⟨s, hs⟩ : ∃ s, commonStart os ns = s := ⟨_, rfl⟩
  obtain ⟨f, hf⟩ : ∃ f, commonEnd (os.drop s) (ns.drop s) = f := ⟨_, rfl⟩
  have hstart := commonStart_le os ns
  have htake := take_commonStart os ns
  have hfinish := commonEnd_le (os.drop s) (ns.drop s)
  have hdrop := drop_commonEnd (os.drop s) (ns.drop s)
  rw [hs] at hstart htake
  rw [hf, List.length_drop, List.length_drop] at hfinish hdrop
  refine ⟨os.take s, (os.drop s).take (os.length - s - f), (ns.drop s).take (ns.length - s - f),
    (os.drop s).drop (os.length - s - f), ?_, ?_, ?_⟩
  · rw [List.append_assoc, List.take_append_drop, List.take_append_drop]
  · rw [hdrop, htake, List.append_assoc, List.take_append_drop, List.take_append_drop]
  · have hlast : ((os.drop s).drop (os.length - s - f)).length = f := by
      simp only [List.length_drop]
      omega
    rw [search]
    simp only [hs, hf, hlast, List.length_take_of_le hstart.1]
    rfl

/-- What holds of the search if it holds of it for less between the lines that both start and end with. -/
theorem search_induction {motive : Nat → Nat → List Line → List Line → Prop}
    (h : ∀ i j p o n q, search i j (p ++ o ++ q) (p ++ n ++ q) =
        kept i j p.length ++ between (i + p.length) (j + p.length) o n ++
          kept (i + p.length + o.length) (j + p.length + n.length) q.length →
      (∀ i j xs ys, xs.length + ys.length < o.length + n.length → motive i j xs ys) →
      motive i j (p ++ o ++ q) (p ++ n ++ q)) (i j : Nat) (os ns : List Line) : motive i j os ns := by
  induction hsize : os.length + ns.length using Nat.strongRecOn generalizing i j os ns with
  | _ size ih =>
    obtain ⟨p, o, n, q, rfl, rfl, heq⟩ := search_eq i j os ns
    have hsizes : o.length + n.length ≤ size := by
      simp only [List.length_append] at hsize
      omega
    exact h i j p o n q heq fun i j xs ys hlt => ih _ (by omega) i j xs ys rfl

theorem leads_between (i j : Nat) (o n : List Line) (ho : Stands old i o) (hn : Stands new j n)
    (ih : ∀ (i j : Nat) (xs ys : List Line), xs.length + ys.length < o.length + n.length →
      Stands old i xs → Stands new j ys →
      Leads old new i j (search i j xs ys) (i + xs.length) (j + ys.length)) :
    Leads old new i j (between i j o n) (i + o.length) (j + n.length) := by
  unfold between
  split
  · next h =>
    rw [h.1, h.2]
    exact Leads.nil
  split
  · next h =>
    rw [h]
    exact leads_delete i o.length hn.le
  split
  · next h =>
    rw [h]
    exact leads_insert i j n.length
  split
  · next x y _ =>
    split
    · next h =>
      have hox : (o.take x).length = x := List.length_take_of_le h.1
      have hny : (n.take y).length = y := List.length_take_of_le h.2.1
      rw [← List.take_append_drop x o] at ho
      rw [← List.take_append_drop y n] at hn
      obtain ⟨ho₁, ho₂⟩ := ho.append
      obtain ⟨hn₁, hn₂⟩ := hn.append
      rw [hox] at ho₂
      rw [hny] at hn₂
      have h₁ := ih i j _ _ (by simp only [hox, hny]; omega) ho₁ hn₁
      have h₂ := ih (i + x) (j + y) _ _ (by simp only [List.length_drop]; omega) ho₂ hn₂
      rw [hox, hny] at h₁
      have h₁₂ := h₁.append h₂
      rwa [List.length_drop, List.length_drop, Nat.add_assoc, Nat.add_assoc,
        Nat.add_sub_cancel' h.1, Nat.add_sub_cancel' h.2.1] at h₁₂
    · exact leads_changed i o.length n.length hn.le
  · exact leads_changed i o.length n.length hn.le

theorem leads_search (i j : Nat) (os ns : List Line) (ho : Stands old i os)
    (hn : Stands new j ns) :
    Leads old new i j (search i j os ns) (i + os.length) (j + ns.length) := by
  induction i, j, os, ns using search_induction with
  | h i j p o n q heq ih =>
    rw [List.append_assoc] at ho hn
    obtain ⟨hop, hoq⟩ := ho.append
    obtain ⟨hnp, hnq⟩ := hn.append
    obtain ⟨ho, hoq⟩ := hoq.append
    obtain ⟨hn, hnq⟩ := hnq.append
    have hmiddle := leads_between (i + p.length) (j + p.length) o n ho hn ih
    have hall := ((leads_kept (hop.agree hnp)).append hmiddle).append (leads_kept (hoq.agree hnq))
    rw [heq]
    simpa only [List.length_append, Nat.add_assoc] using hall

theorem placed_of_leads {es : List Edit} (h : Leads old new 0 0 es old.size new.size) :
    Placed old new es := by
  refine ⟨h.1, ?_⟩
  cases es with
  | nil => trivial
  | cons e es =>
    cases e with
    | insert o n len => exact Or.inl (h.2 _ rfl)
    | keep => trivial
    | delete => trivial
    | replace => trivial

theorem placed_search (old new : Array Line) :
    Placed old new (search 0 0 old.toList new.toList) := by
  have h := leads_search 0 0 old.toList new.toList (stands_toList old) (stands_toList new)
  rw [Nat.zero_add, Nat.zero_add, Array.length_toList, Array.length_toList] at h
  exact placed_of_leads h

/-- A run takes in an edit that stands where the run stops. -/
theorem spans_add (run : Run) {e : Edit} {i j k l : Nat}
    (hrun : Spans (Own old new) i j run.edits k l) (he : Loose old new k l e) :
    Spans (Own old new) i j ((run.add e).1 ++ (run.add e).2.edits) (k + e.oldLen)
      (l + e.newLen) := by
  have hsplit : Spans (Own old new) i j (run.edits ++ [e]) (k + e.oldLen) (l + e.newLen) :=
    spans_append.mpr ⟨k, l, hrun, he.own, rfl, rfl⟩
  cases e with
  | replace => exact he.elim
  | keep o n len =>
    cases run with
    | kept o' n' len' =>
      obtain ⟨⟨rfl, rfl, ha⟩, rfl, rfl⟩ := hrun
      obtain ⟨_, rfl, rfl, ha'⟩ := he
      refine ⟨⟨rfl, rfl, agree_add.mpr ⟨ha, ha'⟩⟩, ?_⟩
      simp only [oldLen, newLen, Spans, Nat.add_assoc, and_self]
    | none => exact hsplit
    | removed => exact hsplit
    | added => exact hsplit
    | both => exact hsplit
  | delete | insert =>
    cases run with
    | none => exact hsplit
    | kept => exact hsplit
    | removed | added | both =>
      simp only [Run.add, Run.edits, List.nil_append, Spans, Own, Loose, oldLen, newLen] at hrun he ⊢
      omega

theorem spans_fold (run : Run) {es : List Edit} {i j a b k l : Nat}
    (hrun : Spans (Own old new) i j run.edits a b) (h : Spans (Loose old new) a b es k l) :
    Spans (Own old new) i j (fold run es) k l := by
  induction es generalizing run i j a b with
  | nil =>
    obtain ⟨rfl, rfl⟩ := h
    exact hrun
  | cons e es ih =>
    obtain ⟨c, d, hdone, hopen⟩ := spans_append.mp (spans_add run hrun h.1)
    exact spans_append.mpr ⟨c, d, hdone, ih _ hopen h.2⟩

/-- The position of a run's first old line, if that is known for good. -/
def Run.start? : Run → Option Nat
  | kept o _ _ | removed o _ _ | both o _ _ _ => some o
  | none | added .. => Option.none

theorem Run.startsAt_edits {run : Run} {i : Nat} (h : run.start? = some i) :
    StartsAt i run.edits ∧ run.edits ≠ [] := by
  cases run <;> simp only [Run.start?, Option.some.injEq, reduceCtorEq] at h
  all_goals
    subst h
    exact ⟨by rintro e ⟨⟩; rfl, List.cons_ne_nil _ _⟩

theorem Run.start?_add {run : Run} {i : Nat} (h : run.start? = some i) (e : Edit) :
    (run.add e).1 = [] ∧ (run.add e).2.start? = some i ∨ (run.add e).1 = run.edits := by
  cases run <;> simp only [Run.start?, reduceCtorEq] at h
  all_goals cases e <;> simp [Run.add, Run.start?, Run.edits, h]

theorem startsAt_fold {run : Run} {i : Nat} (h : run.start? = some i) (es : List Edit) :
    StartsAt i (fold run es) := by
  induction es generalizing run with
  | nil => exact (Run.startsAt_edits h).1
  | cons e es ih =>
    rw [fold]
    rcases Run.start?_add h e with ⟨hnil, hs⟩ | hedits
    · rw [hnil]
      exact ih hs
    · rw [hedits]
      exact (Run.startsAt_edits h).1.append fun hnil => absurd hnil (Run.startsAt_edits h).2

/-- Lines that were added first take the place of the lines that are removed beside them. -/
theorem startsAt_fold_added {o n len j k l : Nat} {es : List Edit}
    (h : Spans (Loose old new) 0 j es k l) (ho : o = 0 ∨ removesFirst es = true) :
    StartsAt 0 (fold (.added o n len) es) := by
  induction es generalizing len j with
  | nil =>
    obtain rfl : o = 0 := ho.resolve_right nofun
    rintro e ⟨⟩
    rfl
  | cons e es ih =>
    obtain ⟨he, hes⟩ := h
    cases e with
    | insert => exact ih hes ho
    | delete o' len' n' =>
      obtain ⟨rfl, _⟩ := he
      exact startsAt_fold rfl es
    | keep =>
      obtain rfl : o = 0 := ho.resolve_right nofun
      rintro e ⟨⟩
      rfl
    | replace => exact he.elim

theorem startsAt_fold_none {es : List Edit} (h : Placed old new es) :
    StartsAt 0 (fold .none es) := by
  cases es with
  | nil => exact nofun
  | cons e es =>
    obtain ⟨⟨he, hes⟩, ha⟩ := h
    cases e with
    | insert => exact startsAt_fold_added hes ha
    | keep =>
      obtain ⟨_, rfl, _⟩ := he
      exact startsAt_fold rfl es
    | delete =>
      obtain ⟨rfl, _⟩ := he
      exact startsAt_fold rfl es
    | replace => exact he.elim

/-- The script of two lists leads from their first lines to their last ones, and its first edit stands
at the first line. -/
theorem spans_script (old new : Array Line) :
    Spans (Own old new) 0 0 (script old new) old.size new.size ∧ StartsAt 0 (script old new) := by
  have h := placed_compact (placed_search old new)
  exact ⟨spans_fold .none ⟨rfl, rfl⟩ h.spans, startsAt_fold_none h⟩

end Patchwork.Edit
