import Patchwork.Edit.Compaction
import Patchwork.Proofs.Edit.Spans

/-!
# What compaction keeps

Sliding keeps every edit at the lines that it takes (`Loose`), but an insertion which passes a
deletion keeps its old position, so that the position goes stale.  A stale position never becomes the
start of a script: an insertion that reaches the start by sliding slides back at once, and one that
stands there beside a deletion will be folded into it (`Anchored`).
-/
namespace Patchwork.Edit

open Text (Line)

variable {old new : Array Line}

/-- Whether a script removes lines before it keeps any. -/
def removesFirst : List Edit → Bool
  | delete .. :: _ => true
  | insert .. :: es => removesFirst es
  | _ => false

/-- An insertion at the start of a script stands at the first old line, unless lines are removed beside
it. -/
def Anchored : List Edit → Prop
  | insert o _ _ :: es => o = 0 ∨ removesFirst es = true
  | _ => True

theorem removesFirst_append {xs ys zs : List Edit}
    (h : removesFirst ys = true → removesFirst zs = true) :
    removesFirst (xs ++ ys) = true → removesFirst (xs ++ zs) = true := by
  induction xs with
  | nil => exact h
  | cons x xs ih =>
    cases x with
    | insert o n len => exact ih
    | delete => exact id
    | keep => exact id
    | replace => exact id

/-- The end of a script may be replaced if what is removed first stays so. -/
theorem Anchored.replace_end {xs ys zs : List Edit} (h : Anchored (xs ++ ys))
    (h0 : xs = [] → Anchored ys → Anchored zs)
    (hr : removesFirst ys = true → removesFirst zs = true) : Anchored (xs ++ zs) := by
  cases xs with
  | nil => exact h0 rfl h
  | cons x xs =>
    cases x with
    | insert o n len => exact h.imp_right (removesFirst_append hr)
    | delete => trivial
    | keep => trivial
    | replace => trivial

/-- Only an insertion has new lines that could be those before it or behind it. -/
theorem Loose.insert_of_newLen_pos {i j : Nat} {e : Edit} (hk : isKeep e = false)
    (h : Loose old new i j e) (hl : 0 < e.newLen) : ∃ o len, e = insert o j len := by
  cases e with
  | keep => simp [isKeep] at hk
  | delete => simp [newLen] at hl
  | insert o n len =>
    obtain rfl : n = j := h
    exact ⟨o, len, rfl⟩
  | replace => exact h.elim

namespace Focus

def edits (f : Focus) : List Edit := f.before.reverse ++ f.this :: f.after

/-- The edit is the first one, and the lines behind it begin as it does. -/
def AboutToSlide (old new : Array Line) (f : Focus) : Prop :=
  f.before = [] ∧ 0 < f.this.newLen ∧
    ∃ o n len es, f.after = keep o n len :: es ∧ sameAt old new o f.this.newStart = true

/-- What holds of a script while one of its edits slides. -/
structure Sliding (old new : Array Line) (f : Focus) : Prop where
  change : isKeep f.this = false
  spans : Spans (Loose old new) 0 0 f.edits old.size new.size
  anchored : Anchored f.edits ∨ AboutToSlide old new f

/-- What holds of a script when one of its edits has slid. -/
structure Settled (old new : Array Line) (f : Focus) : Prop where
  change : isKeep f.this = false
  spans : Spans (Loose old new) 0 0 f.edits old.size new.size
  anchored : Anchored f.edits

theorem spans_keepAfter {i j s k l : Nat} {es : List Edit} (hs : 0 < s)
    (ha : Agree old new i j s) (h : Spans (Loose old new) (i + s) (j + s) es k l) :
    Spans (Loose old new) i j (keepAfter i j s es) k l := by
  unfold keepAfter
  split
  · next o n len es =>
    obtain ⟨⟨hlen, rfl, rfl, ha'⟩, hes⟩ := h
    have hmore : Agree old new i j (len + s) := by
      rw [Nat.add_comm]
      exact agree_add.mpr ⟨ha, ha'⟩
    refine ⟨⟨by omega, by omega, by omega, hmore⟩, ?_⟩
    simpa only [oldLen, newLen, Nat.add_assoc, Nat.add_comm s len] using hes
  · exact ⟨⟨hs, rfl, rfl, ha⟩, h⟩

theorem spans_keepBefore {i j a b s : Nat} {before : List Edit} (hs : 0 < s)
    (ha : Agree old new a b s) (h : Spans (Loose old new) i j before.reverse a b) :
    Spans (Loose old new) i j (keepBefore a b s before).reverse (a + s) (b + s) := by
  unfold keepBefore
  split
  · next o n len rest =>
    rw [List.reverse_cons] at h ⊢
    obtain ⟨c, d, hrest, ⟨hlen, rfl, rfl, ha'⟩, rfl, rfl⟩ := spans_append.mp h
    refine spans_append.mpr ⟨o, n, hrest, ⟨by omega, rfl, rfl, agree_add.mpr ⟨ha', ha⟩⟩, ?_⟩
    simp only [Spans, oldLen, newLen]
    omega
  · rw [List.reverse_cons]
    exact spans_append.mpr ⟨a, b, h, ⟨hs, rfl, rfl, ha⟩, rfl, rfl⟩

/-- Two edits of one kind may be joined. -/
theorem spans_merge {i j k l : Nat} {e f : Edit} {es : List Edit} (hs : sameKind e f = true)
    (h : Spans (Loose old new) i j (e :: f :: es) k l) :
    Spans (Loose old new) i j (e.longer f.changeLen :: es) k l := by
  obtain ⟨he, hf, hes⟩ := h
  cases e <;> cases f <;> simp [sameKind] at hs
  all_goals
    refine ⟨he, ?_⟩
    simpa only [longer, changeLen, oldLen, newLen, Nat.add_assoc] using hes

/-- Two changes of different kinds may change places. -/
theorem spans_swap {i j k l : Nat} {e f : Edit} {es : List Edit} (hs : sameKind e f = false)
    (he : isKeep e = false) (hf : isKeep f = false)
    (h : Spans (Loose old new) i j (e :: f :: es) k l) :
    Spans (Loose old new) i j (f :: e :: es) k l := by
  obtain ⟨hpe, hpf, hes⟩ := h
  cases e <;> cases f <;>
    simp only [sameKind, isKeep, Loose, reduceCtorEq] at hs he hf hpe hpf
  all_goals
    refine ⟨hpf, hpe, ?_⟩
    simpa only [oldLen, newLen, Nat.add_zero] using hes

theorem anchored_merge {e f : Edit} {es : List Edit} (hs : sameKind e f = true)
    (h : Anchored (e :: f :: es)) : Anchored (e.longer f.changeLen :: es) := by
  cases e <;> cases f <;> simp [sameKind] at hs
  · trivial
  · exact h

theorem removesFirst_merge {e f : Edit} {es : List Edit} (hs : sameKind e f = true)
    (h : removesFirst (e :: f :: es) = true) :
    removesFirst (e.longer f.changeLen :: es) = true := by
  cases e <;> cases f <;> simp [sameKind] at hs
  · rfl
  · exact h

/-- Sliding towards the start by `s` lines, of which some are left. -/
theorem spans_slide_up {i j k l o n len s : Nat} {this : Edit} {after : List Edit}
    (hk : isKeep this = false) (hs : 0 < s) (hlen : s ≤ len) (hnew : s ≤ this.newLen)
    (ha : Agree old new (o + len - s) (this.newStart + this.newLen - s) s)
    (h : Spans (Loose old new) i j (keep o n len :: this :: after) k l) :
    (len - s = 0 → Spans (Loose old new) i j
      (this.earlier s ::
        keepAfter (o + len - s) (this.newStart + this.newLen - s) s after) k l) ∧
    (0 < len - s → Spans (Loose old new) i j
      (keep o n (len - s) :: this.earlier s ::
        keepAfter (o + len - s) (this.newStart + this.newLen - s) s after) k l) := by
  obtain ⟨⟨hl, rfl, rfl, hkeep⟩, hthis, hafter⟩ := h
  obtain ⟨o', m, rfl⟩ := Loose.insert_of_newLen_pos hk hthis (by omega)
  simp only [oldLen, newLen, newStart, Nat.add_zero] at *
  have hmoved : Spans (Loose old new) (o + (len - s)) (n + (len - s))
      ((insert o' (n + len) m).earlier s :: keepAfter (o + len - s) (n + len + m - s) s after)
      k l := by
    refine ⟨by show n + len - s = _; omega, ?_⟩
    simp only [earlier, oldLen, newLen, Nat.add_zero]
    rw [show o + len - s = o + (len - s) by omega,
      show n + len + m - s = n + (len - s) + m by omega] at ha ⊢
    refine spans_keepAfter hs ha ?_
    rwa [show o + (len - s) + s = o + len by omega,
      show n + (len - s) + m + s = n + len + m by omega]
  constructor
  · intro h0
    simpa only [h0, Nat.add_zero] using hmoved
  · intro hpos
    exact ⟨⟨hpos, rfl, rfl, hkeep.mono (by omega)⟩, hmoved⟩

theorem isKeep_earlier (k : Nat) (e : Edit) : isKeep (e.earlier k) = isKeep e := by
  cases e <;> rfl

theorem isKeep_later (k : Nat) (e : Edit) : isKeep (e.later k) = isKeep e := by
  cases e <;> rfl

theorem isKeep_longer (k : Nat) (e : Edit) : isKeep (e.longer k) = isKeep e := by
  cases e <;> rfl

theorem isKeep_of_ne_keep {e : Edit} (h : ∀ o n len, e ≠ keep o n len) : isKeep e = false := by
  cases e with
  | keep o n len => exact absurd rfl (h o n len)
  | delete => rfl
  | insert => rfl
  | replace => rfl

/-- Edits in front of the focus, seen from the end of the script. -/
theorem edits_cons (e : Edit) (before : List Edit) (this : Edit) (after : List Edit) :
    (Focus.mk (e :: before) this after).edits = before.reverse ++ e :: this :: after := by
  simp [edits]

theorem Sliding.anchored_of_before {before : List Edit} {this : Edit} {after : List Edit}
    (h : Sliding old new ⟨before, this, after⟩) (hb : before ≠ []) :
    Anchored (Focus.mk before this after).edits :=
  h.anchored.resolve_right fun ha => hb ha.1

/-- An edit that passes all of the first stretch has the start of that stretch behind it. -/
theorem aboutToSlide_of_first {o n len k l : Nat} {this : Edit} {after : List Edit} {s : Nat}
    (hk : isKeep this = false) (hs : 0 < s) (hlen : s = len) (hnew : s ≤ this.newLen)
    (h : Spans (Loose old new) 0 0 (keep o n len :: this :: after) k l) :
    AboutToSlide old new ⟨[], this.earlier s,
      keepAfter (o + len - s) (this.newStart + this.newLen - s) s after⟩ := by
  obtain ⟨⟨hl, rfl, rfl, hkeep⟩, hthis, hafter⟩ := h
  obtain ⟨o', m, rfl⟩ := Loose.insert_of_newLen_pos hk hthis (by omega)
  simp only [oldLen, newLen, newStart, Nat.zero_add, Nat.add_zero] at *
  subst hlen
  have hsame : sameAt old new 0 0 = true := hkeep 0 hl
  refine ⟨rfl, by show 0 < m; omega, ?_⟩
  unfold keepAfter
  split
  · next o₂ n₂ len₂ es =>
    obtain ⟨⟨_, rfl, rfl, _⟩, _⟩ := hafter
    refine ⟨_, _, _, _, rfl, ?_⟩
    simpa [earlier, newStart] using hsame
  · refine ⟨_, _, _, _, rfl, ?_⟩
    simpa [earlier, newStart] using hsame

theorem Sliding.merge_up {e : Edit} {rest : List Edit} {this : Edit} {after : List Edit}
    (h : Sliding old new ⟨e :: rest, this, after⟩) (hs : sameKind e this = true) :
    Sliding old new ⟨rest, e.longer this.changeLen, after⟩ := by
  have ha := h.anchored_of_before (List.cons_ne_nil e rest)
  have hsp := h.spans
  rw [edits_cons] at ha hsp
  refine ⟨?_, ?_, Or.inl ?_⟩
  · rw [isKeep_longer]
    cases e <;> cases this <;> simp [sameKind] at hs <;> rfl
  · exact hsp.replace_end fun a b => spans_merge hs
  · exact ha.replace_end (fun _ => anchored_merge hs) (removesFirst_merge hs)

theorem Sliding.swap_up {e : Edit} {rest : List Edit} {this : Edit} {after : List Edit}
    (h : Sliding old new ⟨e :: rest, this, after⟩) (he : isKeep e = false)
    (hs : sameKind e this = false) : Sliding old new ⟨rest, this, e :: after⟩ := by
  have ha := h.anchored_of_before (List.cons_ne_nil e rest)
  have hsp := h.spans
  rw [edits_cons] at ha hsp
  obtain ⟨a, b, _, hpe, hpt, _⟩ := spans_append.mp hsp
  have hthis : isKeep this = false := h.change
  refine ⟨hthis, hsp.replace_end fun a b => spans_swap hs he hthis, Or.inl ?_⟩
  cases e <;> cases this <;>
    simp only [sameKind, isKeep, Loose, reduceCtorEq] at hs he hthis hpe hpt
  · exact ha.replace_end (fun _ _ => Or.inr rfl) id
  · exact ha.replace_end (fun _ _ => trivial) id

theorem Sliding.pass_up {o n len : Nat} {rest : List Edit} {this : Edit} {after : List Edit}
    (h : Sliding old new ⟨keep o n len :: rest, this, after⟩) {s : Nat}
    (hs : s = sameBefore old new (o + len) (this.newStart + this.newLen) (min len this.newLen))
    (hpos : 0 < s) :
    (len - s = 0 → Sliding old new ⟨rest, this.earlier s,
      keepAfter (o + len - s) (this.newStart + this.newLen - s) s after⟩) ∧
    (0 < len - s → Sliding old new ⟨keep o n (len - s) :: rest, this.earlier s,
      keepAfter (o + len - s) (this.newStart + this.newLen - s) s after⟩) := by
  have ha := h.anchored_of_before (List.cons_ne_nil _ rest)
  have hsp := h.spans
  have hthis : isKeep this = false := h.change
  have hle : s ≤ min len this.newLen := hs ▸ sameBefore_le old new _ _ _
  have hagree : Agree old new (o + len - s) (this.newStart + this.newLen - s) s := by
    rw [hs]
    exact sameBefore_agree (by omega) (by omega)
  have hchange : isKeep (this.earlier s) = false := by rw [isKeep_earlier, hthis]
  rw [edits_cons] at ha hsp
  constructor
  · intro h0
    refine ⟨hchange, hsp.replace_end fun a b hab =>
      (spans_slide_up hthis hpos (by omega) (by omega) hagree hab).1 h0, ?_⟩
    cases rest with
    | nil => exact Or.inr (aboutToSlide_of_first hthis hpos (by omega) (by omega) hsp)
    | cons e rest =>
      refine Or.inl (ha.replace_end (fun he => ?_) nofun)
      simp at he
  · intro hlen
    refine ⟨hchange, ?_, Or.inl ?_⟩
    · rw [edits_cons]
      exact hsp.replace_end fun a b hab =>
        (spans_slide_up hthis hpos (by omega) (by omega) hagree hab).2 hlen
    · rw [edits_cons]
      exact ha.replace_end (fun _ _ => trivial) nofun

/-- A stretch that is kept is never empty. -/
theorem Sliding.len_pos {o n len : Nat} {rest : List Edit} {this : Edit} {after : List Edit}
    (h : Sliding old new ⟨keep o n len :: rest, this, after⟩) : 0 < len := by
  have hsp := h.spans
  rw [edits_cons] at hsp
  obtain ⟨a, b, _, hk, _⟩ := spans_append.mp hsp
  exact hk.1

theorem Sliding.up (before : List Edit) (this : Edit) (after : List Edit)
    (h : Sliding old new ⟨before, this, after⟩) :
    Sliding old new (Focus.up old new before this after) := by
  fun_induction Focus.up old new before this after with
  | case1 => exact h
  | case2 this after o n len rest k hk after' h0 ih => exact ih ((h.pass_up rfl hk.1).1 h0)
  | case3 this after o n len rest k hk after' h0 ih =>
    exact ih ((h.pass_up rfl hk.1).2 (Nat.pos_of_ne_zero h0))
  | case4 this after o n rest k hk ih => exact absurd h.len_pos (Nat.lt_irrefl 0)
  | case5 => exact h
  | case6 this after e rest hk hs ih => exact ih (h.merge_up hs)
  | case7 this after e rest hk hs ih =>
    exact ih (h.swap_up (isKeep_of_ne_keep hk) (by simpa using hs))

theorem Sliding.settled {before : List Edit} {this : Edit} {after : List Edit}
    (h : Sliding old new ⟨before, this, after⟩)
    (hn : ∀ o n len es, after = keep o n len :: es →
      sameFrom old new o this.newStart (min len this.newLen) = 0) :
    Settled old new ⟨before, this, after⟩ := by
  refine ⟨h.change, h.spans, h.anchored.resolve_right ?_⟩
  rintro ⟨rfl, hnew, o, n, len, es, rfl, hsame⟩
  obtain ⟨_, hkeep, _⟩ := h.spans
  have hpos : 0 < sameFrom old new o this.newStart (min len this.newLen) :=
    sameFrom_pos hsame (Nat.lt_min.mpr ⟨hkeep.1, hnew⟩)
  have h0 := hn o n len es rfl
  omega

theorem Sliding.not_about {before : List Edit} {this : Edit} {after : List Edit}
    (h : Sliding old new ⟨before, this, after⟩) (hn : ∀ o n len es, after ≠ keep o n len :: es) :
    Anchored (Focus.mk before this after).edits :=
  (h.settled fun o n len es he => absurd he (hn o n len es)).anchored

theorem Sliding.merge_down {e : Edit} {before : List Edit} {this : Edit} {rest : List Edit}
    (h : Sliding old new ⟨before, this, e :: rest⟩) (hs : sameKind this e = true) :
    Sliding old new ⟨before, this.longer e.changeLen, rest⟩ := by
  have he : ∀ o n len es, e :: rest ≠ keep o n len :: es := by
    rintro o n len es heq
    obtain ⟨rfl, -⟩ := List.cons.inj heq
    cases this <;> simp [sameKind] at hs
  refine ⟨?_, h.spans.replace_end fun a b => spans_merge hs, Or.inl ?_⟩
  · rw [isKeep_longer]
    exact h.change
  · exact (h.not_about he).replace_end (fun _ => anchored_merge hs) (removesFirst_merge hs)

theorem Sliding.swap_down {e : Edit} {before : List Edit} {this : Edit} {rest : List Edit}
    (h : Sliding old new ⟨before, this, e :: rest⟩) (he : isKeep e = false)
    (hs : sameKind this e = false) : Sliding old new ⟨e :: before, this, rest⟩ := by
  have hne : ∀ o n len es, e :: rest ≠ keep o n len :: es := by
    rintro o n len es heq
    obtain ⟨rfl, -⟩ := List.cons.inj heq
    simp [isKeep] at he
  have ha := h.not_about hne
  have hsp := h.spans
  have hthis : isKeep this = false := h.change
  obtain ⟨a, b, _, hpt, hpe, _⟩ := spans_append.mp hsp
  refine ⟨hthis, ?_, Or.inl ?_⟩
  · rw [edits_cons]
    exact hsp.replace_end fun a b => spans_swap hs hthis he
  · rw [edits_cons]
    cases e <;> cases this <;>
      simp only [sameKind, isKeep, Loose, reduceCtorEq] at hs he hthis hpe hpt
    · exact ha.replace_end (fun _ _ => trivial) id
    · exact ha.replace_end (fun _ _ => Or.inr rfl) id

theorem anchored_keepBefore {i j s : Nat} {before ys zs : List Edit}
    (h : before ≠ [] → Anchored (before.reverse ++ ys)) (hy : removesFirst ys = false) :
    Anchored ((keepBefore i j s before).reverse ++ zs) := by
  have hyz (ws : List Edit) : removesFirst ys = true → removesFirst ws = true := by simp [hy]
  unfold keepBefore
  split
  · next o n len rest =>
    have ha := h (List.cons_ne_nil _ _)
    rw [List.reverse_cons, List.append_assoc] at ha ⊢
    exact ha.replace_end (fun _ _ => trivial) nofun
  · rw [List.reverse_cons, List.append_assoc]
    cases before with
    | nil => trivial
    | cons e rest =>
      refine (h (List.cons_ne_nil _ _)).replace_end (fun he => ?_) (hyz _)
      simp at he

/-- Sliding towards the end by `s` lines puts them in front. -/
theorem Sliding.pass_down {o n len : Nat} {before : List Edit} {this : Edit} {rest : List Edit}
    (h : Sliding old new ⟨before, this, keep o n len :: rest⟩) {s : Nat}
    (hs : s = sameFrom old new o this.newStart (min len this.newLen)) (hpos : 0 < s) :
    (len - s = 0 → Sliding old new ⟨keepBefore o this.newStart s before, this.later s, rest⟩) ∧
    (0 < len - s → Sliding old new ⟨keepBefore o this.newStart s before, this.later s,
      keep (o + s) (n + s) (len - s) :: rest⟩) := by
  have hthis : isKeep this = false := h.change
  have hchange : isKeep (this.later s) = false := by rw [isKeep_later, hthis]
  have hle : s ≤ min len this.newLen := hs ▸ sameFrom_le old new _ _ _
  obtain ⟨a, b, hbefore, hplace, ⟨hlen, ho, hn, hkeep⟩, hrest⟩ := spans_append.mp h.spans
  obtain ⟨o', m, rfl⟩ := Loose.insert_of_newLen_pos hthis hplace (by omega)
  simp only [oldLen, newLen, newStart, Nat.add_zero] at *
  have hagree : Agree old new a b s := by
    rw [hs, ho]
    exact sameFrom_agree _ _ _
  subst ho hn
  have hfront := spans_keepBefore hpos hagree hbefore
  have hins : Loose old new (o + s) (b + s) ((insert o' b m).later s) := rfl
  have hanchored (zs : List Edit) : Anchored ((keepBefore o b s before).reverse ++ zs) := by
    refine anchored_keepBefore (fun hb => h.anchored.resolve_right fun ha => hb ha.1) ?_
    rfl
  constructor
  · intro h0
    refine ⟨hchange, spans_append.mpr ⟨_, _, hfront, hins, ?_⟩, Or.inl (hanchored _)⟩
    simpa [later, oldLen, newLen, show s = len by omega, Nat.add_right_comm] using hrest
  · intro hpos'
    refine ⟨hchange, spans_append.mpr ⟨_, _, hfront, hins, ?_⟩, Or.inl (hanchored _)⟩
    rw [show len = s + (len - s) by omega] at hkeep hrest
    obtain ⟨-, hkeep'⟩ := agree_add.mp hkeep
    simp only [later, oldLen, newLen, Nat.add_zero]
    refine ⟨⟨hpos', rfl, by omega, ?_⟩, ?_⟩
    · rwa [Nat.add_right_comm]
    · simpa only [oldLen, newLen, Nat.add_assoc, Nat.add_comm m, Nat.add_left_comm m] using hrest

theorem Sliding.len_pos_after {o n len : Nat} {before : List Edit} {this : Edit} {rest : List Edit}
    (h : Sliding old new ⟨before, this, keep o n len :: rest⟩) : 0 < len := by
  obtain ⟨a, b, _, _, hk, _⟩ := spans_append.mp h.spans
  exact hk.1

theorem Sliding.down (before : List Edit) (this : Edit) (after : List Edit)
    (h : Sliding old new ⟨before, this, after⟩) :
    Settled old new (Focus.down old new before this after) := by
  fun_induction Focus.down old new before this after with
  | case1 =>
    refine h.settled ?_
    intro o n len es heq
    cases heq
  | case2 before this o n len rest k hk before' h0 ih => exact ih ((h.pass_down rfl hk.1).1 h0)
  | case3 before this o n len rest k hk before' h0 ih =>
    exact ih ((h.pass_down rfl hk.1).2 (Nat.pos_of_ne_zero h0))
  | case4 before this o n rest k hk ih => exact absurd h.len_pos_after (Nat.lt_irrefl 0)
  | case5 before this o n len rest k hk hlen =>
    refine h.settled ?_
    rintro o' n' len' es heq
    cases heq
    exact Nat.eq_zero_of_not_pos fun hpos => hk ⟨hpos, Nat.pos_of_ne_zero hlen⟩
  | case6 before this e rest hk hs ih => exact ih (h.merge_down hs)
  | case7 before this e rest hk hs ih =>
    exact ih (h.swap_down (isKeep_of_ne_keep hk) (by simpa using hs))

end Focus

/-- What compaction keeps of a script. -/
structure Placed (old new : Array Line) (es : List Edit) : Prop where
  spans : Spans (Loose old new) 0 0 es old.size new.size
  anchored : Anchored es

theorem Focus.Kind.isKeep {p : Edit → Bool} (hp : Focus.Kind p) {e : Edit} (h : p e = true) :
    isKeep e = false := by
  cases e with
  | keep o n len => simp [hp.keep] at h
  | delete => rfl
  | insert => rfl
  | replace => rfl

theorem placed_slideAll {p : Edit → Bool} (hp : Focus.Kind p) (before es : List Edit)
    (h : Placed old new (before.reverse ++ es)) :
    Placed old new (slideAll old new p hp before es) := by
  fun_induction slideAll old new p hp before es with
  | case1 before => simpa using h
  | case2 before e rest he f g ih =>
    have hs : Focus.Sliding old new ⟨before, e, rest⟩ := ⟨hp.isKeep he, h.spans, Or.inl h.anchored⟩
    have hg : Focus.Settled old new g := (hs.up before e rest).down
    refine ih ?_
    have hl : (g.this :: g.before).reverse ++ g.after = g.edits := by simp [Focus.edits]
    rw [hl]
    exact ⟨hg.spans, hg.anchored⟩
  | case3 before e rest he ih =>
    refine ih ?_
    rw [List.reverse_cons, List.append_assoc]
    exact h

theorem placed_compact {es : List Edit} (h : Placed old new es) :
    Placed old new (compact old new es) :=
  placed_slideAll _ [] _ (placed_slideAll _ [] _ h)

end Patchwork.Edit
