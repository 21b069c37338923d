import Mathlib
import Patchwork.Edit.Basic

/-!
# Scripts and the lines they take

A script spans two lists of lines when each edit takes its lines where the edit before it stops.  How
much of an edit's position has to be right for that is a parameter.  A change stands right on the side
of its own lines only, before changes are joined (`Loose`) and afterwards (`Own`).
-/
namespace Patchwork.Edit

open Text (Line)

variable {old new : Array Line}

/-- The lines from positions `i` and `j` on are the same, `len` of them. -/
def Agree (old new : Array Line) (i j len : Nat) : Prop :=
  ∀ t < len, sameAt old new (i + t) (j + t) = true

theorem Agree.zero (i j : Nat) : Agree old new i j 0 := by
  intro t ht
  omega

theorem agree_add {i j m n : Nat} :
    Agree old new i j (m + n) ↔ Agree old new i j m ∧ Agree old new (i + m) (j + m) n := by
  constructor
  · intro h
    refine ⟨fun t ht => h t (by omega), fun t ht => ?_⟩
    have := h (m + t) (by omega)
    simpa only [Nat.add_assoc] using this
  · rintro ⟨hm, hn⟩ t ht
    by_cases hlt : t < m
    · exact hm t hlt
    · have := hn (t - m) (by omega)
      simpa only [Nat.add_assoc, Nat.add_sub_cancel' (Nat.le_of_not_lt hlt)] using this

theorem Agree.mono {i j m n : Nat} (h : Agree old new i j n) (hm : m ≤ n) :
    Agree old new i j m := fun t ht => h t (by omega)

theorem sameFrom_go_spec (old new : Array Line) (i j n k : Nat) (hk : Agree old new i j k) :
    Agree old new i j (sameFrom.go old new i j n k) ∧
      k ≤ sameFrom.go old new i j n k ∧ sameFrom.go old new i j n k ≤ k + n := by
  induction n generalizing k with
  | zero => exact ⟨hk, Nat.le_refl _, Nat.le_refl _⟩
  | succ n ih =>
    rw [sameFrom.go]
    split
    · next h =>
      have hk' : Agree old new i j (k + 1) := by
        intro t ht
        rcases Nat.lt_succ_iff_lt_or_eq.mp ht with hlt | rfl
        · exact hk t hlt
        · exact h
      obtain ⟨ha, hle, hub⟩ := ih (k + 1) hk'
      exact ⟨ha, by omega, by omega⟩
    · exact ⟨hk, Nat.le_refl _, by omega⟩

theorem sameFrom_agree (i j limit : Nat) : Agree old new i j (sameFrom old new i j limit) :=
  (sameFrom_go_spec old new i j limit 0 (Agree.zero i j)).1

theorem sameFrom_le (old new : Array Line) (i j limit : Nat) :
    sameFrom old new i j limit ≤ limit := by
  have h := (sameFrom_go_spec old new i j limit 0 (Agree.zero i j)).2.2
  rwa [Nat.zero_add] at h

/-- If the first lines are the same, then some are found. -/
theorem sameFrom_pos {i j limit : Nat} (h : sameAt old new i j = true) (hl : 0 < limit) :
    0 < sameFrom old new i j limit := by
  cases limit with
  | zero => omega
  | succ n =>
    have h1 : Agree old new i j 1 := by
      intro t ht
      obtain rfl : t = 0 := by omega
      exact h
    have hgo : sameFrom old new i j (n + 1) = sameFrom.go old new i j n 1 := by
      rw [sameFrom, sameFrom.go]
      exact if_pos h
    rw [hgo]
    exact (sameFrom_go_spec old new i j n 1 h1).2.1

theorem sameBefore_go_spec (old new : Array Line) (i j n k : Nat)
    (hk : ∀ t < k, sameAt old new (i - 1 - t) (j - 1 - t) = true) :
    (∀ t < sameBefore.go old new i j n k, sameAt old new (i - 1 - t) (j - 1 - t) = true) ∧
      sameBefore.go old new i j n k ≤ k + n := by
  induction n generalizing k with
  | zero => exact ⟨hk, Nat.le_refl _⟩
  | succ n ih =>
    rw [sameBefore.go]
    split
    · next h =>
      have hk' : ∀ t < k + 1, sameAt old new (i - 1 - t) (j - 1 - t) = true := by
        intro t ht
        rcases Nat.lt_succ_iff_lt_or_eq.mp ht with hlt | rfl
        · exact hk t hlt
        · exact h
      obtain ⟨ha, hub⟩ := ih (k + 1) hk'
      exact ⟨ha, by omega⟩
    · exact ⟨hk, by omega⟩

theorem sameBefore_le (old new : Array Line) (i j limit : Nat) :
    sameBefore old new i j limit ≤ limit := by
  have h := (sameBefore_go_spec old new i j limit 0 (by intro t ht; omega)).2
  rwa [Nat.zero_add] at h

theorem sameBefore_agree {i j limit : Nat} (hi : limit ≤ i) (hj : limit ≤ j) :
    Agree old new (i - sameBefore old new i j limit) (j - sameBefore old new i j limit)
      (sameBefore old new i j limit) := by
  intro t ht
  have hle := sameBefore_le old new i j limit
  have h := (sameBefore_go_spec old new i j limit 0 (by intro t ht; omega)).1
    (sameBefore old new i j limit - 1 - t) (by rw [← sameBefore]; omega)
  rwa [show i - 1 - (sameBefore old new i j limit - 1 - t) =
      i - sameBefore old new i j limit + t by omega,
    show j - 1 - (sameBefore old new i j limit - 1 - t) =
      j - sameBefore old new i j limit + t by omega] at h

/-- How an edit has to stand at positions `i` and `j`. -/
abbrev Placing := Nat → Nat → Edit → Prop

/-- Each edit stands where the ones before it stop; they lead from `i` and `j` to `k` and `l`. -/
def Spans (place : Placing) : Nat → Nat → List Edit → Nat → Nat → Prop
  | i, j, [], k, l => i = k ∧ j = l
  | i, j, e :: es, k, l => place i j e ∧ Spans place (i + e.oldLen) (j + e.newLen) es k l

/-- A kept stretch stands right on both sides, a change on the side of its own lines; a deletion stands
somewhere within the new lines. -/
def Own (old new : Array Line) : Placing
  | i, j, keep o n len => o = i ∧ n = j ∧ Agree old new i j len
  | i, _, delete o _ n => o = i ∧ n ≤ new.size
  | _, j, insert _ n _ => n = j
  | i, j, replace o _ n _ => o = i ∧ n = j

/-- As `Own`, where no kept stretch is empty and nothing has been joined to a replacement. -/
def Loose (old new : Array Line) : Placing
  | _, _, replace .. => False
  | i, j, keep o n len => 0 < len ∧ Own old new i j (keep o n len)
  | i, j, e => Own old new i j e

theorem Loose.own {i j : Nat} {e : Edit} (h : Loose old new i j e) : Own old new i j e := by
  cases e with
  | keep => exact h.2
  | delete => exact h
  | insert => exact h
  | replace => exact h.elim

theorem spans_append {p : Placing} {i j k l : Nat} {xs ys : List Edit} :
    Spans p i j (xs ++ ys) k l ↔ ∃ a b, Spans p i j xs a b ∧ Spans p a b ys k l := by
  induction xs generalizing i j with
  | nil =>
    constructor
    · exact fun h => ⟨i, j, ⟨rfl, rfl⟩, h⟩
    · rintro ⟨a, b, ⟨rfl, rfl⟩, h⟩
      exact h
  | cons x xs ih =>
    simp only [List.cons_append, Spans, ih]
    constructor
    · rintro ⟨hx, a, b, hxs, hys⟩
      exact ⟨a, b, ⟨hx, hxs⟩, hys⟩
    · rintro ⟨a, b, ⟨hx, hxs⟩, hys⟩
      exact ⟨hx, a, b, hxs, hys⟩

/-- The end of a script may be replaced by one that spans the same lines. -/
theorem Spans.replace_end {p : Placing} {i j k l : Nat} {xs ys zs : List Edit}
    (h : Spans p i j (xs ++ ys) k l)
    (hyz : ∀ a b, Spans p a b ys k l → Spans p a b zs k l) : Spans p i j (xs ++ zs) k l := by
  obtain ⟨a, b, hxs, hys⟩ := spans_append.mp h
  exact spans_append.mpr ⟨a, b, hxs, hyz a b hys⟩

theorem Spans.le {p : Placing} {i j k l : Nat} {es : List Edit} (h : Spans p i j es k l) :
    i ≤ k ∧ j ≤ l := by
  induction es generalizing i j with
  | nil =>
    obtain ⟨rfl, rfl⟩ := h
    exact ⟨Nat.le_refl _, Nat.le_refl _⟩
  | cons e es ih =>
    obtain ⟨hi, hj⟩ := ih h.2
    exact ⟨by omega, by omega⟩

/-- The first edit of a script stands at the old line `i`. -/
def StartsAt (i : Nat) (es : List Edit) : Prop := ∀ e ∈ es.head?, e.oldStart = i

theorem StartsAt.append {i : Nat} {xs ys : List Edit} (hx : StartsAt i xs)
    (hy : xs = [] → StartsAt i ys) : StartsAt i (xs ++ ys) := by
  cases xs with
  | nil => exact hy rfl
  | cons x xs => exact hx

theorem StartsAt.replace_end {i : Nat} {xs ys zs : List Edit} {y : Edit}
    (h : StartsAt i (xs ++ y :: ys)) (hz : xs = [] → y.oldStart = i → StartsAt i zs) :
    StartsAt i (xs ++ zs) := by
  cases xs with
  | nil => exact hz rfl (h y rfl)
  | cons x xs => exact h

/-- Some lines stand in an array from position `i` on. -/
def Stands (ls : Array Line) (i : Nat) (xs : List Line) : Prop :=
  ∃ p q, ls.toList = p ++ xs ++ q ∧ p.length = i

theorem stands_toList (ls : Array Line) : Stands ls 0 ls.toList := ⟨[], [], by simp, rfl⟩

theorem Stands.le {ls : Array Line} {i : Nat} {xs : List Line} (h : Stands ls i xs) : i ≤ ls.size := by
  obtain ⟨before, after, hls, rfl⟩ := h
  rw [← Array.length_toList, hls, List.length_append, List.length_append]
  omega

theorem Stands.append {ls : Array Line} {i : Nat} {xs ys : List Line}
    (h : Stands ls i (xs ++ ys)) : Stands ls i xs ∧ Stands ls (i + xs.length) ys := by
  obtain ⟨p, q, hls, hp⟩ := h
  refine ⟨⟨p, ys ++ q, by simp [hls], hp⟩, ⟨p ++ xs, q, by simp [hls], by simp [hp]⟩⟩

theorem Stands.getElem? {ls : Array Line} {i : Nat} {xs : List Line} (h : Stands ls i xs) {t : Nat}
    (ht : t < xs.length) : ls[i + t]? = xs[t]? := by
  obtain ⟨p, q, hls, rfl⟩ := h
  rw [← Array.getElem?_toList, hls, List.append_assoc, List.getElem?_append_right (by omega),
    Nat.add_sub_cancel_left, List.getElem?_append_left ht]

theorem sameAt_of_getElem? {i j : Nat} {x : Line} (hi : old[i]? = some x)
    (hj : new[j]? = some x) : sameAt old new i j = true := by
  obtain ⟨hi', hx⟩ := Array.getElem?_eq_some_iff.mp hi
  obtain ⟨hj', hy⟩ := Array.getElem?_eq_some_iff.mp hj
  rw [sameAt, dif_pos ⟨hi', hj'⟩, hx, hy, beq_self_eq_true]

/-- The same lines on both sides agree. -/
theorem Stands.agree {i j : Nat} {xs : List Line} (ho : Stands old i xs) (hn : Stands new j xs) :
    Agree old new i j xs.length := by
  intro t ht
  have hx : xs[t]? = some xs[t] := List.getElem?_eq_getElem ht
  exact sameAt_of_getElem? ((ho.getElem? ht).trans hx) ((hn.getElem? ht).trans hx)

end Patchwork.Edit
