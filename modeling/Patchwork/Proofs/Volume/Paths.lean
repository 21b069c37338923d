import Mathlib
import Patchwork.Volume.Lookup

/-!
# Parts and steps of paths

A slash separates the parts of a path, so that the steps of a path in front of a slash come before the
steps behind it.  Names are parts that lead down.
-/
namespace Patchwork

theorem Text.cutLast?_append {c : Char} {t : Text} (h : c ∉ t) (s : Text) :
    cutLast? c (s ++ c :: t) = some (s, t) := by
  have hafter : (s ++ c :: t).reverse.takeWhile (· ≠ c) = t.reverse := by
    have hall : ∀ x ∈ t.reverse, decide (x ≠ c) = true := by
      intro x hx
      rw [decide_eq_true_eq]
      rintro rfl
      exact h (List.mem_reverse.mp hx)
    rw [List.reverse_append, List.reverse_cons, List.append_assoc, List.takeWhile_append_of_pos hall]
    simp
  have hbefore : (s ++ c :: t).reverse.drop (t.reverse.length + 1) = s.reverse := by
    rw [List.reverse_append, List.reverse_cons, ← List.length_singleton, ← List.length_append]
    exact List.drop_left
  unfold cutLast?
  rw [if_pos (by simp)]
  simp only [hafter, hbefore, List.reverse_reverse]

theorem Text.cutLast?_of_not_mem {c : Char} {t : Text} (h : c ∉ t) : cutLast? c t = none := if_neg h

theorem Text.exists_last {c : Char} {t : Text} (h : c ∈ t) : ∃ s u, c ∉ u ∧ t = s ++ c :: u := by
  obtain ⟨u, s, heq, hnot⟩ := List.eq_append_cons_of_mem (List.mem_reverse.mpr h)
  refine ⟨s.reverse, u.reverse, by simpa using hnot, ?_⟩
  rw [← List.reverse_reverse t, heq]
  simp

namespace Path

theorem parts_append_slash (s t : Text) : parts (s ++ '/' :: t) = parts s ++ parts t :=
  List.splitOn_append_cons_self s t

theorem parts_of_not_mem {t : Text} (h : '/' ∉ t) : parts t = [t] := List.splitOn_eq_singleton h

theorem not_mem_of_mem_parts {path part : Text} (h : part ∈ parts path) : '/' ∉ part := by
  induction hn : path.length using Nat.strongRecOn generalizing path with
  | ind n ih =>
    by_cases hs : '/' ∈ path
    · obtain ⟨first, rest, rfl, hfirst⟩ := List.eq_append_cons_of_mem hs
      rw [parts_append_slash, parts_of_not_mem hfirst, List.singleton_append] at h
      rcases List.mem_cons.mp h with rfl | h
      · exact hfirst
      · refine ih rest.length ?_ h rfl
        rw [← hn, List.length_append, List.length_cons]
        omega
    · rw [parts_of_not_mem hs, List.mem_singleton] at h
      rwa [h]

theorem ofParts_parts (path : Text) : ofParts (parts path) = path := List.intercalate_splitOn '/'

/-- A path is its last part, or ends with it behind a slash. -/
theorem exists_last_part (path : Text) :
    ∃ last, '/' ∉ last ∧ (path = last ∨ ∃ above, path = above ++ '/' :: last) := by
  by_cases h : '/' ∈ path
  · obtain ⟨above, last, hlast, heq⟩ := Text.exists_last h
    exact ⟨last, hlast, Or.inr ⟨above, heq⟩⟩
  · exact ⟨path, h, Or.inl rfl⟩

/-- A name that a file can have in a directory. -/
structure Name (name : Text) : Prop where
  step : Step.ofPart? name = some (.down name)
  noSlash : '/' ∉ name

instance (name : Text) : Decidable (Name name) :=
  decidable_of_iff (Step.ofPart? name = some (.down name) ∧ '/' ∉ name)
    ⟨fun h => ⟨h.1, h.2⟩, fun h => ⟨h.step, h.noSlash⟩⟩

variable {names : Place}

theorem Name.ne_nil {name : Text} (h : Name name) : name ≠ [] := by
  rintro rfl
  exact absurd h.step nofun

theorem ofParts_cons (name : Text) (h : names ≠ []) :
    ofParts (name :: names) = name ++ '/' :: ofParts names := by
  obtain ⟨next, names, rfl⟩ := List.exists_cons_of_ne_nil h
  rw [ofParts, List.intercalate_cons_cons, List.append_assoc]
  rfl

theorem ofParts_append {ps qs : List Text} (hp : ps ≠ []) (hq : qs ≠ []) :
    ofParts (ps ++ qs) = ofParts ps ++ '/' :: ofParts qs := by
  induction ps with
  | nil => exact absurd rfl hp
  | cons p ps ih =>
    by_cases hnil : ps = []
    · subst hnil
      rw [List.singleton_append, ofParts_cons p hq]
      simp [ofParts]
    · rw [List.cons_append, ofParts_cons p (by simp [hnil]), ih hnil, ofParts_cons p hnil,
        List.append_assoc]
      rfl

theorem parts_ofParts_of_not_mem {ps : List Text} (hs : ∀ part ∈ ps, '/' ∉ part) (h : ps ≠ []) :
    parts (ofParts ps) = ps := List.splitOn_intercalate '/' hs h

theorem parts_ofParts (hn : ∀ name ∈ names, Name name) (h : names ≠ []) :
    parts (ofParts names) = names :=
  parts_ofParts_of_not_mem (fun name hname => (hn name hname).noSlash) h

theorem not_isAbsolute_ofParts (hn : ∀ name ∈ names, Name name) (h : names ≠ []) :
    isAbsolute (ofParts names) = false := by
  obtain ⟨name, names, rfl⟩ := List.exists_cons_of_ne_nil h
  have hname := hn name List.mem_cons_self
  obtain ⟨c, t, rfl⟩ := List.exists_cons_of_ne_nil hname.ne_nil
  have hc : c ≠ '/' := fun hc => hname.noSlash (hc ▸ List.mem_cons_self)
  have hhead : (ofParts ((c :: t) :: names)).head? = some c := by
    cases names with
    | nil => rfl
    | cons next names => rw [ofParts_cons _ (List.cons_ne_nil _ _)]; rfl
  rw [isAbsolute, hhead]
  simpa using hc

theorem ofParts_eq_concat (hn : ∀ name ∈ names, Name name) (h : names ≠ []) :
    ∃ t c, ofParts names = t ++ [c] ∧ c ≠ '/' := by
  induction names with
  | nil => exact absurd rfl h
  | cons name names ih =>
    by_cases hnil : names = []
    · subst hnil
      have hname := hn name List.mem_cons_self
      rcases List.eq_nil_or_concat name with he | ⟨t, c, rfl⟩
      · exact absurd he hname.ne_nil
      · refine ⟨t, c, by simp [ofParts], fun hc => hname.noSlash ?_⟩
        simp [hc]
    · obtain ⟨t, c, ht, hc⟩ := ih (fun other ho => hn other (List.mem_cons_of_mem _ ho)) hnil
      refine ⟨name ++ '/' :: t, c, ?_, hc⟩
      rw [ofParts_cons _ hnil, ht, List.append_assoc]
      rfl

end Path

namespace Step

theorem ofPart?_isSome {part : Text} (h : part ≠ []) : (ofPart? part).isSome := by
  unfold ofPart?
  rw [if_neg h]
  split
  · rfl
  · split <;> rfl

theorem ofPath_ne_nil {path : Text} (h : path ≠ []) : ofPath path ≠ [] := by
  obtain ⟨last, hlast, hpath⟩ := Path.exists_last_part path
  have hmem : last ∈ Path.parts path := by
    rcases hpath with rfl | ⟨above, rfl⟩
    · rw [Path.parts_of_not_mem hlast]
      exact List.mem_singleton_self _
    · rw [Path.parts_append_slash, Path.parts_of_not_mem hlast]
      simp
  by_cases hnil : last = []
  · rcases hpath with rfl | ⟨above, rfl⟩
    · exact absurd hnil h
    · rw [ofPath, hnil, if_pos (by simp)]
      simp
  · obtain ⟨s, hs⟩ := Option.isSome_iff_exists.mp (ofPart?_isSome hnil)
    have hstep : s ∈ (Path.parts path).filterMap ofPart? := List.mem_filterMap.mpr ⟨last, hmem, hs⟩
    intro heq
    rw [(List.append_eq_nil_iff.mp heq).1] at hstep
    cases hstep

variable {names : Place} {dir : Text}

theorem filterMap_names (hn : ∀ name ∈ names, Path.Name name) :
    names.filterMap ofPart? = names.map .down := by
  rw [← List.filterMap_eq_map]
  exact List.filterMap_congr fun name hname => (hn name hname).step

/-- The steps of a longer path are those of the first one, but for a slash at its end, and the names. -/
theorem ofPath_join (hd : dir ≠ []) (hn : ∀ name ∈ names, Path.Name name) (h : names ≠ []) :
    ∃ core tail, ofPath dir = core ++ tail ∧ (tail = [] ∨ tail = [.slash]) ∧
      ofPath (Path.join dir (Path.ofParts names)) = core ++ names.map .down := by
  have hend (t : Text) : (t ++ '/' :: Path.ofParts names).getLast? ≠ some '/' := by
    obtain ⟨u, c, hu, hc⟩ := Path.ofParts_eq_concat hn h
    rw [hu, ← List.cons_append, ← List.append_assoc, List.getLast?_concat]
    simpa using hc
  have habs : ¬ (Path.isAbsolute (Path.ofParts names) = true ∨ dir = []) := by
    rw [Path.not_isAbsolute_ofParts hn h]
    simpa using hd
  have hsteps (t : Text) : ofPath (t ++ '/' :: Path.ofParts names) =
      (Path.parts t).filterMap ofPart? ++ names.map .down := by
    rw [ofPath, if_neg (hend t), Path.parts_append_slash, Path.parts_ofParts hn h,
      List.filterMap_append, filterMap_names hn, List.append_nil]
  unfold Path.join
  rw [if_neg habs]
  split
  · next hslash =>
    obtain ⟨t, rfl⟩ := List.getLast?_eq_some_iff.mp hslash
    refine ⟨(Path.parts t).filterMap ofPart?, [.slash], ?_, Or.inr rfl, ?_⟩
    · rw [ofPath, if_pos hslash, Path.parts_append_slash, List.filterMap_append]
      simp [Path.parts_of_not_mem, ofPart?]
    · rw [List.append_assoc]
      exact hsteps t
  · next hslash =>
    refine ⟨(Path.parts dir).filterMap ofPart?, [], ?_, Or.inl rfl, hsteps dir⟩
    rw [ofPath, if_neg hslash]

end Step

end Patchwork
