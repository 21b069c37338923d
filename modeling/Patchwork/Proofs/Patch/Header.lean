import Mathlib
import Patchwork.Patch.Parser

/-!
# Paths in header lines

A path that can be printed in a header line is read back from it, whether it had to be quoted or not.
-/
namespace Patchwork

namespace Text

theorem dropWhile_of_head? {p : Char → Bool} {t : Text} (h : ∀ c ∈ t.head?, p c = false) :
    t.dropWhile p = t := by
  cases t with
  | nil => rfl
  | cons c t =>
    have hc := h c rfl
    rw [List.dropWhile_cons, hc]
    rfl

/-- Characters are taken off the end only as far as a text in front of them that ends with another one. -/
theorem dropEnd_append_of_getLast? {p : Char → Bool} {s : Text} (h : ∀ c ∈ s.getLast?, p c = false) (t : Text) :
    dropEnd p (s ++ t) = s ++ dropEnd p t := by
  have hrev : s.reverse.dropWhile p = s.reverse := by
    refine dropWhile_of_head? fun c hc => h c ?_
    rwa [List.head?_reverse] at hc
  rw [dropEnd, dropEnd, List.reverse_append, List.dropWhile_append, hrev]
  split
  · next hnil => simp [List.isEmpty_iff.mp hnil]
  · rw [List.reverse_append, List.reverse_reverse]

theorem dropEnd_of_getLast? {p : Char → Bool} {t : Text} (h : ∀ c ∈ t.getLast?, p c = false) :
    dropEnd p t = t := by
  have happend := dropEnd_append_of_getLast? h []
  rwa [List.append_nil, show dropEnd p [] = [] from rfl, List.append_nil] at happend

theorem trim_of_ends {t : Text} (hhead : ∀ c ∈ t.head?, isBlank c = false)
    (hlast : ∀ c ∈ t.getLast?, isBlank c = false) : trim t = t := by
  rw [trim, dropBoth, dropWhile_of_head? hhead, dropEnd_of_getLast? hlast]

theorem body_append {s : Text} (h : ∀ c ∈ s.getLast?, endsLine c = false) (t : Text) :
    body (s ++ t) = s ++ body t := dropEnd_append_of_getLast? h t

theorem dropEnd_prefix_self (p : Char → Bool) (t : Text) : dropEnd p t <+: t := by
  have hsuffix := List.reverse_prefix.mpr (List.dropWhile_suffix (l := t.reverse) p)
  rwa [List.reverse_reverse] at hsuffix

theorem body_feed (t : Text) : body (t ++ ['\n']) = dropEnd endsLine t := by
  rw [body, dropEnd, List.reverse_append]
  rfl

/-- The body of a line is what stands before its line feed, unless that ends like a line. -/
theorem body_append_feed {t : Text} (h : ∀ c ∈ t.getLast?, endsLine c = false) :
    body (t ++ ['\n']) = t := by
  rw [body_feed, dropEnd_of_getLast? h]

theorem takeWhile_append_of_head? {p : Char → Bool} {s t : Text} (hs : ∀ c ∈ s, p c = true)
    (ht : ∀ c ∈ t.head?, p c = false) : (s ++ t).takeWhile p = s := by
  have hnone : t.takeWhile p = [] := by
    cases t with
    | nil => rfl
    | cons c t =>
      have hc := ht c rfl
      rw [List.takeWhile_cons, hc]
      rfl
  rw [List.takeWhile_append_of_pos hs, hnone, List.append_nil]

theorem dropWhile_append_of_head? {p : Char → Bool} {s t : Text} (hs : ∀ c ∈ s, p c = true)
    (ht : ∀ c ∈ t.head?, p c = false) : (s ++ t).dropWhile p = t := by
  rw [List.dropWhile_append_of_pos hs, dropWhile_of_head? ht]

theorem isPrefixOf?_append (s t : Text) : s.isPrefixOf? (s ++ t) = some t := by
  induction s with
  | nil => rfl
  | cons c s ih => simp [List.isPrefixOf?, ih]

end Text

namespace Header

/-- A path that header lines can hold: it has no tab and no line feed, and if it has no space, then
neither white space nor quotes at its ends are lost in reading. -/
structure Printable (path : Text) : Prop where
  ne_nil : path ≠ []
  noTab : '\t' ∉ path
  noFeed : '\n' ∉ path
  ends : ' ' ∈ path ∨
    (∀ c ∈ path.head?, Text.isBlank c = false) ∧ (∀ c ∈ path.getLast?, Text.isBlank c = false) ∧
      ¬ (path.head? = some '"' ∧ path.getLast? = some '"' ∧ 2 ≤ path.length)

instance (path : Text) : Decidable (Printable path) :=
  decidable_of_iff (path ≠ [] ∧ '\t' ∉ path ∧ '\n' ∉ path ∧ (' ' ∈ path ∨
      path.head?.all (!Text.isBlank ·) ∧ path.getLast?.all (!Text.isBlank ·) ∧
        ¬ (path.head? = some '"' ∧ path.getLast? = some '"' ∧ 2 ≤ path.length))) (by
    simp only [Option.all_eq_true, Bool.not_eq_true']
    exact ⟨fun h => ⟨h.1, h.2.1, h.2.2.1, h.2.2.2⟩, fun h => ⟨h.ne_nil, h.noTab, h.noFeed, h.ends⟩⟩)

theorem replacePair_cons_of_ne {a b c x : Char} (hx : x ≠ a) (t : Text) :
    replacePair a b c (x :: t) = x :: replacePair a b c t := by
  cases t with
  | nil => rfl
  | cons y t => rw [replacePair, if_neg fun h => hx h.1]

theorem replacePair_cons_of_head? {a b c : Char} (x : Char) {t : Text} (ht : t.head? ≠ some b) :
    replacePair a b c (x :: t) = x :: replacePair a b c t := by
  cases t with
  | nil => rfl
  | cons y t =>
    rw [replacePair, if_neg fun h => ht (congrArg some h.2)]

theorem replacePair_pair (a b c : Char) (t : Text) :
    replacePair a b c (a :: b :: t) = c :: replacePair a b c t := by
  rw [replacePair, if_pos ⟨rfl, rfl⟩]

/-- What escaping leaves once quotes have lost their backslash. -/
def doubleBackslash (c : Char) : Text := if c = '\\' then ['\\', '\\'] else [c]

theorem head?_escapeChar (path : Text) : (path.flatMap escapeChar).head? ≠ some '"' := by
  cases path with
  | nil => nofun
  | cons c path =>
    rw [List.flatMap_cons, escapeChar]
    split
    · simp
    · next h => simpa using fun hc => h (Or.inr hc)

theorem replacePair_escape (path : Text) :
    replacePair '\\' '"' '"' (path.flatMap escapeChar) = path.flatMap doubleBackslash := by
  induction path with
  | nil => rfl
  | cons c path ih =>
    have hhead := head?_escapeChar path
    rw [List.flatMap_cons, List.flatMap_cons, escapeChar, doubleBackslash]
    by_cases hb : c = '\\'
    · subst hb
      rw [if_pos (Or.inl rfl), if_pos rfl]
      simp only [List.cons_append, List.nil_append]
      rw [replacePair_cons_of_head? '\\' (by simp), replacePair_cons_of_head? '\\' hhead, ih]
    · by_cases hq : c = '"'
      · subst hq
        rw [if_pos (Or.inr rfl), if_neg hb]
        simp only [List.cons_append, List.nil_append]
        rw [replacePair_pair, ih]
      · rw [if_neg (by simp [hb, hq]), if_neg hb]
        simp only [List.cons_append, List.nil_append]
        rw [replacePair_cons_of_ne hb, ih]

theorem replacePair_doubled (path : Text) :
    replacePair '\\' '\\' '\\' (path.flatMap doubleBackslash) = path := by
  induction path with
  | nil => rfl
  | cons c path ih =>
    rw [List.flatMap_cons, doubleBackslash]
    split
    · next hb =>
      simp only [List.cons_append, List.nil_append]
      rw [replacePair_pair, ih, hb]
    · next hb =>
      simp only [List.cons_append, List.nil_append]
      rw [replacePair_cons_of_ne hb, ih]

theorem unescapeQuoted_escaped (path : Text) : unescapeQuoted (path.flatMap escapeChar) = path := by
  rw [unescapeQuoted, replacePair_escape, replacePair_doubled]

/-- A path that is quoted has quotes at its ends. -/
theorem ends_escape_of_space {path : Text} (h : ' ' ∈ path) :
    (∀ c ∈ (escape path).head?, Text.isBlank c = false) ∧
      ∀ c ∈ (escape path).getLast?, Text.isBlank c = false := by
  rw [escape, if_pos h]
  constructor
  · rintro c ⟨⟩
    rfl
  · intro c hc
    rw [List.getLast?_append] at hc
    cases hc
    rfl

theorem ends_escape {path : Text} (h : Printable path) :
    (∀ c ∈ (escape path).head?, Text.isBlank c = false) ∧
      ∀ c ∈ (escape path).getLast?, Text.isBlank c = false := by
  by_cases hs : ' ' ∈ path
  · exact ends_escape_of_space hs
  · obtain ⟨hhead, hlast, _⟩ := h.ends.resolve_left hs
    rw [escape, if_neg hs]
    exact ⟨hhead, hlast⟩

/-- A path that is quoted is read back, whatever characters it has. -/
theorem unescape_escape_of_space {path : Text} (h : ' ' ∈ path) : unescape (escape path) = path := by
  obtain ⟨hhead, hlast⟩ := ends_escape_of_space h
  rw [unescape, Text.trim_of_ends hhead hlast, escape, if_pos h]
  have hlast : ('"' :: path.flatMap escapeChar ++ ['"']).getLast? = some '"' := by
    rw [List.getLast?_append]
    rfl
  rw [if_pos ⟨rfl, hlast, by simp⟩]
  simp [unescapeQuoted_escaped]

theorem unescape_escape {path : Text} (h : Printable path) : unescape (escape path) = path := by
  by_cases hs : ' ' ∈ path
  · exact unescape_escape_of_space hs
  · obtain ⟨hhead, hlast⟩ := ends_escape h
    obtain ⟨_, _, hquoted⟩ := h.ends.resolve_left hs
    rw [unescape, Text.trim_of_ends hhead hlast, escape, if_neg hs, if_neg hquoted]

theorem not_mem_escape {path : Text} {c : Char} (hc : c ∉ path) (hb : c ≠ '\\') (hq : c ≠ '"') :
    c ∉ escape path := by
  unfold escape
  split
  · simp only [List.cons_append, List.mem_cons, List.mem_append, List.mem_flatMap, not_or]
    refine ⟨hq, ?_, hq, List.not_mem_nil⟩
    rintro ⟨d, hd, hcd⟩
    unfold escapeChar at hcd
    split at hcd
    · simp only [List.mem_cons, List.not_mem_nil, or_false, hb, false_or] at hcd
      exact hc (hcd ▸ hd)
    · rw [List.mem_singleton.mp hcd] at hc
      exact hc hd
  · exact hc

theorem escape_ne_nil {path : Text} (h : path ≠ []) : escape path ≠ [] := by
  unfold escape
  split
  · simp
  · exact h

theorem isBlank_of_endsLine {c : Char} (h : Text.endsLine c = true) : Text.isBlank c = true := by
  simp only [Text.endsLine, Bool.or_eq_true, beq_iff_eq] at h
  rcases h with rfl | rfl <;> rfl

/-- A header line does not lose the end of its path with the end of the line. -/
theorem not_endsLine_shown {path : Text} (h : Printable path) (mark : Text) :
    ∀ c ∈ (mark ++ escape path).getLast?, Text.endsLine c = false := by
  intro c hc
  rw [List.getLast?_append, Option.or_of_isSome (List.getLast?_isSome.mpr (escape_ne_nil h.ne_nil))] at hc
  cases he : Text.endsLine c with
  | false => rfl
  | true => rw [← isBlank_of_endsLine he, (ends_escape h).2 c hc]

/-- A path is read up to the first tab behind it. -/
theorem path?_shown {mark path rest : Text} {l : Text.Line} (h : Printable path)
    (hl : Text.body l = mark ++ escape path ++ rest) (hrest : ∀ c ∈ rest.head?, c = '\t') :
    path? mark l = some (escape path) := by
  have hall : ∀ c ∈ escape path, decide (c ≠ '\t') = true := by
    intro c hc
    exact decide_eq_true fun he => not_mem_escape h.noTab (by decide) (by decide) (he ▸ hc)
  have htab : (escape path ++ rest).takeWhile (· ≠ '\t') = escape path :=
    Text.takeWhile_append_of_head? hall fun c hc => by simp [hrest c hc]
  rw [path?, hl, List.append_assoc, Text.isPrefixOf?_append]
  simp only [htab]
  rw [if_neg (escape_ne_nil h.ne_nil)]

/-- A header line gives back the path that was printed into it. -/
theorem path?_escape {mark path : Text} (h : Printable path) :
    path? mark (mark ++ escape path ++ ['\n']) = some (escape path) := by
  have hbody : Text.body (mark ++ escape path ++ ['\n']) = mark ++ escape path ++ [] := by
    rw [Text.body_append_feed (not_endsLine_shown h mark), List.append_nil]
  exact path?_shown h hbody nofun

end Header

end Patchwork
