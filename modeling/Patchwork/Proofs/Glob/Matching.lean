import Patchwork.Glob.FilterSet

/-!
# What a glob matches

A glob goes through the text of a regular expression.  The text is read back as the items of the
pattern's tokens and nothing else, whatever characters the pattern has; and the table of a match
holds an answer for each end of the path, so that it decides what the items stand for.  Together, a
glob matches exactly what its pattern stands for behind the slash of the root.
-/
namespace Patchwork.Glob

variable {c : Char} {m : CharClass} {k : Token} {ks : List Token} {i : Item} {is : List Item}
  {s t p path : Text} {g : Glob}

/-! ### What items stand for -/

/-- The texts that an item stands for. -/
def Item.Covers (i : Item) (t : Text) : Prop :=
  if i.many then ∀ c ∈ t, i.members.has c = true else ∃ c, i.members.has c = true ∧ t = [c]

/-- The texts that items stand for, one after the other. -/
inductive Reads : List Item → Text → Prop
  | nil : Reads [] []
  | cons {i : Item} {is : List Item} {s t : Text} :
      i.Covers s → Reads is t → Reads (i :: is) (s ++ t)

@[simp]
theorem reads_nil : Reads [] t ↔ t = [] := by
  constructor
  · intro h
    cases h
    rfl
  · rintro rfl
    exact .nil

theorem reads_cons : Reads (i :: is) t ↔ ∃ s u, t = s ++ u ∧ i.Covers s ∧ Reads is u := by
  constructor
  · intro h
    cases h with
    | cons hs hu => exact ⟨_, _, rfl, hs, hu⟩
  · rintro ⟨s, u, rfl, hs, hu⟩
    exact .cons hs hu

@[simp]
theorem matches_nil : Matches [] t ↔ t = [] := by
  constructor
  · intro h
    cases h
    rfl
  · rintro rfl
    exact .nil

theorem matches_cons :
    Matches (k :: ks) t ↔ ∃ s u, t = s ++ u ∧ k.Covers s ∧ Matches ks u := by
  constructor
  · intro h
    cases h with
    | cons hs hu => exact ⟨_, _, rfl, hs, hu⟩
  · rintro ⟨s, u, rfl, hs, hu⟩
    exact .cons hs hu

@[simp]
theorem not_reads_one_nil : ¬ Reads (⟨m, false⟩ :: is) [] := by
  intro h
  obtain ⟨s, u, hsu, ⟨c, -, rfl⟩, -⟩ := reads_cons.mp h
  simp at hsu

theorem reads_one_cons :
    Reads (⟨m, false⟩ :: is) (c :: t) ↔ m.has c = true ∧ Reads is t := by
  constructor
  · intro h
    obtain ⟨s, u, hsu, ⟨d, hd, rfl⟩, hu⟩ := reads_cons.mp h
    obtain ⟨rfl, rfl⟩ := List.cons.inj hsu
    exact ⟨hd, hu⟩
  · rintro ⟨hc, ht⟩
    exact .cons (s := [c]) ⟨c, hc, rfl⟩ ht

theorem reads_many_of_reads (h : Reads is t) : Reads (⟨m, true⟩ :: is) t :=
  .cons (s := []) (fun c hc => by simp at hc) h

@[simp]
theorem reads_many_nil : Reads (⟨m, true⟩ :: is) [] ↔ Reads is [] := by
  refine ⟨fun h => ?_, reads_many_of_reads⟩
  obtain ⟨s, u, hsu, -, hu⟩ := reads_cons.mp h
  obtain ⟨-, rfl⟩ := List.nil_eq_append_iff.mp hsu
  exact hu

/-- A repeated class is left behind, or takes one character more. -/
theorem reads_many_cons : Reads (⟨m, true⟩ :: is) (c :: t) ↔
    Reads is (c :: t) ∨ m.has c = true ∧ Reads (⟨m, true⟩ :: is) t := by
  constructor
  · intro h
    obtain ⟨s, u, hsu, hs, hu⟩ := reads_cons.mp h
    have hs : ∀ d ∈ s, m.has d = true := hs
    cases s with
    | nil => exact .inl (hsu ▸ hu)
    | cons d s =>
      obtain ⟨rfl, rfl⟩ := List.cons.inj hsu
      exact .inr ⟨hs c (by simp), .cons (i := ⟨m, true⟩) (fun d hd => hs d (by simp [hd])) hu⟩
  · rintro (h | ⟨hc, h⟩)
    · exact reads_many_of_reads h
    · obtain ⟨s, u, rfl, hs, hu⟩ := reads_cons.mp h
      have hs : ∀ d ∈ s, m.has d = true := hs
      exact .cons (i := ⟨m, true⟩) (s := c :: s) (List.forall_mem_cons.mpr ⟨hc, hs⟩) hu

/-! ### The table of a match -/

/-- The answers for the ends of the rest of a text are the ends of the answers. -/
theorem tail_rows_cons (is : List Item) : (rows (c :: t) is).tail = rows t is := by
  induction is with
  | nil => simp [rows]
  | cons i is ih =>
    rw [rows, rows]
    cases hr : rows (c :: t) is with
    | nil =>
      have hnil : rows t is = [] := by simpa [hr] using ih.symm
      rw [hnil]
      cases t <;> simp [Item.row]
    | cons b bs =>
      rw [hr] at ih
      have hb : bs = rows t is := ih
      simp only [Item.row, List.tail_cons, hb]

theorem rows_ne_nil (t : Text) (is : List Item) : rows t is ≠ [] := by
  induction is generalizing t with
  | nil => simp [rows]
  | cons i is ih =>
    rw [rows]
    obtain ⟨b, bs, hb⟩ := List.exists_cons_of_ne_nil (ih t)
    rw [hb]
    cases t with
    | nil => cases hm : i.many <;> simp [Item.row, hm]
    | cons c t => simp [Item.row]

theorem rows_cons_eq (c : Char) (t : Text) (is : List Item) :
    rows (c :: t) is = accepts is (c :: t) :: rows t is := by
  obtain ⟨b, bs, hb⟩ := List.exists_cons_of_ne_nil (rows_ne_nil (c :: t) is)
  have htail := tail_rows_cons (c := c) (t := t) is
  rw [hb] at htail
  rw [accepts, hb, ← htail]
  rfl

theorem accepts_nil : accepts [] t = t.isEmpty := by
  cases t <;> simp [accepts, rows]

theorem accepts_cons_nil : accepts (i :: is) [] = (i.many && accepts is []) := by
  obtain ⟨b, bs, hb⟩ := List.exists_cons_of_ne_nil (rows_ne_nil [] is)
  cases hm : i.many <;> simp [accepts, rows, Item.row, hm, hb]

theorem accepts_cons_cons : accepts (i :: is) (c :: t) =
    if i.many then accepts is (c :: t) || (i.members.has c && accepts (i :: is) t)
    else i.members.has c && accepts is t := by
  rw [accepts, rows, rows_cons_eq, Item.row, List.headD_cons]
  rfl

/-- The table decides what the items stand for. -/
theorem accepts_iff : accepts is t = true ↔ Reads is t := by
  induction is generalizing t with
  | nil => rw [accepts_nil, reads_nil, List.isEmpty_iff]
  | cons i is ih =>
    obtain ⟨m, many⟩ := i
    cases many with
    | false =>
      cases t with
      | nil => simp [accepts_cons_nil]
      | cons c t => simp [accepts_cons_cons, reads_one_cons, ih]
    | true =>
      -- the item stays where it is while the text gets shorter
      induction t with
      | nil => simp [accepts_cons_nil, ih]
      | cons c t iht => simp [accepts_cons_cons, reads_many_cons, ih, iht]

/-! ### The expression of a pattern -/

/-- What a token is as an item of an expression. -/
def Token.item : Token → Item
  | anyDeep => ⟨.notLineFeed, true⟩
  | any => ⟨.except '/', true⟩
  | char c => ⟨.only c, false⟩

theorem Token.covers_item : k.item.Covers t ↔ k.Covers t := by
  cases k with
  | anyDeep => simp [item, Item.Covers, CharClass.has, Token.Covers, List.forall_mem_ne']
  | any => simp [item, Item.Covers, CharClass.has, Token.Covers, List.forall_mem_ne']
  | char c => simp [item, Item.Covers, CharClass.has, Token.Covers]

theorem reads_items : Reads (ks.map Token.item) t ↔ Matches ks t := by
  induction ks generalizing t with
  | nil => rw [List.map_nil, reads_nil, matches_nil]
  | cons k ks ih => simp only [List.map_cons, reads_cons, matches_cons, Token.covers_item, ih]

/-- What comes behind a token starts with no star: a star of the pattern is escaped. -/
theorem head?_sources_ne (ks : List Token) :
    (ks.flatMap Token.source ++ ['$']).head? ≠ some '*' := by
  cases ks with
  | nil => decide
  | cons k ks =>
    cases k with
    | anyDeep => simp [Token.source]
    | any => simp [Token.source]
    | char c =>
      by_cases hc : isSpecial c = true
      · simp [Token.source, hc]
      · have hne : c ≠ '*' := by
          rintro rfl
          exact hc (by decide)
        simpa [Token.source, hc] using hne

/-- A character of a pattern is read back as itself. -/
theorem readAtom?_char (c : Char) (t : Text) :
    readAtom? ((Token.char c).source ++ t) = some (.one (.only c), t) := by
  by_cases hc : isSpecial c = true
  · simp [Token.source, hc, readAtom?]
  · have h1 : c ≠ '\\' := by rintro rfl; exact hc (by decide)
    have h2 : c ≠ '.' := by rintro rfl; exact hc (by decide)
    have h3 : c ≠ '[' := by rintro rfl; exact hc (by decide)
    have h4 : c ≠ '$' := by rintro rfl; exact hc (by decide)
    simp only [Token.source, if_neg hc, List.cons_append, List.nil_append]
    unfold readAtom?
    split <;> simp_all

theorem readItems?_one (h : readAtom? s = some (.one m, t)) (ht : t.head? ≠ some '*') :
    readItems? s = (readItems? t).map (⟨m, false⟩ :: ·) := by
  rw [readItems?]
  split <;> simp_all

theorem readItems?_many (h : readAtom? s = some (.one m, '*' :: t)) :
    readItems? s = (readItems? t).map (⟨m, true⟩ :: ·) := by
  rw [readItems?]
  split <;> simp_all

theorem readItems?_sources (ks : List Token) :
    readItems? (ks.flatMap Token.source ++ ['$']) = some (ks.map Token.item) := by
  induction ks with
  | nil => rw [readItems?]; rfl
  | cons k ks ih =>
    rw [List.flatMap_cons, List.append_assoc]
    cases k with
    | anyDeep =>
      rw [readItems?_many (m := .notLineFeed) (t := ks.flatMap Token.source ++ ['$']) rfl, ih]
      rfl
    | any =>
      rw [readItems?_many (m := .except '/') (t := ks.flatMap Token.source ++ ['$']) rfl, ih]
      rfl
    | char c =>
      rw [readItems?_one (readAtom?_char c _) (head?_sources_ne ks), ih]
      rfl

/-- The expression of a pattern is well formed, and is the slash of the root with the pattern's
tokens behind it. -/
theorem parse?_source (p : Text) :
    parse? (source p) = some (⟨.only '/', false⟩ :: (tokens p).map Token.item) := by
  have h := readItems?_one (s := '/' :: ((tokens p).flatMap Token.source ++ ['$'])) rfl
    (head?_sources_ne (tokens p))
  rw [readItems?_sources] at h
  exact h

/-- Nothing but its size keeps a pattern from being compiled. -/
theorem compile_eq (p : Text) : compile p =
    if size (⟨.only '/', false⟩ :: (tokens p).map Token.item) ≤ sizeLimit then
      .ok ⟨p, ⟨.only '/', false⟩ :: (tokens p).map Token.item⟩
    else .error (.invalidPattern p (.tooLarge sizeLimit)) := by
  rw [compile, parse?_source]

theorem compile_eq_ok (h : compile p = .ok g) :
    g = ⟨p, ⟨.only '/', false⟩ :: (tokens p).map Token.item⟩ := by
  rw [compile_eq] at h
  split at h
  · exact (Except.ok.inj h).symm
  · cases h

/-! ### Patterns and paths -/

/-- The path without the slash of the root. -/
def unrooted (path : Text) : Text := if path.head? = some '/' then path.tail else path

theorem rooted_eq (path : Text) : rooted path = '/' :: unrooted path := by
  unfold rooted unrooted
  split
  · next h =>
    cases path with
    | nil => cases h
    | cons c t => rw [Option.some.inj h, List.tail_cons]
  · rfl

theorem reads_root {is : List Item} :
    Reads (⟨.only '/', false⟩ :: is) (rooted path) ↔ Reads is (unrooted path) := by
  rw [rooted_eq, reads_one_cons]
  simp [CharClass.has]

theorem tokens_of_not_mem (h : '*' ∉ p) : tokens p = p.map Token.char := by
  induction p with
  | nil => rfl
  | cons c p ih =>
    obtain ⟨hc, hp⟩ := not_or.mp (fun hcp => h (List.mem_cons.mpr hcp))
    rw [tokens, ih hp, List.map_cons]
    · intro t hstar
      exact absurd hstar.symm hc
    · intro hstar
      exact hc hstar.symm

theorem matches_chars : Matches (p.map Token.char) t ↔ t = p := by
  induction p generalizing t with
  | nil => rw [List.map_nil, matches_nil]
  | cons c p ih =>
    simp only [List.map_cons, matches_cons, ih, Token.Covers]
    constructor
    · rintro ⟨s, u, rfl, rfl, rfl⟩
      rfl
    · rintro rfl
      exact ⟨[c], p, rfl, rfl, rfl⟩

/-- A glob matches a path if and only if the expression of its pattern does, and that is so if and
only if the pattern's tokens stand for what is behind the path's first slash.  Without a star that
has to be the pattern itself. -/
theorem test_of_compile (h : compile p = .ok g) (path : Text) :
    (g.test path = true ↔ ∃ is, parse? (source p) = some is ∧ Reads is (rooted path)) ∧
    (g.test path = true ↔ ∃ t, rooted path = '/' :: t ∧ Matches (tokens p) t) ∧
    ('*' ∉ p → (g.test path = true ↔ unrooted path = p)) := by
  have htest : g.test path = true ↔ Matches (tokens p) (unrooted path) := by
    rw [compile_eq_ok h, test, accepts_iff, reads_root, reads_items]
  refine ⟨?_, ?_, ?_⟩
  · rw [htest, parse?_source]
    simp only [Option.some.injEq, exists_eq_left', reads_root, reads_items]
  · rw [htest, rooted_eq]
    simp only [List.cons.injEq, true_and, exists_eq_left']
  · intro hp
    rw [htest, tokens_of_not_mem hp, matches_chars]

/-- A plus stands for itself. -/
theorem test_of_compile_plus : ∃ g, compile "a+".toList = .ok g ∧
    g.test "/a+".toList = true ∧ g.test "aa".toList = false := by
  have h : compile "a+".toList = .ok ⟨"a+".toList,
      ⟨.only '/', false⟩ :: (tokens "a+".toList).map Token.item⟩ := by
    rw [compile_eq]
    exact if_pos (by decide)
  refine ⟨_, h, ?_, ?_⟩
  · exact ((test_of_compile h _).2.2 (by decide)).mpr (by decide)
  · have hne : unrooted "aa".toList ≠ "a+".toList := by decide
    exact Bool.eq_false_iff.mpr fun ht => hne (((test_of_compile h _).2.2 (by decide)).mp ht)

end Patchwork.Glob
