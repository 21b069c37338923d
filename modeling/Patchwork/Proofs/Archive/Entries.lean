import Patchwork.Archive.Entry
import Patchwork.Proofs.Volume.Paths

/-!
# Names of entries

However many slashes stand at the ends of a name, the path of the entry is the same.  The directories on
the way to a path are different from each other and closed under taking these slashes away.
-/
namespace Patchwork

namespace Text

variable {p : Char → Bool} {s t : Text}

/-- What is dropped at the end of a text satisfies the predicate. -/
theorem exists_dropEnd (p : Char → Bool) (t : Text) :
    ∃ s, t = dropEnd p t ++ s ∧ ∀ c ∈ s, p c = true := by
  refine ⟨(t.reverse.takeWhile p).reverse, ?_, fun c hc => ?_⟩
  · rw [dropEnd, ← List.reverse_append, List.takeWhile_append_dropWhile, List.reverse_reverse]
  · exact List.mem_takeWhile_imp (List.mem_reverse.mp hc)

theorem dropEnd_append (hs : ∀ c ∈ s, p c = true) : dropEnd p (t ++ s) = dropEnd p t := by
  rw [dropEnd, dropEnd, List.reverse_append,
    List.dropWhile_append_of_pos fun c hc => hs c (List.mem_reverse.mp hc)]

theorem dropBoth_append (hs : ∀ c ∈ s, p c = true) : dropBoth p (t ++ s) = dropBoth p t := by
  rw [dropBoth, dropBoth, List.dropWhile_append]
  split
  · next h =>
    have hnil : t.dropWhile p = [] := List.isEmpty_iff.mp h
    have hnils : s.dropWhile p = [] := List.dropWhile_eq_nil_iff.mpr hs
    rw [hnil, hnils]
  · exact dropEnd_append hs

theorem dropBoth_dropWhile (t : Text) : dropBoth p (t.dropWhile p) = dropBoth p t := by
  rw [dropBoth, dropBoth, List.dropWhile_idempotent]

theorem dropBoth_dropBoth (t : Text) : dropBoth p (dropBoth p t) = dropBoth p t := by
  obtain ⟨s, heq, hs⟩ := exists_dropEnd p (t.dropWhile p)
  calc dropBoth p (dropBoth p t) = dropBoth p (dropEnd p (t.dropWhile p) ++ s) :=
        (dropBoth_append hs).symm
    _ = dropBoth p (t.dropWhile p) := by rw [← heq]
    _ = dropBoth p t := dropBoth_dropWhile t

end Text

namespace Entry

variable {path name p q d : Text}

theorem normalize_relative (name : Text) : normalize (relative name) = normalize name := by
  rw [normalize, normalize, relative, Text.dropBoth_dropWhile]

theorem normalize_append_slash (name : Text) : normalize (name ++ ['/']) = normalize name := by
  rw [normalize, normalize, Text.dropBoth_append (by simp)]

theorem normalize_cons_slash (name : Text) : normalize ('/' :: name) = normalize name := by
  have hdrop := Text.dropBoth_dropWhile (p := (· = '/')) ('/' :: name)
  have hname := Text.dropBoth_dropWhile (p := (· = '/')) name
  rw [List.dropWhile_cons_of_pos (by rfl), hname] at hdrop
  rw [normalize, normalize, hdrop]

@[simp] theorem normalize_normalize (name : Text) : normalize (normalize name) = normalize name := by
  show normalize ('/' :: Text.dropBoth (· = '/') name) = normalize name
  rw [normalize_cons_slash, normalize, normalize, Text.dropBoth_dropBoth]

/-- Slashes at the ends of a path do not matter. -/
theorem normalize_padded (front back : Nat) (path : Text) :
    normalize (List.replicate front '/' ++ path ++ List.replicate back '/') = normalize path := by
  have hback : normalize (path ++ List.replicate back '/') = normalize path := by
    rw [normalize, normalize, Text.dropBoth_append (by simp)]
  rw [List.append_assoc, ← hback]
  induction front with
  | zero => rfl
  | succ front ih => rw [List.replicate_succ, List.cons_append, normalize_cons_slash, ih]

theorem mem_ancestors {dir : Text} : dir ∈ ancestors path ↔
    ∃ i, 0 < i ∧ path[i]? = some '/' ∧ path.take i = dir := by
  simp only [ancestors, List.mem_filterMap, List.mem_range]
  constructor
  · rintro ⟨i, _, hi⟩
    split at hi
    · next h =>
      cases hi
      exact ⟨i, h.1, h.2, rfl⟩
    · cases hi
  · rintro ⟨i, hpos, hi, rfl⟩
    exact ⟨i, (List.getElem?_eq_some_iff.mp hi).1, by rw [if_pos ⟨hpos, hi⟩]⟩

theorem length_lt_of_mem_ancestors (h : p ∈ ancestors q) : p.length < q.length := by
  obtain ⟨i, _, hi, rfl⟩ := mem_ancestors.mp h
  have hlt := (List.getElem?_eq_some_iff.mp hi).1
  rw [List.length_take]
  omega

theorem prefix_of_mem_ancestors (h : p ∈ ancestors q) : p <+: q := by
  obtain ⟨i, _, _, rfl⟩ := mem_ancestors.mp h
  exact List.take_prefix i q

/-- What is on the way to the start of a path is on the way to the path. -/
theorem mem_ancestors_of_prefix (h : d ∈ ancestors p) (hpq : p <+: q) : d ∈ ancestors q := by
  obtain ⟨i, hpos, hi, rfl⟩ := mem_ancestors.mp h
  obtain ⟨t, rfl⟩ := hpq
  have hlt := (List.getElem?_eq_some_iff.mp hi).1
  refine mem_ancestors.mpr ⟨i, hpos, ?_, ?_⟩
  · rwa [List.getElem?_append_left hlt]
  · rw [List.take_append_of_le_length hlt.le]

theorem head?_trimmed (name : Text) : (Text.dropBoth (· = '/') name).head? ≠ some '/' := by
  obtain ⟨s, heq, _⟩ := Text.exists_dropEnd (· = '/') (name.dropWhile (· = '/'))
  intro h
  obtain ⟨t, ht⟩ := List.head?_eq_some_iff.mp h
  have hfirst := List.head?_dropWhile_not (· = '/') name
  rw [heq, ← Text.dropBoth, ht] at hfirst
  exact absurd hfirst (by simp)

theorem dropWhile_slash (h : path.head? ≠ some '/') : path.dropWhile (· = '/') = path := by
  cases path with
  | nil => rfl
  | cons c path => exact List.dropWhile_cons_of_neg fun hc => h (congrArg some (of_decide_eq_true hc))

theorem relative_normalize (name : Text) : relative (normalize name) = Text.dropBoth (· = '/') name := by
  rw [relative, normalize, List.dropWhile_cons_of_pos (by rfl), dropWhile_slash (head?_trimmed name)]

theorem getLast?_trimmed (name : Text) : (Text.dropBoth (· = '/') name).getLast? ≠ some '/' := by
  rw [Text.dropBoth, Text.dropEnd, List.getLast?_reverse]
  intro h
  have hfirst := List.head?_dropWhile_not (· = '/') (name.dropWhile (· = '/')).reverse
  rw [h] at hfirst
  exact absurd hfirst (by simp)

/-- A directory on the way to a path is on the way to it without the slashes at its end, too. -/
theorem normalize_mem_ancestors {dir : Text} (h : dir ∈ ancestors (normalize name)) :
    normalize dir ∈ ancestors (normalize name) := by
  obtain ⟨i, hpos, hi, rfl⟩ := mem_ancestors.mp h
  obtain ⟨k, rfl⟩ := Nat.exists_eq_succ_of_ne_zero (Nat.ne_of_gt hpos)
  have hhead := head?_trimmed name
  rw [normalize] at hi ⊢
  generalize Text.dropBoth (· = '/') name = t at hi hhead ⊢
  rw [List.getElem?_cons_succ] at hi
  rw [List.take_succ_cons, normalize_cons_slash, normalize]
  have hk : k < t.length := (List.getElem?_eq_some_iff.mp hi).1
  have htake : (t.take k).dropWhile (· = '/') = t.take k := by
    refine dropWhile_slash fun hfirst => hhead ?_
    obtain ⟨u, hu⟩ := List.head?_eq_some_iff.mp hfirst
    rw [← List.take_append_drop k t, hu]
    rfl
  rw [Text.dropBoth, htake]
  obtain ⟨s, heq, hs⟩ := Text.exists_dropEnd (· = '/') (t.take k)
  generalize Text.dropEnd (· = '/') (t.take k) = d at heq ⊢
  have hd : t.take d.length = d := by
    have hle : d.length ≤ k := by
      have hlen := congrArg List.length heq
      rw [List.length_take, List.length_append] at hlen
      omega
    rw [← Nat.min_eq_left hle, ← List.take_take, heq, List.take_left]
  refine mem_ancestors.mpr ⟨d.length + 1, Nat.succ_pos _, ?_, ?_⟩
  · rw [List.getElem?_cons_succ]
    cases s with
    | nil =>
      rw [List.append_nil] at heq
      rw [← heq, List.length_take, Nat.min_eq_left hk.le, hi]
    | cons c s =>
      have hc : c = '/' := of_decide_eq_true (hs c List.mem_cons_self)
      have hget : (t.take k)[d.length]? = some '/' := by rw [heq, hc]; simp
      rw [List.getElem?_take] at hget
      split at hget
      · exact hget
      · cases hget
  · rw [List.take_succ_cons, hd]

theorem normalize_mem_chain {dir : Text} (h : dir ∈ chain path) : normalize dir ∈ chain path := by
  simp only [chain, List.mem_append] at h ⊢
  rcases h with h | h
  · exact Or.inl (normalize_mem_ancestors h)
  · split at h
    · cases h
    · next hroot =>
      rw [List.mem_singleton.mp h, normalize_normalize, if_neg hroot]
      exact Or.inr (List.mem_singleton_self _)

theorem nodup_ancestors (path : Text) : (ancestors path).Nodup := by
  refine List.nodup_range.filterMap fun i j dir hi hj => ?_
  obtain ⟨⟨_, hi⟩, hdi⟩ := Option.ite_none_right_eq_some.mp hi
  obtain ⟨⟨_, hj⟩, hdj⟩ := Option.ite_none_right_eq_some.mp hj
  have hlen := congrArg List.length (Option.some.inj (hdi.trans hdj.symm))
  rw [List.length_take, List.length_take, Nat.min_eq_left (List.getElem?_eq_some_iff.mp hi).1.le,
    Nat.min_eq_left (List.getElem?_eq_some_iff.mp hj).1.le] at hlen
  exact hlen

theorem nodup_chain (path : Text) : (chain path).Nodup := by
  refine (nodup_ancestors _).append ?_ ?_
  · split
    · exact List.nodup_nil
    · exact List.nodup_singleton _
  · intro dir hdir hself
    split at hself
    · cases hself
    · rw [List.mem_singleton.mp hself] at hdir
      exact Nat.lt_irrefl _ (length_lt_of_mem_ancestors hdir)

/-- The parent of a path lies on the way to it. -/
theorem parent?_mem_ancestors {dir : Text} (h : parent? path = some dir) : dir ∈ ancestors path := by
  unfold parent? at h
  obtain ⟨last, hlast, rfl | ⟨above, rfl⟩⟩ := Path.exists_last_part path
  · rw [Text.cutLast?_of_not_mem hlast] at h
    cases h
  · rw [Text.cutLast?_append hlast] at h
    dsimp only at h
    split at h
    · cases h
    · next hne =>
      cases h
      exact mem_ancestors.mpr ⟨dir.length, List.length_pos_iff.mpr hne, by simp, by simp⟩

end Entry

end Patchwork
