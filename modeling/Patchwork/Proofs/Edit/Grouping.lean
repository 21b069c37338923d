import Patchwork.Proofs.Edit.Alternation

/-!
# Groups of a script

A script is cut where it keeps more lines than the groups on both sides take, so between two groups there are
lines that belong to neither.  A group keeps few lines in front of its first change, behind its last one and
between two of them.
-/
namespace Patchwork.Edit

variable {e : Edit} {es group : List Edit} {n : Nat}

/-- The first group of what is cut starts with what was read first. -/
theorem head?_cut {first : List Edit} (h : (cut n (e :: group) es).head? = some first) : ∃ more, first = e :: more := by
  induction es generalizing group with
  | nil =>
    unfold cut at h
    split at h
    · cases h
    · cases h
    · cases h
      exact ⟨group, rfl⟩
  | cons f es ih =>
    have hjoin : (cut n (e :: group ++ [f]) es).head? = some first → ∃ more, first = e :: more := ih
    cases f with
    | keep o p len =>
      rw [cut] at h
      split at h
      · cases h
        exact ⟨_, rfl⟩
      · exact hjoin h
    | delete => exact hjoin h
    | insert => exact hjoin h
    | replace => exact hjoin h

theorem ne_nil_of_mem_cut {g : List Edit} (h : g ∈ cut n group es) : g ≠ [] := by
  induction es generalizing group with
  | nil =>
    unfold cut at h
    split at h
    · cases h
    · cases h
    · next hnil _ =>
      rw [List.mem_singleton.mp h]
      exact hnil
  | cons e es ih =>
    cases e with
    | delete | insert | replace => exact ih h
    | keep o p len =>
      rw [cut] at h
      split at h
      · rcases List.mem_cons.mp h with rfl | h
        · exact List.append_ne_nil_of_right_ne_nil _ (List.cons_ne_nil _ _)
        · exact ih h
      · exact ih h

/-- A group ends with `n` kept lines, and the next one starts with `n` kept lines further on. -/
def Parted (n : Nat) (first second : List Edit) : Prop :=
  ∃ front o p rest o' p', first = front ++ [keep o p n] ∧ second = keep o' p' n :: rest ∧
    o + n < o' ∧ p + n < p'

theorem parted_cut (n : Nat) (group es : List Edit) : (cut n group es).IsChain (Parted n) := by
  induction es generalizing group with
  | nil =>
    unfold cut
    split
    · exact .nil
    · exact .nil
    · exact .singleton _
  | cons e es ih =>
    cases e with
    | delete | insert | replace => exact ih _
    | keep o p len =>
      rw [cut]
      split
      · next hlen =>
        refine List.isChain_cons.mpr ⟨fun second hsecond => ?_, ih _⟩
        obtain ⟨rest, rfl⟩ := head?_cut hsecond
        have hkeep : len - (len - n) = n := by omega
        refine ⟨group, o, p, rest, o + (len - n), p + (len - n), rfl, ?_, by omega, by omega⟩
        rw [hkeep]
      · exact ih _

/-! ### What groups keep -/

/-- The number of lines that a kept stretch takes; a change keeps none. -/
def keptLen : Edit → Nat
  | keep _ _ len => len
  | _ => 0

theorem keptLen_of_change (h : isKeep e = false) : keptLen e = 0 := by
  cases e with
  | keep => cases h
  | delete | insert | replace => rfl

theorem keptLen_of_ne_keep (h : ∀ o p len, e ≠ keep o p len) : keptLen e = 0 :=
  keptLen_of_change (Focus.isKeep_of_ne_keep h)

/-- A script that begins and ends with few kept lines. -/
structure Trimmed (n : Nat) (es : List Edit) : Prop where
  full : ∀ e ∈ es, Full e
  apart : es.IsChain Apart
  first : ∀ e ∈ es.head?, keptLen e ≤ n
  last : ∀ e ∈ es.getLast?, keptLen e ≤ n

/-- A group with a change, and with few kept lines around and between its changes. -/
structure Framed (n : Nat) (g : List Edit) : Prop extends Trimmed n g where
  change : ∃ e ∈ g, isKeep e = false
  len : ∀ e ∈ g, keptLen e ≤ 2 * n

theorem exists_change (h : es.IsChain Apart) (hnil : es ≠ []) (hkeep : ∀ o p len, es ≠ [keep o p len]) :
    ∃ e ∈ es, isKeep e = false := by
  cases es with
  | nil => exact absurd rfl hnil
  | cons e es =>
    cases hk : isKeep e with
    | false => exact ⟨e, List.mem_cons_self, hk⟩
    | true =>
      cases es with
      | nil =>
        cases e with
        | keep o p len => exact absurd rfl (hkeep o p len)
        | delete | insert | replace => cases hk
      | cons f es => exact ⟨f, List.mem_cons_of_mem _ List.mem_cons_self, (List.isChain_cons_cons.mp h).1 hk⟩

/-- A kept stretch of a trimmed script that is longer than what a group takes of it stands between changes. -/
theorem Trimmed.framed_of_cut {o p len : Nat} (h : Trimmed n (group ++ keep o p len :: es)) (hlen : 2 * n < len)
    (hgroup : ∀ e ∈ group, keptLen e ≤ 2 * n) : Framed n (group ++ [keep o p n]) := by
  obtain ⟨hchain, -, hborder⟩ := List.isChain_append.mp h.apart
  have hne : group ≠ [] := by
    rintro rfl
    -- the first stretch of a trimmed script is too short to be cut
    have hfirst : len ≤ n := h.first _ rfl
    omega
  have hchange : ∀ x ∈ group.getLast?, isKeep x = false := by
    intro x hx
    by_contra hkeep
    exact Bool.noConfusion (hborder x hx _ rfl (Bool.eq_true_of_not_eq_false hkeep))
  obtain ⟨x, hx⟩ : ∃ x, group.getLast? = some x := ⟨_, List.getLast?_eq_some_getLast hne⟩
  refine ⟨⟨?_, ?_, ?_, ?_⟩, ⟨x, List.mem_append_left _ (List.mem_of_mem_getLast? hx), hchange x hx⟩, ?_⟩
  · exact List.forall_mem_append.mpr
      ⟨(List.forall_mem_append.mp h.full).1, List.forall_mem_singleton.mpr (full_keep o p n)⟩
  · refine List.isChain_append.mpr ⟨hchain, .singleton _, fun y hy _ _ hkeep => ?_⟩
    exact Bool.noConfusion ((hchange y hy).symm.trans hkeep)
  · rw [List.head?_append_of_ne_nil _ hne]
    have hfirst := h.first
    rwa [List.head?_append_of_ne_nil _ hne] at hfirst
  · rw [List.getLast?_concat]
    rintro e ⟨⟩
    exact Nat.le_refl n
  · exact List.forall_mem_append.mpr ⟨hgroup, List.forall_mem_singleton.mpr (show n ≤ 2 * n by omega)⟩

/-- Behind such a stretch the script goes on as a trimmed one, with the end of the stretch. -/
theorem Trimmed.of_cut {o p o' p' len len' : Nat} (h : Trimmed n (group ++ keep o p len :: es)) (hlen : len' ≤ n) :
    Trimmed n ([keep o' p' len'] ++ es) := by
  obtain ⟨-, hchain, -⟩ := List.isChain_append.mp h.apart
  rw [List.isChain_cons] at hchain
  refine ⟨?_, ?_, ?_, ?_⟩
  · have hes := (List.forall_mem_append.mp h.full).2
    exact List.forall_mem_cons.mpr ⟨full_keep _ _ _, (List.forall_mem_cons.mp hes).2⟩
  · exact List.isChain_cons.mpr ⟨fun y hy _ => hchain.1 y hy rfl, hchain.2⟩
  · rintro e ⟨⟩
    exact hlen
  · have hlast := h.last
    cases es with
    | nil =>
      rintro e ⟨⟩
      exact hlen
    | cons f es =>
      rw [List.getLast?_append_of_ne_nil _ (List.cons_ne_nil f es)]
      rwa [List.getLast?_append_of_ne_nil _ (List.cons_ne_nil _ _), List.getLast?_cons_cons] at hlast

/-- The groups of a trimmed script, by induction on what is still to be read. -/
theorem framed_cut (h : Trimmed n (group ++ es)) (hgroup : ∀ e ∈ group, keptLen e ≤ 2 * n) :
    ∀ g ∈ cut n group es, Framed n g := by
  induction es generalizing group with
  | nil =>
    rw [List.append_nil] at h
    intro g hg
    unfold cut at hg
    split at hg
    · cases hg
    · cases hg
    · next hnil hkeep =>
      obtain rfl := List.mem_singleton.mp hg
      exact ⟨h, exists_change h.apart hnil hkeep, hgroup⟩
  | cons e es ih =>
    have hjoin (he : keptLen e ≤ 2 * n) : ∀ g ∈ cut n (group ++ [e]) es, Framed n g := by
      refine ih ?_ (List.forall_mem_append.mpr ⟨hgroup, List.forall_mem_singleton.mpr he⟩)
      rwa [List.append_assoc]
    cases e with
    | delete | insert | replace => exact hjoin (Nat.zero_le _)
    | keep o p len =>
      rw [cut]
      split
      · next hlen =>
        have hkeep : len - (len - n) ≤ n := by omega
        refine List.forall_mem_cons.mpr ⟨h.framed_of_cut hlen hgroup, ih (h.of_cut hkeep) ?_⟩
        exact List.forall_mem_singleton.mpr (show len - (len - n) ≤ 2 * n by omega)
      · next hlen => exact hjoin (Nat.le_of_not_lt hlen)

theorem map_isKeep_trimStart (n : Nat) (es : List Edit) : (trimStart n es).map isKeep = es.map isKeep := by
  unfold trimStart
  split <;> rfl

theorem map_isKeep_trimEnd (n : Nat) (es : List Edit) : (trimEnd n es).map isKeep = es.map isKeep := by
  fun_induction trimEnd n es with
  | case1 => rfl
  | case2 => rfl
  | case3 e es _ ih => rw [List.map_cons, List.map_cons, ih]

theorem isChain_of_map_isKeep {xs ys : List Edit} (h : xs.map isKeep = ys.map isKeep) (hys : ys.IsChain Apart) :
    xs.IsChain Apart := by
  have hmap {zs : List Edit} : (zs.map isKeep).IsChain (fun a b => a = true → b = false) ↔ zs.IsChain Apart :=
    List.isChain_map isKeep
  rw [← hmap, h, hmap]
  exact hys

theorem full_trimStart (h : ∀ e ∈ es, Full e) : ∀ e ∈ trimStart n es, Full e := by
  unfold trimStart
  split
  · exact List.forall_mem_cons.mpr ⟨full_keep _ _ _, (List.forall_mem_cons.mp h).2⟩
  · exact h

theorem full_trimEnd (h : ∀ e ∈ es, Full e) : ∀ e ∈ trimEnd n es, Full e := by
  fun_induction trimEnd n es with
  | case1 => exact h
  | case2 => exact List.forall_mem_singleton.mpr (full_keep _ _ _)
  | case3 e es _ ih =>
    obtain ⟨he, hes⟩ := List.forall_mem_cons.mp h
    exact List.forall_mem_cons.mpr ⟨he, ih hes⟩

theorem first_trimStart (n : Nat) (es : List Edit) : ∀ e ∈ (trimStart n es).head?, keptLen e ≤ n := by
  unfold trimStart
  split
  · rintro e ⟨⟩
    show _ - _ ≤ n
    omega
  · next hkeep =>
    intro e he
    cases es with
    | nil => cases he
    | cons f es =>
      obtain rfl := Option.some.inj he
      rw [keptLen_of_ne_keep fun o p len hf => hkeep o p len es (by rw [hf])]
      exact Nat.zero_le n

theorem first_trimEnd (h : ∀ e ∈ es.head?, keptLen e ≤ n) : ∀ e ∈ (trimEnd n es).head?, keptLen e ≤ n := by
  fun_cases trimEnd n es with
  | case1 => exact h
  | case2 =>
    rintro e ⟨⟩
    show _ - _ ≤ n
    omega
  | case3 =>
    rintro e ⟨⟩
    exact h _ rfl

theorem last_trimEnd (n : Nat) (es : List Edit) : ∀ e ∈ (trimEnd n es).getLast?, keptLen e ≤ n := by
  fun_induction trimEnd n es with
  | case1 => nofun
  | case2 =>
    rintro e ⟨⟩
    show _ - _ ≤ n
    omega
  | case3 e es hkeep ih =>
    cases htrim : trimEnd n es with
    | nil =>
      have hes : es = [] := List.map_eq_nil_iff.mp ((map_isKeep_trimEnd n es).symm.trans (by rw [htrim]; rfl))
      intro f hf
      rw [List.getLast?_singleton] at hf
      obtain rfl := Option.some.inj hf
      rw [keptLen_of_ne_keep fun o p len hf => hkeep o p len hf hes]
      exact Nat.zero_le n
    | cons f fs =>
      rw [List.getLast?_cons_cons, ← htrim]
      exact ih

/-- The groups of a script whose changes take lines and whose kept stretches stand apart. -/
theorem framed_groups (n : Nat) (hfull : ∀ e ∈ es, Full e) (hapart : es.IsChain Apart) :
    ∀ g ∈ groups n es, Framed n g := by
  have hkeep : (trimEnd n (trimStart n es)).map isKeep = es.map isKeep :=
    (map_isKeep_trimEnd n _).trans (map_isKeep_trimStart n es)
  exact framed_cut ⟨full_trimEnd (full_trimStart hfull), isChain_of_map_isKeep hkeep hapart,
    first_trimEnd (first_trimStart n es), last_trimEnd n _⟩ nofun

end Patchwork.Edit
