import Patchwork.Proofs.Tree.Stock

/-!
# Listing a directory

The list of the files in a directory is determined by where files stand in it.
-/
namespace Patchwork

theorem Text.before_trans {s t u : Text} (hst : before s t = true) (htu : before t u = true) :
    before s u = true := by
  induction s generalizing t u with
  | nil => rfl
  | cons a s ih =>
    cases t with
    | nil => cases hst
    | cons b t =>
      cases u with
      | nil => cases htu
      | cons c u =>
        simp only [before] at hst htu ⊢
        split at hst
        · next hab =>
          subst hab
          split at htu
          · next hac =>
            rw [if_pos hac]
            exact ih hst htu
          · next hac =>
            rw [if_neg hac]
            exact htu
        · next hab =>
          have hlt : a.toNat < b.toNat := by simpa using hst
          have hac : a ≠ c ∧ a.toNat < c.toNat := by
            split at htu
            · next hbc =>
              subst hbc
              exact ⟨hab, hlt⟩
            · have hlt' : b.toNat < c.toNat := by simpa using htu
              refine ⟨?_, by omega⟩
              rintro rfl
              omega
          rw [if_neg hac.1]
          simpa using hac.2

theorem Text.before_total (s t : Text) : (before s t || before t s) = true := by
  induction s generalizing t with
  | nil => rfl
  | cons a s ih =>
    cases t with
    | nil => rfl
    | cons b t =>
      simp only [before]
      by_cases hab : a = b
      · rw [if_pos hab, if_pos hab.symm]
        exact ih t
      · have hne : a.toNat ≠ b.toNat := fun he => hab (Char.toNat_inj.mp he)
        rw [if_neg hab, if_neg fun he => hab he.symm]
        simp only [Bool.or_eq_true, decide_eq_true_eq]
        omega

theorem Text.pairwise_sort (ts : List Text) : (sort ts).Pairwise fun s t => before s t = true :=
  @List.pairwise_mergeSort _ before (fun _ _ _ => before_trans) before_total ts

/-- Texts that are sorted are determined by which texts they are. -/
theorem Text.sort_congr {ss ts : List Text} (h : ss.Perm ts) : sort ss = sort ts := by
  have hperm : (sort ss).Perm (sort ts) :=
    (List.mergeSort_perm ss before).trans (h.trans (List.mergeSort_perm ts before).symm)
  exact hperm.eq_of_pairwise (fun _ _ _ _ => eq_of_before) (pairwise_sort ss) (pairwise_sort ts)

/-- A relative path that is made of names only. -/
def Path.Plain (path : Text) : Prop := ∀ part ∈ Path.parts path, Path.Name part

instance (path : Text) : Decidable (Path.Plain path) := List.decidableBAll _ (Path.parts path)

theorem Path.parts_ne_nil (path : Text) : Path.parts path ≠ [] := List.splitOn_ne_nil '/' path

theorem Path.Plain.join_injective {base s t : Text} (hs : Plain s) (ht : Plain t)
    (h : join base s = join base t) : s = t := by
  have hrelative {f : Text} (hf : Plain f) : isAbsolute f = false := by
    rw [← ofParts_parts f]
    exact not_isAbsolute_ofParts hf (parts_ne_nil f)
  have hs := hrelative hs
  have ht := hrelative ht
  unfold join at h
  simp only [hs, ht, Bool.false_eq_true, false_or] at h
  split at h
  · exact h
  · split at h
    · exact List.append_cancel_left h
    · exact (List.cons.inj (List.append_cancel_left h)).2

namespace Tree

open Volume

variable {v w : Volume} {p b q : Place} {i : Item} {f root : Text}

theorem isPrefixOf?_append (p q : Place) : p.isPrefixOf? (p ++ q) = some q := by
  induction p with
  | nil => cases q <;> rfl
  | cons name p ih =>
    rw [List.cons_append, List.isPrefixOf?, if_pos (beq_self_eq_true name), ih]

theorem eq_append_of_isPrefixOf? {r : Place} (h : p.isPrefixOf? r = some q) : r = p ++ q := by
  induction p generalizing r with
  | nil =>
    cases r <;> cases h <;> rfl
  | cons name p ih =>
    cases r with
    | nil => cases h
    | cons other r =>
      rw [List.isPrefixOf?] at h
      split at h
      · next heq => rw [eq_of_beq heq, ih h, List.cons_append]
      · cases h

theorem mem_below (hv : v.Sound) : (q, i) ∈ v.below p ↔ q ≠ [] ∧ v.item? (p ++ q) = some i := by
  unfold below
  rw [List.mem_filterMap]
  constructor
  · rintro ⟨⟨r, j⟩, hmem, hq⟩
    split at hq
    · next name names hpre =>
      simp only [Option.some.injEq, Prod.mk.injEq] at hq
      obtain ⟨rfl, rfl⟩ := hq
      refine ⟨List.cons_ne_nil _ _, ?_⟩
      rw [← eq_append_of_isPrefixOf? hpre]
      exact hv.item?_of_mem hmem
    · cases hq
  · rintro ⟨hne, hi⟩
    have hmem := exists_mem_of_item? (by simp [hne]) hi
    refine ⟨_, hmem, ?_⟩
    obtain ⟨name, names, rfl⟩ := List.exists_cons_of_ne_nil hne
    simp only [isPrefixOf?_append]

theorem nodup_below (hv : v.Sound) (p : Place) : ((v.below p).map (·.1)).Nodup := by
  have hsub : ((v.below p).map (fun q => p ++ q.1)).Sublist (v.items.map (·.1)) := by
    unfold below
    induction v.items with
    | nil => exact .slnil
    | cons x items ih =>
      rw [List.filterMap_cons, List.map_cons]
      split
      · exact ih.cons _
      · next q hq =>
        split at hq
        · next hpre =>
          cases hq
          rw [List.map_cons, eq_append_of_isPrefixOf? hpre]
          exact ih.cons_cons _
        · cases hq
  have hnodup := hv.nodup.sublist hsub
  have hmap : (v.below p).map (fun q => p ++ q.1) = ((v.below p).map (·.1)).map (p ++ ·) := by
    rw [List.map_map]
    rfl
  rw [hmap] at hnodup
  exact hnodup.of_map _

theorem mem_filesAt (hv : v.Sound) : f ∈ filesAt v p ↔
    ∃ q, q ≠ [] ∧ (v.file? (p ++ q)).isSome ∧ f = Path.ofParts q := by
  unfold filesAt Text.sort
  rw [List.mem_mergeSort, List.mem_filterMap]
  constructor
  · rintro ⟨⟨q, i⟩, hmem, hf⟩
    obtain ⟨hne, hi⟩ := (mem_below hv).mp hmem
    split at hf
    · next c heq =>
      cases hf
      subst heq
      exact ⟨q, hne, by rw [file?_eq_some_iff.mpr hi]; rfl, rfl⟩
    · cases hf
  · rintro ⟨q, hne, hsome, rfl⟩
    obtain ⟨c, hc⟩ := Option.isSome_iff_exists.mp hsome
    exact ⟨(q, .file c), (mem_below hv).mpr ⟨hne, file?_eq_some_iff.mp hc⟩, rfl⟩

/-- The files below a place have names that lead there. -/
def Named (v : Volume) (p : Place) : Prop :=
  ∀ q c, v.file? (p ++ q) = some c → ∀ name ∈ q, Path.Name name

/-- All files have names that lead there. -/
theorem named_of_items (h : ∀ e ∈ v.items, ∀ name ∈ e.1, Path.Name name) : Named v [] := by
  intro q c hc name hname
  have hne : q ≠ [] := by
    rintro rfl
    cases hname
  exact h _ (exists_mem_of_item? hne (file?_eq_some_iff.mp hc)) name hname

theorem Named.below (hn : Named v []) (p : Place) : Named v p :=
  fun q c hc name hname => hn (p ++ q) c hc name (List.mem_append_right p hname)

theorem mem_filesAt_iff (hv : v.Sound) (hn : Named v p) :
    f ∈ filesAt v p ↔ Path.Plain f ∧ (v.file? (p ++ Path.parts f)).isSome := by
  rw [mem_filesAt hv]
  constructor
  · rintro ⟨q, hne, hsome, rfl⟩
    obtain ⟨c, hc⟩ := Option.isSome_iff_exists.mp hsome
    have hnames := hn q c hc
    rw [Path.Plain, Path.parts_ofParts hnames hne]
    exact ⟨hnames, hsome⟩
  · rintro ⟨-, hsome⟩
    exact ⟨Path.parts f, Path.parts_ne_nil f, hsome, (Path.ofParts_parts f).symm⟩

theorem nodup_filesAt (hv : v.Sound) (hn : Named v p) : (filesAt v p).Nodup := by
  unfold filesAt Text.sort
  rw [(List.mergeSort_perm _ _).nodup_iff]
  refine List.pairwise_filterMap.mpr ?_
  refine (List.pairwise_map.mp (nodup_below hv p)).imp_of_mem fun {x y} hx hy hne s hs t ht he => hne ?_
  have hparts {x : Place × Item} (hx : x ∈ v.below p) {c : Bytes} (hc : x.2 = .file c) :
      Path.parts (Path.ofParts x.1) = x.1 := by
    obtain ⟨q, i⟩ := x
    obtain ⟨hne, hi⟩ := (mem_below hv).mp hx
    cases hc
    exact Path.parts_ofParts (hn q c (file?_eq_some_iff.mpr hi)) hne
  split at hs
  · next c hc =>
    split at ht
    · next d hd =>
      rw [← hparts hx hc, ← hparts hy hd, Option.some.inj hs, Option.some.inj ht, he]
    · cases ht
  · cases hs

/-- The list of files is determined by the places of files. -/
theorem filesAt_congr (hv : v.Sound) (hw : w.Sound) (hvn : Named v p) (hwn : Named w b)
    (h : ∀ q, q ≠ [] → (w.file? (b ++ q)).isSome = (v.file? (p ++ q)).isSome) :
    filesAt w b = filesAt v p := by
  have hmem (f : Text) : f ∈ filesAt w b ↔ f ∈ filesAt v p := by
    rw [mem_filesAt hv, mem_filesAt hw]
    refine exists_congr fun q => and_congr_right fun hne => ?_
    rw [h q hne]
  have hperm := (List.perm_ext_iff_of_nodup (nodup_filesAt hw hwn) (nodup_filesAt hv hvn)).mpr hmem
  unfold filesAt at hperm ⊢
  refine Text.sort_congr ((List.mergeSort_perm _ _).symm.trans (hperm.trans ?_))
  exact List.mergeSort_perm _ _

end Tree

end Patchwork
