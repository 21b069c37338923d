import Patchwork.Proofs.Volume.Descent
import Patchwork.Volume.Disk

/-!
# Emptying a directory

Everything inside a directory is taken away.  A path that leads somewhere afterwards led there before.
-/
namespace Patchwork.Volume

variable {v w : Volume} {p q r : Place} {n : Nat} {steps : List Step} {path : Text} {i : Item}

theorem item?_clear (v : Volume) (p q : Place) :
    (v.clear p).item? q = if p <+: q ∧ p ≠ q then none else v.item? q := by
  by_cases hq : q = []
  · subst hq
    rw [if_neg fun h => h.2 (List.prefix_nil.mp h.1)]
    rfl
  · simp only [item?, clear, remove, hq, if_false, List.find?_filter]
    split
    · next h =>
      rw [Option.map_eq_none_iff, List.find?_eq_none]
      intro a _ ha
      simp only [Bool.not_eq_true', decide_eq_true_eq, beq_iff_eq, Bool.and_eq_false_imp] at ha
      obtain ⟨hkept, rfl⟩ := ha
      have hlen := hkept (List.isPrefixOf_iff_prefix.mpr h.1)
      exact h.2 (h.1.eq_of_length_le (by simpa using hlen))
    · next h =>
      congr 2
      funext a
      by_cases ha : a.1 = q
      · subst ha
        have hkept : (p.isPrefixOf a.1 && decide (p.length < a.1.length)) = false := by
          rw [Bool.and_eq_false_imp]
          intro hpre
          have hpre := List.isPrefixOf_iff_prefix.mp hpre
          have heq : p = a.1 := by
            by_contra hne
            exact h ⟨hpre, hne⟩
          simp [heq]
        simp [hkept]
      · simp [ha]

theorem of_item?_clear (h : (v.clear p).item? q = some i) : v.item? q = some i := by
  rw [item?_clear] at h
  split at h
  · cases h
  · exact h

theorem Sound.clear (hv : v.Sound) (p : Place) : (v.clear p).Sound := by
  have hmem {q : Place × Item} (hq : q ∈ (v.clear p).items) :
      q ∈ v.items ∧ ¬ (p <+: q.1 ∧ p ≠ q.1) := by
    obtain ⟨hq, hkept⟩ := List.mem_filter.mp hq
    refine ⟨hq, fun ⟨hpre, hne⟩ => ?_⟩
    have hlen : p.length < q.1.length :=
      Nat.lt_of_le_of_ne hpre.length_le fun he => hne (hpre.eq_of_length he)
    have hpre := List.isPrefixOf_iff_prefix.mpr hpre
    simp [hpre, hlen] at hkept
  refine ⟨?_, fun q hq => hv.proper q (hmem hq).1, fun q hq => ?_⟩
  · exact hv.nodup.sublist (List.filter_sublist.map _)
  · obtain ⟨hq, hkept⟩ := hmem hq
    have hout : ¬ (p <+: q.1.dropLast ∧ p ≠ q.1.dropLast) := by
      rintro ⟨hpre, -⟩
      refine hkept ⟨hpre.trans (List.dropLast_prefix _), fun he => ?_⟩
      have hlen := hpre.length_le
      have hpos := List.length_pos_iff.mpr (hv.proper q hq)
      rw [List.length_dropLast, he] at hlen
      omega
    rw [item?_clear, if_neg hout]
    exact hv.inDirectory q hq

/-- What is reached in a volume of which something is missing, is reached in the whole of it. -/
theorem Leads.of_part (hpart : ∀ r i, w.item? r = some i → v.item? r = some i)
    (h : Leads w .item n p steps q) (hq : w.item? q = some i) : Leads v .item n p steps q := by
  have henters {p : Place} {name : Text} {steps : List Step} (he : Enters w .item p name steps) :
      Enters v .item p name steps := ⟨hpart _ _ he.dir, he.noSlash, he.short⟩
  induction h with
  | done => exact .done
  | stay hp hs _ ih => exact .stay (hpart _ _ hp) hs (ih hq)
  | up hp _ ih => exact .up (hpart _ _ hp) (ih hq)
  | absent _ hi =>
    rw [hi] at hq
    cases hq
  | entry _ _ haim => cases haim
  | link he hi hgo _ ih => exact .link (henters he) (hpart _ _ hi) hgo (ih hq)
  | down he hi hlink _ ih => exact .down (henters he) (hpart _ _ hi) hlink (ih hq)

theorem find_of_clear (h : (v.clear p).find .item path = .ok (q, i)) :
    v.find .item path = .ok (q, i) := by
  obtain ⟨hl, hi⟩ := find_eq_ok_iff.mp h
  obtain ⟨hu, hlead⟩ := locate_eq_ok_iff.mp hl
  exact find_eq_ok_iff.mpr ⟨locate_eq_ok_iff.mpr
    ⟨hu, hlead.of_part (fun _ _ => of_item?_clear) hi⟩, of_item?_clear hi⟩

end Patchwork.Volume
