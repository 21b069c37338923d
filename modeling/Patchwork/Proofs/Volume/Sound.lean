import Mathlib
import Patchwork.Volume.Change

/-!
# Sound volumes

In a sound volume a directory stands above everything that stands anywhere.  Putting something at a
place keeps a volume sound if there is a directory above and none at the place itself.
-/
namespace Patchwork.Volume

variable {v : Volume} {p q : Place} {i : Item}

theorem exists_mem_of_item? (hp : p ≠ []) (h : v.item? p = some i) : (p, i) ∈ v.items := by
  rw [item?, if_neg hp, Option.map_eq_some_iff] at h
  obtain ⟨⟨r, j⟩, hfind, rfl⟩ := h
  have hr : r = p := by simpa using List.find?_some hfind
  subst hr
  exact List.mem_of_find?_eq_some hfind

theorem Sound.item?_of_mem (hv : v.Sound) (h : (q, i) ∈ v.items) : v.item? q = some i := by
  rw [item?, if_neg (hv.proper _ h)]
  obtain ⟨x, hx⟩ : ∃ x, v.items.find? (·.1 == q) = some x := by
    rw [← Option.isSome_iff_exists, List.find?_isSome]
    exact ⟨_, h, beq_self_eq_true q⟩
  have hkey : x.1 = q := by simpa using List.find?_some hx
  have hxi : x = (q, i) :=
    List.inj_on_of_nodup_map hv.nodup (List.mem_of_find?_eq_some hx) h hkey
  rw [hx, Option.map_some, hxi]

theorem Sound.above (hv : v.Sound) (h : v.item? p = some i) : v.item? p.dropLast = some .dir := by
  by_cases hp : p = []
  · rw [hp]
    rfl
  · exact hv.inDirectory _ (exists_mem_of_item? hp h)

theorem Sound.dir_of_lt (hv : v.Sound) (h : v.item? q = some i) (hpq : p <+: q) (hne : p ≠ q) :
    v.item? p = some .dir := by
  induction q using List.reverseRecOn generalizing i with
  | nil => exact absurd (List.prefix_nil.mp hpq) hne
  | append_singleton q name ih =>
    have habove := hv.above h
    rw [List.dropLast_concat] at habove
    rcases List.prefix_concat_iff.mp hpq with rfl | hpre
    · exact absurd rfl hne
    · by_cases heq : p = q
      · rw [heq, habove]
      · exact ih habove hpre heq

/-- Below what is no directory, nothing stands. -/
theorem Sound.not_below (hv : v.Sound) (h : v.item? q = some i) (hpq : p <+: q)
    (hp : v.item? p ≠ some .dir) : p = q := by
  by_contra hne
  exact hp (hv.dir_of_lt h hpq hne)

theorem Sound.absent_below (hv : v.Sound) (h : v.item? p = none) (q : Place) : v.item? (p ++ q) = none := by
  cases hi : v.item? (p ++ q) with
  | none => rfl
  | some i =>
    rw [← hv.not_below hi (List.prefix_append p q) (by rw [h]; nofun), h] at hi
    cases hi

theorem Sound.put (hv : v.Sound) (hp : p ≠ []) (habove : v.item? p.dropLast = some .dir)
    (hdir : v.item? p ≠ some .dir) (i : Item) : (v.put p i).Sound := by
  have hmem : ∀ r ∈ (v.put p i).items, r = (p, i) ∨ r ∈ v.items ∧ r.1 ≠ p := by
    intro r hr
    rcases List.mem_cons.mp hr with rfl | hr
    · exact Or.inl rfl
    · exact Or.inr ⟨List.mem_of_mem_filter hr, by simpa using (List.mem_filter.mp hr).2⟩
  refine ⟨?_, ?_, ?_⟩
  · have hout : p ∉ (v.items.filter (·.1 != p)).map (·.1) := by
      simp
    have hsub : ((v.items.filter (·.1 != p)).map (·.1)).Sublist (v.items.map (·.1)) :=
      List.filter_sublist.map _
    exact List.nodup_cons.mpr ⟨hout, hv.nodup.sublist hsub⟩
  · intro r hr
    rcases hmem r hr with rfl | ⟨hr, _⟩
    · exact hp
    · exact hv.proper r hr
  · intro r hr
    rw [item?_put v p _ i hp]
    rcases hmem r hr with rfl | ⟨hr, hrp⟩
    · have hne : p.dropLast ≠ p := fun he => hdir (he ▸ habove)
      rw [if_neg hne, habove]
    · have hup := hv.inDirectory r hr
      have hne : r.1.dropLast ≠ p := fun he => hdir (he ▸ hup)
      rw [if_neg hne, hup]

end Patchwork.Volume
