import Patchwork.Proofs.Volume.Files
import Patchwork.Proofs.Volume.Rename

/-!
# Files that were opened

A file that was opened holds what it held, whatever becomes of its place, as long as nothing is written into
the file itself.  What is done with one file leaves the others, and the ways to them, as they are.
-/
namespace Patchwork.Volume

variable {u v w : Volume} {p q r : Place} {o : Opened} {c : Bytes} {i : Item} {path : Text}
  {taken : Place → Prop}

/-- What a file held in the end that was opened and is lost since then. -/
def lost? (v : Volume) (o : Opened) : Option Bytes :=
  ((v.lost.take (v.lost.length - o.lostBefore)).reverse.find? (·.1 = o.place)).map (·.2)

/-- A file that was opened holds some content: it was lost with it, or it stands where it stood. -/
structure Reads (v : Volume) (o : Opened) (c : Bytes) : Prop where
  before : o.lostBefore ≤ v.lost.length
  holds : v.lost? o = some c ∨ v.lost? o = none ∧ v.item? o.place = some (.file c)

theorem Reads.contentOf (h : Reads v o c) : v.contentOf o = c := by
  unfold Volume.contentOf
  rcases h.holds with hl | ⟨hl, hi⟩
  · obtain ⟨e, he, rfl⟩ := Option.map_eq_some_iff.mp hl
    rw [he]
  · rw [Option.map_eq_none_iff.mp hl, hi]

theorem contentOf_eq (v : Volume) (o : Opened) : v.contentOf o = ((v.lost? o).or (v.file? o.place)).getD [] := by
  unfold contentOf lost? file?
  cases (v.lost.take (v.lost.length - o.lostBefore)).reverse.find? (·.1 = o.place) with
  | some e => rfl
  | none =>
    rw [Option.map_none, Option.none_or]
    rcases v.item? o.place with _ | _ | _ | _ <;> rfl

theorem reads_opened (hp : v.item? p = some (.file c)) : Reads v (v.opened p) c := by
  refine ⟨Nat.le_refl _, .inr ⟨?_, hp⟩⟩
  rw [lost?, opened, Nat.sub_self]
  rfl

theorem Reads.congr (h : Reads v o c) (hlost : w.lost = v.lost)
    (hi : v.item? o.place = some (.file c) → w.item? o.place = some (.file c)) : Reads w o c := by
  have hsame : w.lost? o = v.lost? o := by rw [lost?, lost?, hlost]
  refine ⟨hlost ▸ h.before, ?_⟩
  rw [hsame]
  exact h.holds.imp_right fun ⟨hl, hp⟩ => ⟨hl, hi hp⟩

theorem item?_remove (v : Volume) (gone : Place → Bool) (hq : q ≠ []) :
    (v.remove gone).item? q = if gone q then none else v.item? q := by
  simp only [item?, remove, hq, if_false, List.find?_filter]
  split
  · next h =>
    rw [Option.map_eq_none_iff, List.find?_eq_none]
    intro a _ ha
    simp only [Bool.not_eq_true', decide_eq_true_eq, beq_iff_eq] at ha
    rw [ha.2, h] at ha
    cases ha.1
  · next h =>
    congr 2
    funext a
    by_cases ha : a.1 = q
    · simp [ha, h]
    · simp [ha]

/-- The files that are taken away, with what they hold. -/
def removed (v : Volume) (gone : Place → Bool) : List (Place × Bytes) :=
  v.items.filterMap fun q =>
    match q.2 with
    | .file content => if gone q.1 then some (q.1, content) else none
    | _ => none

theorem mem_removed {gone : Place → Bool} (hv : v.Sound) :
    (p, c) ∈ v.removed gone ↔ gone p = true ∧ v.item? p = some (.file c) := by
  rw [removed, List.mem_filterMap]
  constructor
  · rintro ⟨⟨q, i⟩, hmem, hq⟩
    split at hq
    · next content hi =>
      split at hq
      · next hgone =>
        obtain rfl : i = .file content := hi
        cases hq
        exact ⟨hgone, hv.item?_of_mem hmem⟩
      · cases hq
    · cases hq
  · rintro ⟨hgone, hi⟩
    have hne : p ≠ [] := fun he => by
      rw [he] at hi
      cases hi
    exact ⟨_, exists_mem_of_item? hne hi, if_pos hgone⟩

/-- What is taken away is lost behind what was lost before. -/
theorem lost?_remove (hb : o.lostBefore ≤ v.lost.length) (gone : Place → Bool) :
    (v.remove gone).lost? o =
      (v.lost? o).or (((v.removed gone).reverse.find? (·.1 = o.place)).map (·.2)) := by
  have hlost : (v.remove gone).lost = v.removed gone ++ v.lost := rfl
  have hlen : (v.removed gone ++ v.lost).length - o.lostBefore =
      (v.removed gone).length + (v.lost.length - o.lostBefore) := by
    rw [List.length_append]
    omega
  rw [lost?, lost?, hlost, hlen, List.take_length_add_append, List.reverse_append, List.find?_append,
    Option.map_or]

/-- What is lost of a volume from which things are taken away was lost before, or it is one of these things. -/
theorem lost?_remove_cases (v : Volume) (gone : Place → Bool) (o : Opened) :
    (v.remove gone).lost? o = v.lost? o ∨ v.lost? o = none ∧
      ∃ e ∈ v.removed gone, e.1 = o.place ∧ (v.remove gone).lost? o = some e.2 := by
  have hlost : (v.remove gone).lost = v.removed gone ++ v.lost := rfl
  have hlen : (v.removed gone ++ v.lost).length - o.lostBefore - (v.removed gone).length =
      v.lost.length - o.lostBefore := by
    rw [List.length_append]
    omega
  rw [lost?, lost?, hlost, List.take_append, hlen, List.reverse_append, List.find?_append, Option.map_or]
  cases (v.lost.take (v.lost.length - o.lostBefore)).reverse.find? (·.1 = o.place) with
  | some e => exact .inl rfl
  | none =>
    cases hfind : (List.take _ (v.removed gone)).reverse.find? (·.1 = o.place) with
    | none => exact .inl rfl
    | some e =>
      have hmem := List.mem_of_mem_take (List.mem_reverse.mp (List.mem_of_find?_eq_some hfind))
      exact .inr ⟨rfl, e, hmem, by simpa using List.find?_some hfind, rfl⟩

theorem Reads.remove (h : Reads v o c) (hv : v.Sound) (gone : Place → Bool) : Reads (v.remove gone) o c := by
  have hlen : (v.remove gone).lost.length = (v.removed gone).length + v.lost.length := List.length_append
  refine ⟨by rw [hlen]; exact h.before.trans (Nat.le_add_left _ _), ?_⟩
  rw [lost?_remove h.before]
  rcases h.holds with hl | ⟨hl, hi⟩
  · exact .inl (by rw [hl, Option.some_or])
  · rw [hl, Option.none_or]
    cases hfind : (v.removed gone).reverse.find? (·.1 = o.place) with
    | some e =>
      obtain ⟨place, content⟩ := e
      obtain rfl : place = o.place := by simpa using List.find?_some hfind
      have hmem := (mem_removed hv).mp (List.mem_reverse.mp (List.mem_of_find?_eq_some hfind))
      rw [hi] at hmem
      cases hmem.2
      exact .inl rfl
    | none =>
      have hne : o.place ≠ [] := fun he => by
        rw [he] at hi
        cases hi
      have hkept : ¬ gone o.place = true := fun hgone => by
        have hmem := List.mem_reverse.mpr ((mem_removed hv).mpr ⟨hgone, hi⟩)
        exact List.find?_eq_none.mp hfind _ hmem (by simp)
      exact .inr ⟨rfl, by rw [item?_remove v gone hne, if_neg hkept, hi]⟩

/-- Files are left as they are, except at some places, and files that were opened hold what they held,
unless they are empty. -/
structure Preserves (taken : Place → Prop) (v w : Volume) : Prop where
  sound : w.Sound
  files : ∀ r, ¬ taken r → w.file? r = v.file? r
  reads : ∀ o c, c ≠ [] → Reads v o c → Reads w o c

theorem Preserves.refl (hv : v.Sound) : Preserves taken v v := ⟨hv, fun _ _ => rfl, fun _ _ _ h => h⟩

theorem Preserves.trans (huv : Preserves taken u v) (hvw : Preserves taken v w) : Preserves taken u w :=
  ⟨hvw.sound, fun r hr => (hvw.files r hr).trans (huv.files r hr),
    fun o c hc h => hvw.reads o c hc (huv.reads o c hc h)⟩

theorem Preserves.mono {more : Place → Prop} (h : Preserves taken v w) (hsub : ∀ r, taken r → more r) :
    Preserves more v w :=
  { h with files := fun r hr => h.files r fun ht => hr (hsub r ht) }

theorem Grows.preserves (hg : Grows v w) (hv : v.Sound) (hfiles : ∀ r, ¬ taken r → w.file? r = v.file? r) :
    Preserves taken v w :=
  ⟨hg.sound hv, hfiles, fun _ _ _ h => h.congr hg.lost (hg.kept _ _)⟩

/-- A file is written where none stands, or an empty one. -/
theorem preserves_put (hv : v.Sound) (hne : p ≠ []) (habove : v.item? p.dropLast = some .dir)
    (hp : v.item? p = none ∨ v.item? p = some (.file [])) (c : Bytes) :
    Preserves (· = p) v (v.put p (.file c)) := by
  refine ⟨hv.put hne habove ?_ _, fun r hr => ?_, fun o d hd h => h.congr rfl fun hi => ?_⟩
  · rcases hp with hp | hp <;> rw [hp] <;> nofun
  · rw [file?_put hne, if_neg hr]
  · have hop : o.place ≠ p := by
      intro he
      rw [he] at hi
      rcases hp with hp | hp <;> rw [hp] at hi <;> cases hi
      exact hd rfl
    rw [item?_put v p _ _ hne, if_neg hop, hi]

theorem item?_erase_self (hdir : v.item? p ≠ some .dir) : (v.erase p).item? p = none := by
  have hne : p ≠ [] := fun he => hdir (by rw [he]; rfl)
  rw [item?_erase v p p hne, if_pos (List.isPrefixOf_iff_prefix.mpr (List.prefix_refl p))]

/-- Below what is no directory, there is nothing to be taken away. -/
theorem Sound.item?_erase (hv : v.Sound) (hdir : v.item? p ≠ some .dir) (hq : q ≠ p) :
    (v.erase p).item? q = v.item? q := by
  have hne : p ≠ [] := fun he => hdir (by rw [he]; rfl)
  rw [Volume.item?_erase v p q hne]
  split
  · next hpre =>
    cases hi : v.item? q with
    | none => rfl
    | some i => exact absurd (hv.not_below hi (List.isPrefixOf_iff_prefix.mp hpre) hdir).symm hq
  · rfl

theorem Sound.erase (hv : v.Sound) (hdir : v.item? p ≠ some .dir) : (v.erase p).Sound := by
  have hmem {e : Place × Item} (he : e ∈ (v.erase p).items) : e ∈ v.items := List.mem_of_mem_filter he
  refine ⟨hv.nodup.sublist (List.filter_sublist.map _), fun e he => hv.proper e (hmem he), fun e he => ?_⟩
  have habove := hv.inDirectory e (hmem he)
  rw [hv.item?_erase hdir fun heq => hdir (heq ▸ habove), habove]

/-- What stands at a place is taken away, and no directory. -/
theorem preserves_erase (hv : v.Sound) (hdir : v.item? p ≠ some .dir) : Preserves (· = p) v (v.erase p) := by
  refine ⟨hv.erase hdir, fun r hr => ?_, fun o d _ h => h.remove hv _⟩
  rw [file?, file?, hv.item?_erase hdir hr]

/-- Of an empty file that is taken away nothing is lost. -/
theorem contentOf_erase (hv : v.Sound) (hp : v.item? p = some (.file [])) (o : Opened) :
    (v.erase p).contentOf o = v.contentOf o := by
  have hdir : v.item? p ≠ some .dir := by
    rw [hp]
    exact nofun
  have hfile (hne : o.place ≠ p) : (v.erase p).file? o.place = v.file? o.place := by
    rw [file?, file?, hv.item?_erase hdir hne]
  rw [contentOf_eq, contentOf_eq]
  rcases lost?_remove_cases v (fun q => p.isPrefixOf q) o with hsame | ⟨hnone, ⟨r, c⟩, he, hr, hsome⟩
  · rw [erase, hsame, ← erase]
    by_cases hne : o.place = p
    · rw [hne, file?_eq_some_iff.mpr hp, file?, item?_erase_self hdir]
      cases v.lost? o <;> rfl
    · rw [hfile hne]
  · obtain ⟨hpre, hc⟩ := (mem_removed hv).mp he
    obtain rfl : p = r := hv.not_below hc (List.isPrefixOf_iff_prefix.mp hpre) hdir
    obtain rfl : p = o.place := hr
    rw [hp] at hc
    cases hc
    rw [erase, hsome, hnone, file?_eq_some_iff.mpr hp]
    rfl
/-- Volumes that differ at one place, where neither has a directory or a link, have the same ways. -/
theorem keepsWays_of_same (hv : ∀ i, v.item? p = some i → ∃ c, i = .file c)
    (hw : ∀ i, w.item? p = some i → ∃ c, i = .file c) (hsame : ∀ r, r ≠ p → w.item? r = v.item? r) :
    v.KeepsWays w := by
  refine ⟨fun r hr => ?_, fun r t => ⟨fun hr => ?_, fun hr => ?_⟩⟩
  · rw [hsame r fun he => ?_, hr]
    obtain ⟨c, hc⟩ := hv _ (he ▸ hr)
    cases hc
  · rw [hsame r fun he => ?_, hr]
    obtain ⟨c, hc⟩ := hv _ (he ▸ hr)
    cases hc
  · rw [← hsame r fun he => ?_, hr]
    obtain ⟨c, hc⟩ := hw _ (he ▸ hr)
    cases hc

/-- Files are spared, and the paths that lead to them. -/
structure Frame (taken : Place → Prop) (v w : Volume) : Prop extends Preserves taken v w, KeepsWays v w where
  here : w.here = v.here

theorem Frame.refl (hv : v.Sound) : Frame taken v v := ⟨.refl hv, ⟨fun _ h => h, fun _ _ => .rfl⟩, rfl⟩

theorem Frame.trans (huv : Frame taken u v) (hvw : Frame taken v w) : Frame taken u w :=
  ⟨huv.toPreserves.trans hvw.toPreserves,
    ⟨fun p h => hvw.dir p (huv.dir p h), fun p t => (huv.link p t).trans (hvw.link p t)⟩,
    hvw.here.trans huv.here⟩

theorem Frame.find {aim : Aim} (h : Frame taken v w) (hf : v.find aim path = .ok (p, .file c))
    (hp : ¬ taken p) : w.find aim path = .ok (p, .file c) := by
  obtain ⟨hl, hi⟩ := find_eq_ok_iff.mp hf
  obtain ⟨hu, hlead⟩ := locate_eq_ok_iff.mp hl
  have hw : w.item? p = some (.file c) := by
    rw [← file?_eq_some_iff, h.files p hp, file?_eq_some_iff, hi]
  refine find_eq_ok_iff.mpr ⟨locate_eq_ok_iff.mpr ⟨hu, ?_⟩, hw⟩
  rw [h.here]
  exact hlead.keepWays h.toKeepsWays fun _ _ => ⟨c, hw⟩

theorem Grows.frame (hg : Grows v w) (hv : v.Sound) (hfiles : ∀ r, ¬ taken r → w.file? r = v.file? r) :
    Frame taken v w :=
  ⟨hg.preserves hv hfiles, hg.keeps.ways, hg.here⟩

theorem frame_put (hv : v.Sound) (hne : p ≠ []) (habove : v.item? p.dropLast = some .dir)
    (hp : v.item? p = none ∨ v.item? p = some (.file [])) (c : Bytes) :
    Frame (· = p) v (v.put p (.file c)) := by
  refine ⟨preserves_put hv hne habove hp c, keepsWays_of_same (p := p) (fun i hi => ?_) (fun i hi => ?_)
    fun r hr => ?_, rfl⟩
  · rcases hp with hp | hp <;> rw [hp] at hi <;> cases hi
    exact ⟨[], rfl⟩
  · rw [item?_put v p p _ hne, if_pos rfl] at hi
    exact ⟨c, (Option.some.inj hi).symm⟩
  · rw [item?_put v p r _ hne, if_neg hr]

/-- A file is taken away. -/
theorem frame_erase (hv : v.Sound) (hp : v.item? p = some (.file c)) : Frame (· = p) v (v.erase p) := by
  have hdir : v.item? p ≠ some .dir := by
    rw [hp]
    nofun
  refine ⟨preserves_erase hv hdir, keepsWays_of_same (p := p) (fun i hi => ?_) (fun i hi => ?_)
    fun r hr => hv.item?_erase hdir hr, rfl⟩
  · rw [hp] at hi
    exact ⟨c, (Option.some.inj hi).symm⟩
  · rw [item?_erase_self hdir] at hi
    cases hi

/-- An empty file is filled and taken away again. -/
theorem frame_filled (hv : v.Sound) (hp : v.item? p = some (.file [])) (c : Bytes) :
    Frame (· = p) v ((v.put p (.file c)).erase p) ∧ ((v.put p (.file c)).erase p).item? p = none ∧
      ∀ r, r ≠ p → ((v.put p (.file c)).erase p).item? r = v.item? r := by
  have hne : p ≠ [] := fun he => by
    rw [he] at hp
    cases hp
  have hfill := frame_put hv hne (hv.above hp) (.inr hp) c
  have hitem : (v.put p (.file c)).item? p = some (.file c) := by rw [item?_put v p p _ hne, if_pos rfl]
  have hdir : (v.put p (.file c)).item? p ≠ some .dir := by
    rw [hitem]
    nofun
  refine ⟨hfill.trans (frame_erase hfill.sound hitem), item?_erase_self hdir, fun r hr => ?_⟩
  rw [hfill.sound.item?_erase hdir hr, item?_put v p r _ hne, if_neg hr]

/-- An empty file is filled and put in the place of what stands somewhere else. -/
theorem preserves_moved (hv : v.Sound) (hp : v.item? p = some (.file [])) (hq : v.item? q ≠ some .dir)
    (habove : v.item? q.dropLast = some .dir) (hw : w = (((v.put p (.file c)).erase p).erase q).put q (.file c)) :
    Preserves (fun r => r = p ∨ r = q) v w ∧ w.file? q = some c ∧ (p ≠ q → w.file? p = none) := by
  have hne : q ≠ [] := fun he => hq (by rw [he]; rfl)
  obtain ⟨hgone, hnone, hsame⟩ := frame_filled hv hp c
  generalize (v.put p (.file c)).erase p = u at hgone hnone hsame hw
  have hdir : u.item? q ≠ some .dir := by
    by_cases he : q = p
    · rw [he, hnone]
      nofun
    · rw [hsame q he]
      exact hq
  have hcleared := preserves_erase hgone.sound hdir
  have hup : (u.erase q).item? q.dropLast = some .dir := by
    have hup := hgone.dir _ habove
    rw [hgone.sound.item?_erase hdir fun he => hdir (he ▸ hup), hup]
  have hput := preserves_put hcleared.sound hne hup (.inl (item?_erase_self hdir)) c
  rw [← hw] at hput
  refine ⟨(hgone.toPreserves.mono fun r => .inl).trans ((hcleared.trans hput).mono fun r => .inr), ?_, fun hpq => ?_⟩
  · rw [hw, file?_put hne, if_pos rfl]
  · rw [hput.files p hpq, hcleared.files p hpq, Volume.file?, hnone]

end Patchwork.Volume
