import Patchwork.Proofs.Volume.Growth

/-!
# Putting a file in the place of another

A file that is given the name of another one takes its place.  The path leads to it afterwards, unless
the path led through a link that stood in that very place: then it leads nowhere.
-/
namespace Patchwork.Volume

variable {v w : Volume} {p q r : Place} {content : Bytes} {path : Text} {n : Nat} {steps : List Step}

/-- A file with some content has been moved from one place to another. -/
structure Moved (v w : Volume) (p q : Place) (content : Bytes) : Prop where
  source : ∃ c, v.item? p = some (.file c)
  target : v.item? q ≠ some .dir
  here : w.here = v.here
  placed : w.item? q = some (.file content)
  kept : ∀ r, ¬ p <+: r → ¬ q <+: r → w.item? r = v.item? r

/-- Volumes that differ in what one file holds keep each other. -/
theorem keeps_of_same {c d : Bytes} (hv : v.item? p = some (.file c))
    (hw : w.item? p = some (.file d)) (hsame : ∀ r, r ≠ p → w.item? r = v.item? r) : v.Keeps w := by
  have hother {r : Place} {i : Item} (hr : v.item? r = some i) (hi : ∀ e, i ≠ .file e) :
      w.item? r = some i := by
    rw [hsame r fun he => ?_, hr]
    rw [he, hv] at hr
    cases hr
    exact hi c rfl
  refine ⟨fun r hr => hother hr nofun, fun r t hr => hother hr nofun, fun r e hr => ?_,
    fun r t hr => ?_⟩
  · by_cases he : r = p
    · exact ⟨d, he ▸ hw⟩
    · exact ⟨e, by rw [hsame r he, hr]⟩
  · rw [hsame r fun he => ?_, hr]
    · nofun
    · rw [he, hv] at hr
      cases hr

/-- The link at `q` is passed on the way to `q`. -/
def PassesLink (v : Volume) (q : Place) : Prop :=
  ∃ target n steps, v.item? q = some (.link target) ∧ steps ≠ [] ∧
    Leads v .entry n (start q.dropLast target) (Step.ofPath target ++ steps) q

theorem Moved.not_prefix (hm : Moved v w p q content) (hv : v.Sound) (hr : v.item? r = some .dir) :
    ¬ p <+: r ∧ ¬ q <+: r := by
  obtain ⟨c, hp⟩ := hm.source
  constructor
  · intro hpre
    rw [hv.not_below hr hpre (by rw [hp]; nofun), hr] at hp
    cases hp
  · intro hpre
    have hq := hm.target
    rw [hv.not_below hr hpre hm.target] at hq
    exact hq hr

theorem Moved.dir (hm : Moved v w p q content) (hv : v.Sound) (hr : v.item? r = some .dir) :
    w.item? r = some .dir := by
  obtain ⟨hp, hq⟩ := hm.not_prefix hv hr
  rw [hm.kept r hp hq, hr]

/-- In a directory, the moved file's old and new place are the only ones that change. -/
theorem Moved.entry (hm : Moved v w p q content) (hv : v.Sound) (hr : v.item? r = some .dir)
    {name : Text} (hp : r ++ [name] ≠ p) (hq : r ++ [name] ≠ q) :
    w.item? (r ++ [name]) = v.item? (r ++ [name]) := by
  obtain ⟨hrp, hrq⟩ := hm.not_prefix hv hr
  refine hm.kept _ (fun hpre => ?_) fun hpre => ?_
  · rcases List.prefix_concat_iff.mp hpre with he | hpre
    · exact hp he.symm
    · exact hrp hpre
  · rcases List.prefix_concat_iff.mp hpre with he | hpre
    · exact hq he.symm
    · exact hrq hpre

theorem Moved.enters (hm : Moved v w p q content) (hv : v.Sound) {a : Place} {name : Text}
    (he : Enters v .entry a name steps) : Enters w .item a name steps :=
  ⟨hm.dir hv he.dir, nofun, he.short⟩

theorem Moved.leads (hm : Moved v w p q content) (hv : v.Sound) {a : Place}
    (h : Leads v .entry n a steps q) :
    Leads w .item n a steps q ∨ (∀ r, ¬ Leads w .item n a steps r) ∧ PassesLink v q := by
  induction h with
  | done => exact Or.inl .done
  | stay ha hs _ ih =>
    rcases ih hm with ih | ⟨ih, hpass⟩
    · exact Or.inl (.stay (hm.dir hv ha) hs ih)
    · exact Or.inr ⟨fun r hr => ih r (hr.of_stay hs), hpass⟩
  | up ha _ ih =>
    rcases ih hm with ih | ⟨ih, hpass⟩
    · exact Or.inl (.up (hm.dir hv ha) ih)
    · exact Or.inr ⟨fun r hr => ih r hr.of_up, hpass⟩
  | absent he => exact Or.inl (.down (hm.enters hv he) hm.placed nofun .done)
  | entry he => exact Or.inl (.down (hm.enters hv he) hm.placed nofun .done)
  | @link n a q name target steps he hi hgo h ih =>
    obtain ⟨c, hp⟩ := hm.source
    have hap : a ++ [name] ≠ p := fun heq => by
      rw [heq, hp] at hi
      cases hi
    by_cases haq : a ++ [name] = q
    · subst haq
      have hsteps : steps ≠ [] := fun hnil => hgo ⟨hnil, rfl⟩
      obtain ⟨s, more, rfl⟩ := List.exists_cons_of_ne_nil hsteps
      refine Or.inr ⟨fun r hr => ?_, target, n, s :: more, hi, hsteps, ?_⟩
      · have hstart := (hr.of_down hm.placed nofun).dir_start
        rw [hm.placed] at hstart
        cases hstart
      · rw [List.dropLast_concat]
        exact h
    · have hw : w.item? (a ++ [name]) = some (.link target) := by
        rw [hm.entry hv he.dir hap haq, hi]
      rcases ih hm with ih | ⟨ih, hpass⟩
      · exact Or.inl (.link (hm.enters hv he) hw nofun ih)
      · refine Or.inr ⟨fun r hr => ?_, hpass⟩
        obtain ⟨m, hnm, hr⟩ := hr.of_link hw nofun
        obtain rfl := Nat.succ.inj hnm
        exact ih r hr
  | @down n a q name steps i he hi hlink h ih =>
    obtain ⟨c, hp⟩ := hm.source
    by_cases haq : a ++ [name] = q
    · subst haq
      cases steps with
      | nil => exact Or.inl (.down (hm.enters hv he) hm.placed nofun .done)
      | cons s steps => exact absurd h.dir_start hm.target
    · have hap : a ++ [name] ≠ p := by
        rintro rfl
        cases steps with
        | nil =>
          cases h
          exact haq rfl
        | cons s steps =>
          rw [h.dir_start] at hp
          cases hp
      have hw : w.item? (a ++ [name]) = some i := by
        rw [hm.entry hv he.dir hap haq, hi]
      rcases ih hm with ih | ⟨ih, hpass⟩
      · exact Or.inl (.down (hm.enters hv he) hw hlink ih)
      · exact Or.inr ⟨fun r hr => ih r (hr.of_down hw hlink), hpass⟩

/-- The path of a moved file leads to it, or nowhere. -/
theorem Moved.find (hm : Moved v w p q content) (hv : v.Sound) (hq : v.locate .entry path = .ok q) :
    w.find .item path = .ok (q, .file content) ∨
      (∀ r i, w.find .item path ≠ .ok (r, i)) ∧ PassesLink v q := by
  obtain ⟨hu, hl⟩ := locate_eq_ok_iff.mp hq
  rcases hm.leads hv hl with hw | ⟨hw, hpass⟩
  · refine Or.inl (find_eq_ok_iff.mpr ⟨locate_eq_ok_iff.mpr ⟨hu, ?_⟩, hm.placed⟩)
    rw [hm.here]
    exact hw
  · refine Or.inr ⟨fun r i hr => ?_, hpass⟩
    have hwr := (locate_eq_ok_iff.mp (find_eq_ok_iff.mp hr).1).2
    rw [hm.here] at hwr
    exact hw r hwr

/-- A path that leads to a file does not pass a link at its own end. -/
theorem not_passesLink {c : Bytes} (hv : v.Sound) (hf : v.find .item path = .ok (r, .file c))
    (hq : v.locate .entry path = .ok q) : ¬ PassesLink v q := by
  rintro ⟨target, n, steps, hlink, hsteps, hpass⟩
  obtain ⟨hl, hr⟩ := find_eq_ok_iff.mp hf
  have hstart := locate_dir_start hl
  obtain ⟨k, hk⟩ := (locate_eq_ok_iff.mp hq).2.through_link hv hlink
    (fun t ht => by rw [hstart] at ht; cases ht) (locate_eq_ok_iff.mp hl).2
  exact hk.not_through_file hr hsteps hpass

theorem withoutSlashes_of_getLast? (h : path.getLast? ≠ some '/') : withoutSlashes path = path := by
  have hdrop : Text.dropEnd (· = '/') path = path := by
    rcases List.eq_nil_or_concat path with rfl | ⟨t, c, rfl⟩
    · rfl
    · have hc : c ≠ '/' := by simpa using h
      simp [Text.dropEnd, hc]
  unfold withoutSlashes
  simp only [hdrop, ite_self]

theorem locateName_of_getLast? (h : path.getLast? ≠ some '/') :
    v.locateName path = v.locate .entry path := by
  unfold locateName
  rw [withoutSlashes_of_getLast? h]
  split
  · next hlong =>
    have hne : path ≠ [] := by
      rintro rfl
      exact absurd hlong.2 (Nat.not_lt_zero _)
    rw [locate, if_neg hlong.1, if_neg hne, if_pos hlong.2]
  · rfl

/-- A renamed file is taken from its place and put in that of the name, whatever stood there. -/
theorem renameFile_eq_ok {temp : Text} {c : Bytes} (hf : v.find .entry temp = .ok (p, .file c))
    (htemp : temp.getLast? ≠ some '/') (h : v.renameFile temp path = .ok w) :
    ∃ q, v.locate .entry path = .ok q ∧ v.item? q ≠ some .dir ∧
      w = ((v.erase p).erase q).put q (.file c) := by
  obtain ⟨hl, hp⟩ := find_eq_ok_iff.mp hf
  have hsource : v.locateName temp = .ok p := by
    rw [locateName_of_getLast? htemp, hl]
  unfold renameFile at h
  rw [hsource] at h
  split at h
  · cases h
  · cases hq : v.locateName path with
    | error e =>
      rw [hq] at h
      cases h
    | ok q =>
      simp only [hq, hp] at h
      split at h
      · cases h
      · split at h
        · cases h
        · next hslash =>
          split at h
          · cases h
          · next hdir =>
            have hpath : path.getLast? ≠ some '/' := by simpa [endsInSlash] using hslash
            rw [locateName_of_getLast? hpath] at hq
            cases h
            exact ⟨q, hq, hdir, rfl⟩

theorem Moved.of_put {c : Bytes} (hp : v.item? p = some (.file c)) (hdir : v.item? q ≠ some .dir) :
    Moved v (((v.erase p).erase q).put q (.file content)) p q content := by
  have hne : q ≠ [] := fun he => hdir (by rw [he]; rfl)
  have hpne : p ≠ [] := fun he => by
    rw [he] at hp
    cases hp
  refine ⟨⟨c, hp⟩, hdir, rfl, ?_, fun r hrp hrq => ?_⟩
  · rw [item?_put _ q q _ hne, if_pos rfl]
  · have hr : r ≠ q := fun he => hrq (he ▸ List.prefix_refl q)
    rw [item?_put _ q r _ hne, if_neg hr, item?_erase _ q r hne, item?_erase v p r hpne]
    simp [hrp, hrq]

/-- Filling a file changes no other place, and no path leads elsewhere. -/
theorem find_filled {temp : Text} {c : Bytes} (hf : v.find .entry temp = .ok (p, .file c)) (content : Bytes) :
    v.Keeps (v.put p (.file content)) ∧ (v.put p (.file content)).Keeps v ∧
      (v.put p (.file content)).find .entry temp = .ok (p, .file content) := by
  obtain ⟨hl, hp⟩ := find_eq_ok_iff.mp hf
  have hpne : p ≠ [] := fun he => by
    rw [he] at hp
    cases hp
  have hput (r : Place) := item?_put v p r (.file content) hpne
  have hself : (v.put p (.file content)).item? p = some (.file content) := by
    rw [hput, if_pos rfl]
  have hsame (r : Place) (hr : r ≠ p) : (v.put p (.file content)).item? r = v.item? r := by
    rw [hput, if_neg hr]
  have hkeep : v.Keeps (v.put p (.file content)) := keeps_of_same hp hself hsame
  obtain ⟨hu, hlead⟩ := locate_eq_ok_iff.mp hl
  exact ⟨hkeep, keeps_of_same hself hp fun r hr => (hsame r hr).symm,
    find_eq_ok_iff.mpr ⟨locate_eq_ok_iff.mpr ⟨hu, hlead.keep hkeep⟩, hself⟩⟩

theorem without_of_find {temp : Text} {c : Bytes} (hf : v.find .entry temp = .ok (p, .file c))
    (htemp : temp.getLast? ≠ some '/') : Disk.without temp v = v.erase p := by
  have hslash : endsInSlash temp = false := by simpa [endsInSlash] using htemp
  simp [Disk.without, removeFile, withoutSlashes_of_getLast? htemp, hf, hslash]

/-- What fills a file and gives it a name puts it there with its new content, or takes it away. -/
theorem persist_cases {temp : Text} {c : Bytes} {r : Except IoError Unit}
    (hf : v.find .entry temp = .ok (p, .file c)) (htemp : temp.getLast? ≠ some '/')
    (h : Disk.on v (Disk.persist temp path content) = (r, w)) :
    (r = .ok () ∧ ∃ q, v.locate .entry path = .ok q ∧ v.item? q ≠ some .dir ∧
        w = (((v.put p (.file content)).erase p).erase q).put q (.file content)) ∨
      ∃ e, r = .error e ∧ w = (v.put p (.file content)).erase p := by
  obtain ⟨hkeep, hback, hfill⟩ := find_filled hf content
  simp only [Disk.on, ExceptT.run, Disk.persist, hf] at h
  split at h
  · next hw =>
    obtain ⟨q, hq, hdir, heq⟩ := renameFile_eq_ok hfill htemp hw
    obtain ⟨hu, hlead⟩ := locate_eq_ok_iff.mp hq
    cases h
    exact .inl ⟨rfl, q, locate_eq_ok_iff.mpr ⟨hu, hlead.keep hback⟩, fun hd => hdir (hkeep.dir q hd), heq⟩
  · next e he =>
    cases h
    exact .inr ⟨e, rfl, without_of_find hfill htemp⟩

/-- What fills a file and gives it a name moves it there with its new content. -/
theorem persist_moves {temp : Text} {c : Bytes}
    (hf : v.find .entry temp = .ok (p, .file c)) (htemp : temp.getLast? ≠ some '/')
    (h : Disk.on v (Disk.persist temp path content) = (.ok (), w)) :
    ∃ q, v.locate .entry path = .ok q ∧ Moved v w p q content := by
  obtain ⟨-, hback, hfill⟩ := find_filled hf content
  have hp := (find_eq_ok_iff.mp hf).2
  rcases persist_cases hf htemp h with ⟨-, q, hq, hdir, rfl⟩ | ⟨e, he, -⟩
  · have hm : Moved (v.put p (.file content)) _ p q content :=
      .of_put (find_eq_ok_iff.mp hfill).2 fun hd => hdir (hback.dir q hd)
    have hpne : p ≠ [] := fun he => by
      rw [he] at hp
      cases hp
    refine ⟨q, hq, ⟨_, hp⟩, hdir, hm.here, hm.placed, fun r hrp hrq => ?_⟩
    have hr : r ≠ p := fun he => hrp (he ▸ List.prefix_refl p)
    rw [hm.kept r hrp hrq, item?_put v p r _ hpne, if_neg hr]
  · cases he

end Patchwork.Volume
