import Patchwork.Proofs.Volume.Replaced

/-!
# What a walk looks at

A walk along a path looks at some places, and nothing that stands elsewhere makes a difference to it.  Two volumes that
have the same items but at places that nobody looks at are therefore told apart neither by what is found at a path nor
by making directories; and what is found stands at a place that was looked at.
-/
namespace Patchwork

namespace Volume

variable {u v w : Volume} {aim : Aim} {n : Nat} {p q r : Place} {s : Step} {steps more tail : List Step}
  {path trimmed : Text} {c : Bytes} {i : Item} {Q : Place → Prop}

/-- A walk along some steps from a place looks at another place, through however many links. -/
inductive Visits (v : Volume) : Place → List Step → Place → Prop
  | here {p : Place} {steps : List Step} : Visits v p steps p
  | stay {p q : Place} {s : Step} {steps : List Step} (hp : v.item? p = some .dir) (hs : s = .stay ∨ s = .slash)
      (h : Visits v p steps q) : Visits v p (s :: steps) q
  | up {p q : Place} {steps : List Step} (hp : v.item? p = some .dir) (h : Visits v p.dropLast steps q) :
      Visits v p (.up :: steps) q
  | name {p : Place} {name : Text} {steps : List Step} (hp : v.item? p = some .dir) :
      Visits v p (.down name :: steps) (p ++ [name])
  | link {p q : Place} {name target : Text} {steps : List Step} (hp : v.item? p = some .dir)
      (hi : v.item? (p ++ [name]) = some (.link target))
      (h : Visits v (start p target) (Step.ofPath target ++ steps) q) : Visits v p (.down name :: steps) q
  | down {p q : Place} {name : Text} {steps : List Step} (hp : v.item? p = some .dir)
      (hlink : ∀ t, v.item? (p ++ [name]) ≠ some (.link t)) (h : Visits v (p ++ [name]) steps q) :
      Visits v p (.down name :: steps) q

/-- The walk along a path looks at a place. -/
def Comes (v : Volume) (path : Text) (q : Place) : Prop := Visits v (start v.here path) (Step.ofPath path) q

/-! ### Ways -/

theorem Visits.append (h : Visits v p steps q) (more : List Step) : Visits v p (steps ++ more) q := by
  induction h with
  | here => exact .here
  | stay hp hs _ ih => exact .stay hp hs ih
  | up hp _ ih => exact .up hp ih
  | name hp => exact .name hp
  | link hp hi _ ih =>
    rw [List.append_assoc] at ih
    exact .link hp hi ih
  | down hp hlink _ ih => exact .down hp hlink ih

/-- A slash at the end has nothing looked at. -/
theorem Visits.of_append_tail (h : Visits v p (steps ++ tail) q) (htail : tail = [] ∨ tail = [.slash]) :
    Visits v p steps q := by
  rcases htail with rfl | rfl
  · rwa [List.append_nil] at h
  · generalize hall : steps ++ [Step.slash] = all at h
    induction h generalizing steps with
    | here => exact .here
    | stay hp hs h ih =>
      cases steps with
      | nil =>
        cases hall
        cases h
        exact .here
      | cons s steps =>
        cases hall
        exact .stay hp hs (ih rfl)
    | up hp _ ih =>
      cases steps with
      | nil => cases hall
      | cons s steps =>
        cases hall
        exact .up hp (ih rfl)
    | name hp =>
      cases steps with
      | nil => cases hall
      | cons s steps =>
        cases hall
        exact .name hp
    | link hp hi _ ih =>
      cases steps with
      | nil => cases hall
      | cons s steps =>
        cases hall
        exact .link hp hi (ih (List.append_assoc ..))
    | down hp hlink _ ih =>
      cases steps with
      | nil => cases hall
      | cons s steps =>
        cases hall
        exact .down hp hlink (ih rfl)

/-- Where a walk ends it has looked. -/
theorem Leads.visits (h : Leads v aim n p steps q) : Visits v p steps q := by
  induction h with
  | done => exact .here
  | stay hp hs _ ih => exact .stay hp hs ih
  | up hp _ ih => exact .up hp ih
  | absent he => exact .name he.dir
  | entry he => exact .name he.dir
  | link he hi _ _ ih => exact .link he.dir hi ih
  | down he hi hlink _ ih => exact .down he.dir (fun t ht => hlink t (Option.some.inj (hi ▸ ht))) ih

theorem comes_of_locate (h : v.locate aim path = .ok q) : v.Comes path q := (locate_eq_ok_iff.mp h).2.visits

/-- A walk looks no farther than what is no directory. -/
theorem Visits.eq_of_not_dir (h : Visits v p steps q) (hp : v.item? p ≠ some .dir) : q = p := by
  cases h with
  | here => rfl
  | stay hdir | up hdir | name hdir | link hdir | down hdir => exact absurd hdir hp

/-- What was looked at is looked at when there is more. -/
theorem Visits.grow (h : Visits v p steps q) (hg : Grows v w) : Visits w p steps q := by
  induction h with
  | here => exact .here
  | stay hp hs _ ih => exact .stay (hg.kept _ _ hp) hs ih
  | up hp _ ih => exact .up (hg.kept _ _ hp) ih
  | name hp => exact .name (hg.kept _ _ hp)
  | link hp hi _ ih => exact .link (hg.kept _ _ hp) (hg.kept _ _ hi) ih
  | down hp hlink _ ih =>
    refine .down (hg.kept _ _ hp) (fun t ht => hlink t ?_) ih
    exact (hg.keeps.ways.link _ t).mpr ht

theorem Comes.grow (h : v.Comes path q) (hg : Grows v w) : w.Comes path q := by
  rw [Comes, hg.here]
  exact Visits.grow h hg

theorem Comes.of_trimmed (h : v.Comes trimmed q) (ht : Trimmed path trimmed) : v.Comes path q := by
  obtain ⟨tail, -, hsteps⟩ := ht.steps
  rw [Comes, hsteps, ← ht.start]
  exact Visits.append h tail

/-- A path and those above it begin with the same steps. -/
theorem steps_of_mem_chain {x : Text} (hx : x ∈ Path.chain path) : Path.isAbsolute x = Path.isAbsolute path ∧
    ∃ front tail back, Step.ofPath x = front ++ tail ∧ (tail = [] ∨ tail = [.slash]) ∧
      Step.ofPath path = front ++ back := by
  rw [Path.chain_eq] at hx
  rcases List.mem_append.mp hx with hx | hx
  · rw [Path.rungs] at hx
    obtain ⟨k, hk, rfl⟩ := List.mem_map.mp hx
    obtain ⟨hk, hreal⟩ := List.mem_filter.mp hk
    have hlt : k < (Path.parts path).length := by simpa using hk
    obtain ⟨init, y, more, hparts, hinit⟩ : ∃ init y more, Path.parts path = init ++ y :: more ∧ init.length = k :=
      ⟨_, _, _, (List.take_append_drop k _).symm.trans
        (congrArg _ (List.drop_eq_getElem_cons hlt)), List.length_take_of_le hlt.le⟩
    have hy : y ≠ [] := by
      refine Path.isReal_ne_nil (i := k) ?_
      simpa [hparts, ← hinit] using hreal
    have htake : (Path.parts path).take (k + 1) = init ++ [y] := by
      rw [hparts, ← hinit, List.append_cons, List.take_left' (by simp)]
    rw [htake]
    by_cases hmore : more = []
    · rw [← hmore, ← hparts, Path.ofParts_parts]
      exact ⟨rfl, _, [], [], (List.append_nil _).symm, .inl rfl, (List.append_nil _).symm⟩
    · have hrung := Path.rung_ofParts hparts hmore hy
      refine ⟨hrung.absolute, _, [], more.filterMap Step.ofPart? ++ if path.getLast? = some '/' then [.slash] else [],
        hrung.steps.trans (List.append_nil _).symm, .inl rfl, ?_⟩
      rw [Step.ofPath, hparts, List.append_cons, List.filterMap_append, List.append_assoc]
  · obtain rfl := List.mem_singleton.mp hx
    by_cases habs : Path.isAbsolute path = true
    · rw [if_pos habs, habs]
      exact ⟨rfl, [], [.slash], _, rfl, .inr rfl, rfl⟩
    · rw [if_neg habs, eq_false_of_ne_true habs]
      exact ⟨rfl, [], [], _, rfl, .inl rfl, rfl⟩

/-- Whoever looks at a place on a path above looks at it on the path, too. -/
theorem Comes.of_mem_chain {x : Text} (h : v.Comes x q) (hx : x ∈ Path.chain path) : v.Comes path q := by
  obtain ⟨habs, front, tail, back, hfront, htail, hpath⟩ := steps_of_mem_chain hx
  rw [Comes, start, habs, ← start, hfront] at h
  rw [Comes, hpath]
  exact (h.of_append_tail htail).append back

/-- What a walk looks at on its way to a directory is a directory or a link. -/
theorem Visits.onWay (h : Visits v p (steps ++ more) q) (hl : Leads v .item n p steps r)
    (hr : v.item? r = some .dir) :
    v.item? q = some .dir ∨ (∃ t, v.item? q = some (.link t)) ∨ Visits v r more q := by
  induction hl with
  | done => exact .inr (.inr h)
  | stay hp hs _ ih =>
    rcases hs with rfl | rfl <;> cases h with
    | here => exact .inl hp
    | stay _ _ h => exact ih h hr
  | up hp _ ih =>
    cases h with
    | here => exact .inl hp
    | up _ h => exact ih h hr
    | stay _ hs => exact absurd hs not_idle_up
  | absent _ hi =>
    rw [hi] at hr
    cases hr
  | entry _ _ haim => cases haim
  | link he hi _ _ ih =>
    cases h with
    | here => exact .inl he.dir
    | stay _ hs => exact absurd hs (not_idle_down _)
    | name => exact .inr (.inl ⟨_, hi⟩)
    | link _ hj h =>
      rw [hi] at hj
      cases hj
      exact ih (by rwa [List.append_assoc]) hr
    | down _ hnot => exact absurd hi (hnot _)
  | down he hi hlink _ ih =>
    cases h with
    | here => exact .inl he.dir
    | stay _ hs => exact absurd hs (not_idle_down _)
    | name => exact ih .here hr
    | link _ hj =>
      rw [hi] at hj
      cases hj
      exact absurd rfl (hlink _)
    | down _ _ h => exact ih h hr

theorem Visits.along_names (hlink : NoLinkTo v p names) (h : Visits v p (names.map .down) q) :
    ∃ s, s <+: names ∧ q = p ++ s := by
  induction names generalizing p with
  | nil =>
    cases h
    exact ⟨[], List.prefix_refl _, (List.append_nil _).symm⟩
  | cons name names ih =>
    have hhere : q = p → ∃ s, s <+: name :: names ∧ q = p ++ s := fun hq =>
      ⟨[], List.nil_prefix, by rw [hq, List.append_nil]⟩
    rw [List.map_cons] at h
    generalize hsteps : names.map Step.down = steps at h
    cases h with
    | here => exact hhere rfl
    | stay _ hs => exact absurd hs (not_idle_down _)
    | name => exact ⟨[name], List.prefix_append [name] names, rfl⟩
    | link _ hi => exact absurd hi (hlink [name] (List.prefix_append [name] names) _)
    | down _ _ h =>
      subst hsteps
      obtain ⟨s, hs, rfl⟩ := ih hlink.tail h
      exact ⟨name :: s, (List.prefix_cons_inj name).mpr hs, List.append_assoc ..⟩

/-! ### What makes no difference -/

/-- Two volumes have the same items but at some places. -/
structure SameBut (Q : Place → Prop) (v w : Volume) : Prop where
  here : w.here = v.here
  kept : ∀ r, ¬ Q r → w.item? r = v.item? r

theorem SameBut.mono {P : Place → Prop} (h : SameBut Q v w) (hsub : ∀ r, Q r → P r) : SameBut P v w :=
  ⟨h.here, fun r hr => h.kept r fun hq => hr (hsub r hq)⟩

theorem Replaced.sameBut (h : Replaced v w q) : SameBut (· = q) v w := ⟨h.here, fun r hr => h.kept r hr⟩

/-- By induction on the steps; each place that the walk comes to, and each that it enters, is one that is looked at. -/
theorem SameBut.walk (h : SameBut Q v w) {onLink onLink' : Place → Text → List Step → Except OsError Place}
    (honLink : ∀ p target steps, (∀ r, Q r → ¬ Visits v (start p target) (Step.ofPath target ++ steps) r) →
      onLink' p target steps = onLink p target steps)
    (hnot : ∀ r, Q r → ¬ Visits v p steps r) : w.walk onLink' aim p steps = v.walk onLink aim p steps := by
  induction steps generalizing p with
  | nil => rfl
  | cons step steps ih =>
    have hp : w.item? p = v.item? p := h.kept p fun hq => hnot p hq .here
    rw [Volume.walk.eq_def, Volume.walk.eq_def v]
    dsimp only
    rw [hp]
    split
    · next hdir =>
      cases step with
      | stay => exact ih fun r hq hr => hnot r hq (.stay hdir (.inl rfl) hr)
      | slash => exact ih fun r hq hr => hnot r hq (.stay hdir (.inr rfl) hr)
      | up => exact ih fun r hq hr => hnot r hq (.up hdir hr)
      | down name =>
        have hn : w.item? (p ++ [name]) = v.item? (p ++ [name]) := h.kept _ fun hq => hnot _ hq (.name hdir)
        dsimp only
        rw [hn]
        split
        · rfl
        · split
          · rfl
          · split
            · rfl
            · next target hi =>
              split
              · rfl
              · exact honLink _ _ _ fun r hq hr => hnot r hq (.link hdir hi hr)
            · next i hother hi =>
              have hlink (t : Text) (ht : v.item? (p ++ [name]) = some (.link t)) : False :=
                hother t (Option.some.inj (hi ▸ ht) ▸ rfl)
              exact ih fun r hq hr => hnot r hq (.down hdir hlink hr)
    · rfl
    · rfl

theorem SameBut.walkLinks (h : SameBut Q v w) (hnot : ∀ r, Q r → ¬ Visits v p steps r) :
    w.walkLinks aim n p steps = v.walkLinks aim n p steps := by
  induction n generalizing p steps with
  | zero => exact h.walk (fun _ _ _ _ => rfl) hnot
  | succ n ih => exact h.walk (fun _ _ _ hlink => ih hlink) hnot

theorem SameBut.locate (h : SameBut Q v w) (hnot : ∀ r, Q r → ¬ v.Comes path r) (aim : Aim) :
    w.locate aim path = v.locate aim path := by
  simp only [Volume.locate, h.here, h.walkLinks hnot]

theorem SameBut.find (h : SameBut Q v w) (hnot : ∀ r, Q r → ¬ v.Comes path r) (aim : Aim) :
    w.find aim path = v.find aim path := by
  unfold Volume.find
  rw [h.locate hnot]
  cases hl : v.locate aim path with
  | error e => rfl
  | ok p =>
    have hp : w.item? p = v.item? p := h.kept p fun hq => hnot p hq (comes_of_locate hl)
    simp only [hp]

theorem SameBut.read (h : SameBut Q v w) (hnot : ∀ r, Q r → ¬ v.Comes path r) : w.read path = v.read path := by
  have hfind := h.find hnot .item
  unfold Volume.read openFile
  rw [hfind]
  split <;> rfl

theorem SameBut.isDir (h : SameBut Q v w) (hnot : ∀ r, Q r → ¬ v.Comes path r) : w.isDir path = v.isDir path := by
  unfold Volume.isDir
  rw [h.find hnot]

/-- A walk goes on neither from a place nor through it. -/
structure Stops (v : Volume) (p : Place) : Prop where
  dir : v.item? p ≠ some .dir
  link : ∀ t, v.item? p ≠ some (.link t)

/-- If walks stop at what is different, they look at nothing else. -/
theorem Visits.of_sameBut (h : Visits w p steps q) (hs : SameBut Q v w) (hstop : ∀ r, Q r → Stops w r) :
    Visits v p steps q := by
  have hdir (r : Place) (hr : w.item? r = some .dir) : v.item? r = some .dir := by
    rw [← hs.kept r fun hq => (hstop r hq).dir hr, hr]
  induction h with
  | here => exact .here
  | stay hp hstep _ ih => exact .stay (hdir _ hp) hstep ih
  | up hp _ ih => exact .up (hdir _ hp) ih
  | name hp => exact .name (hdir _ hp)
  | @link p q name target steps hp hi _ ih =>
    refine .link (hdir _ hp) (?_ : v.item? (p ++ [name]) = some (.link target)) ih
    rw [← hs.kept _ fun hq => (hstop _ hq).link target hi, hi]
  | @down p q name steps hp hlink h ih =>
    by_cases hq : Q (p ++ [name])
    · obtain rfl := h.eq_of_not_dir (hstop _ hq).dir
      exact .name (hdir _ hp)
    · exact .down (hdir _ hp) (fun t ht => hlink t (by rw [hs.kept _ hq, ht])) ih

/-- No directory has the name of what is a file, or nothing. -/
theorem not_dir_of_entry (hf : FileOrNone v path) (hq : v.locate .entry path = .ok q) : v.item? q ≠ some .dir := by
  intro hd
  obtain ⟨hu, hlead⟩ := locate_eq_ok_iff.mp hq
  have hitem := hlead.item_of_entry fun t ht => by
    rw [hd] at ht
    cases ht
  have hread := read_of_find_dir (find_eq_ok_iff.mpr ⟨locate_eq_ok_iff.mpr ⟨hu, hitem⟩, hd⟩)
  rcases hf with ⟨c, hc⟩ | hnone
  · rw [hread] at hc
    cases hc
  · rw [hread] at hnone
    cases hnone

theorem exists_replaced (hv : v.Sound) (hq : v.item? q ≠ some .dir) (hw : w.item? q = none ∨ ∃ c, w.item? q = some (.file c)) :
    ∃ x, Replaced v x q ∧ x.item? q = w.item? q := by
  rcases hw with hnone | ⟨c, hc⟩
  · have hself := item?_erase_self hq
    exact ⟨v.erase q, ⟨rfl, hq, .inl hself, fun r hr => hv.item?_erase hq hr⟩, hself.trans hnone.symm⟩
  · obtain ⟨hreplaced, hself⟩ := replaced_put hv hq c
    exact ⟨_, hreplaced, hself.trans hc.symm⟩

/-- A path leads to what stands at the place of its name if that is a file or nothing by now, and the walk looks at no
other place where something has changed. -/
theorem SameBut.locate_self (h : SameBut Q v w) (hv : v.Sound) (hf : FileOrNone v path)
    (hq : v.locate .entry path = .ok q) (hw : w.item? q = none ∨ ∃ c, w.item? q = some (.file c))
    (hnot : ∀ r, Q r → r ≠ q → ¬ v.Comes path r) : w.locate .item path = .ok q := by
  obtain ⟨x, hreplaced, hself⟩ := exists_replaced hv (not_dir_of_entry hf hq) hw
  have hstop (r : Place) (hr : r = q) : Stops x r := by
    subst hr
    rcases hreplaced.after with hnone | ⟨c, hc⟩
    · exact ⟨by rw [hnone]; nofun, by rw [hnone]; nofun⟩
    · exact ⟨by rw [hc]; nofun, by rw [hc]; nofun⟩
  have hsame : SameBut (fun r => Q r ∧ r ≠ q) x w := by
    refine ⟨h.here.trans hreplaced.here.symm, fun r hr => ?_⟩
    by_cases hrq : r = q
    · rw [hrq, hself]
    · rw [hreplaced.kept r hrq, h.kept r fun hin => hr ⟨hin, hrq⟩]
  rw [hsame.locate fun r hr hcomes => hnot r hr.1 hr.2 ?_]
  · exact hreplaced.locate_self hq fun s hs => (hs.of_fileOrNone hv hf hq).1
  · rw [Comes, hreplaced.here] at hcomes
    exact Visits.of_sameBut hcomes hreplaced.sameBut hstop

/-! ### Directories that are made -/

/-- Two volumes are the same but at some places, and at these the second one is as it was. -/
structure InStep (Q : Place → Prop) (w v' w' : Volume) : Prop where
  same : SameBut Q v' w'
  left : ∀ r, Q r → w'.item? r = w.item? r

theorem SameBut.put (h : SameBut Q v w) (hne : p ≠ []) (hp : ¬ Q p) (i : Item) :
    InStep Q w (v.put p i) (w.put p i) := by
  refine ⟨⟨h.here, fun r hr => ?_⟩, fun r hr => ?_⟩
  · rw [item?_put w p r i hne, item?_put v p r i hne, h.kept r hr]
  · rw [item?_put w p r i hne, if_neg fun (he : r = p) => hp (he ▸ hr)]

theorem SameBut.makeDir (h : SameBut Q v w) (hnot : ∀ r, Q r → ¬ v.Comes path r) :
    (∃ e, v.makeDir path = .error e ∧ w.makeDir path = .error e) ∨
      ∃ v' w', v.makeDir path = .ok v' ∧ w.makeDir path = .ok w' ∧ InStep Q w v' w' := by
  have htrimmed (r : Place) (hr : v.Comes (withoutSlashes path) r) : v.Comes path r :=
    hr.of_trimmed (trimmed_withoutSlashes path)
  have hname : w.locateName path = v.locateName path := by
    unfold locateName
    rw [h.locate fun r hq hr => hnot r hq (htrimmed r hr)]
  unfold Volume.makeDir
  rw [hname]
  cases hl : v.locateName path with
  | error e => exact .inl ⟨e, rfl, rfl⟩
  | ok p =>
    have hp : ¬ Q p := fun hq => hnot p hq (htrimmed p (comes_of_locate (locateName_eq_ok hl).1))
    dsimp only
    rw [h.kept p hp]
    split
    · exact .inl ⟨_, rfl, rfl⟩
    · next hnone =>
      have hne : p ≠ [] := by
        rintro rfl
        exact hnone rfl
      exact .inr ⟨_, _, rfl, rfl, h.put hne hp .dir⟩

theorem SameBut.makeDir_error {e : IoError} (h : SameBut Q v w) (hnot : ∀ r, Q r → ¬ v.Comes path r)
    (he : v.makeDir path = .error e) : w.makeDir path = .error e := by
  rcases h.makeDir hnot with ⟨e', hv, hw⟩ | ⟨v', w', hv, -, -⟩
  · rw [he] at hv
    cases hv
    exact hw
  · rw [he] at hv
    cases hv

theorem SameBut.makeDir_ok {v' : Volume} (h : SameBut Q v w) (hnot : ∀ r, Q r → ¬ v.Comes path r)
    (hm : v.makeDir path = .ok v') : ∃ w', w.makeDir path = .ok w' ∧ InStep Q w v' w' := by
  rcases h.makeDir hnot with ⟨e, hv, -⟩ | ⟨x, w', hv, hw, hin⟩
  · rw [hm] at hv
    cases hv
  · rw [hm] at hv
    cases hv
    exact ⟨w', hw, hin⟩

/-- The walks along some paths look at none of some places. -/
def Unseen (Q : Place → Prop) (paths : List Text) (v : Volume) : Prop :=
  ∀ path ∈ paths, ∀ r, Q r → ¬ v.Comes path r

theorem Unseen.self {above : List Text} (h : Unseen Q (path :: above) w) (hg : Grows v w) :
    ∀ r, Q r → ¬ v.Comes path r := fun r hq hr => h path List.mem_cons_self r hq (hr.grow hg)

theorem Unseen.upper {above : List Text} (h : Unseen Q (path :: above) w) (hg : Grows v w) :
    Unseen Q above v := fun x hx r hq hr => h x (List.mem_cons_of_mem _ hx) r hq (hr.grow hg)

/-- Directories are made in step with another volume if nobody looks at the places where the two differ. -/
theorem SameBut.makes {v' : Volume} {res : Except IoError Unit} {paths : List Text} (h : SameBut Q v w)
    (hm : Disk.Makes v paths res v') (hnot : Unseen Q paths v') :
    ∃ w', Disk.Makes w paths res w' ∧ InStep Q w v' w' := by
  have hidle : InStep Q w v w := ⟨h, fun _ _ => rfl⟩
  induction hm with
  | none => exact ⟨w, .none, hidle⟩
  | empty => exact ⟨w, .empty, hidle⟩
  | new hne hm =>
    obtain ⟨w', hw, hin⟩ := h.makeDir_ok (hnot.self (grows_makeDir hm)) hm
    exact ⟨w', .new hne hw, hin⟩
  | there hne he hkind hdir =>
    have hlook := hnot.self (.refl v)
    exact ⟨w, .there hne (h.makeDir_error hlook he) hkind (h.isDir hlook ▸ hdir), hidle⟩
  | refused hne he hkind hdir =>
    have hlook := hnot.self (.refl v)
    exact ⟨w, .refused hne (h.makeDir_error hlook he) hkind (h.isDir hlook ▸ hdir), hidle⟩
  | stuck hne he hkind hup ih =>
    obtain ⟨w', hw, hin⟩ := ih (hnot.upper (.refl _))
    exact ⟨w', .stuck hne (h.makeDir_error (hnot.self hup.grows) he) hkind hw, hin⟩
  | lower hne he hkind hup hm ih =>
    have hg := grows_makeDir hm
    obtain ⟨x, hx, hin⟩ := ih (hnot.upper hg)
    obtain ⟨w', hw, hin'⟩ := hin.same.makeDir_ok (hnot.self hg) hm
    refine ⟨w', .lower hne (h.makeDir_error (hnot.self (hup.grows.trans hg)) he) hkind hx hw, hin'.same, ?_⟩
    exact fun r hr => (hin'.left r hr).trans (hin.left r hr)
  | found hne he hkind hup he' hdir ih =>
    obtain ⟨x, hx, hin⟩ := ih (hnot.upper (.refl _))
    have hlook := hnot.self (.refl _)
    exact ⟨x, .found hne (h.makeDir_error (hnot.self hup.grows) he) hkind hx
      (hin.same.makeDir_error hlook he') (hin.same.isDir hlook ▸ hdir), hin⟩
  | unmade hne he hkind hup he' hdir ih =>
    obtain ⟨x, hx, hin⟩ := ih (hnot.upper (.refl _))
    have hlook := hnot.self (.refl _)
    exact ⟨x, .unmade hne (h.makeDir_error (hnot.self hup.grows) he) hkind hx
      (hin.same.makeDir_error hlook he') (hin.same.isDir hlook ▸ hdir), hin⟩

theorem directory_cases (path : Text) : Path.directory path = ['.'] ∨ Path.directory path ∈ Path.chain path := by
  unfold Path.directory Path.parent?
  split
  · next dir hdir =>
    split
    · exact .inl rfl
    · exact .inr (List.mem_of_getElem? hdir)
  · exact .inl rfl

/-- The directories above a path are made in step with another volume if the walk along the path looks at none of the
places where the two differ. -/
theorem SameBut.dirsMade (h : SameBut Q v w) (hnot : ∀ r, Q r → ¬ (Disk.dirsMade v path).Comes path r) :
    InStep Q w (Disk.dirsMade v path) (Disk.dirsMade w path) := by
  unfold Disk.dirsMade at hnot ⊢
  rcases directory_cases path with hdir | hdir
  · rw [hdir, Disk.createDirAll_dot, Disk.createDirAll_dot]
    exact ⟨h, fun _ _ => rfl⟩
  · have hunseen : Unseen Q (Path.directory path :: (Path.chain (Path.directory path)).drop 1)
        (Disk.on v (Disk.createDirAll (Path.directory path))).2 := by
      intro x hx r hq hr
      refine hnot r hq (Comes.of_mem_chain ?_ hdir)
      rcases List.mem_cons.mp hx with rfl | hx
      · exact hr
      · exact hr.of_mem_chain (List.mem_of_mem_drop hx)
    obtain ⟨w', hw, hin⟩ := h.makes (Disk.on_makeDirs _ v) hunseen
    rw [Disk.createDirAll, Disk.makes_iff.mp hw]
    exact hin

end Volume

end Patchwork
