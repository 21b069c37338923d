import Patchwork.Proofs.Volume.Paths
import Patchwork.Proofs.Volume.Sound

/-!
# Where steps lead

The walk along a path as a relation, with one rule for each step that can be taken.  Arguments about
paths go by its rules, and need not follow the recursion through links.
-/
namespace Patchwork.Volume

/-- A name can be looked up in a directory, with some steps behind it. -/
structure Enters (v : Volume) (aim : Aim) (p : Place) (name : Text) (steps : List Step) : Prop where
  dir : v.item? p = some .dir
  noSlash : ¬ (aim = .file ∧ steps = [.slash])
  short : ¬ nameLimit < (Text.Utf8.encode name).length

/-- The steps lead from one place to another through at most so many links. -/
inductive Leads (v : Volume) (aim : Aim) : Nat → Place → List Step → Place → Prop
  | done {n : Nat} {p : Place} : Leads v aim n p [] p
  | stay {n : Nat} {p q : Place} {s : Step} {steps : List Step} (hp : v.item? p = some .dir)
      (hs : s = .stay ∨ s = .slash) (h : Leads v aim n p steps q) : Leads v aim n p (s :: steps) q
  | up {n : Nat} {p q : Place} {steps : List Step} (hp : v.item? p = some .dir)
      (h : Leads v aim n p.dropLast steps q) : Leads v aim n p (.up :: steps) q
  | absent {n : Nat} {p : Place} {name : Text} (he : Enters v aim p name [])
      (hi : v.item? (p ++ [name]) = none) : Leads v aim n p [.down name] (p ++ [name])
  | entry {n : Nat} {p : Place} {name target : Text} (he : Enters v aim p name [])
      (hi : v.item? (p ++ [name]) = some (.link target)) (haim : aim = .entry) :
      Leads v aim n p [.down name] (p ++ [name])
  | link {n : Nat} {p q : Place} {name target : Text} {steps : List Step}
      (he : Enters v aim p name steps) (hi : v.item? (p ++ [name]) = some (.link target))
      (hgo : ¬ (steps = [] ∧ aim = .entry))
      (h : Leads v aim n (start p target) (Step.ofPath target ++ steps) q) :
      Leads v aim (n + 1) p (.down name :: steps) q
  | down {n : Nat} {p q : Place} {name : Text} {steps : List Step} {i : Item}
      (he : Enters v aim p name steps) (hi : v.item? (p ++ [name]) = some i)
      (hlink : ∀ t, i ≠ .link t) (h : Leads v aim n (p ++ [name]) steps q) :
      Leads v aim n p (.down name :: steps) q

variable {v : Volume} {aim : Aim} {n : Nat} {p q : Place} {s : Step} {steps : List Step}

/-- What a walk does at a link when it may follow `n` of them. -/
def followLink (v : Volume) (aim : Aim) : Nat → Place → Text → List Step → Except OsError Place
  | 0 => fun _ _ _ => .error .linkLoop
  | n + 1 => fun p target steps =>
    v.walkLinks aim n (start p target) (Step.ofPath target ++ steps)

theorem walkLinks_eq (v : Volume) (aim : Aim) (n : Nat) :
    v.walkLinks aim n = v.walk (v.followLink aim n) aim := by
  cases n <;> rfl

theorem leads_walk {onLink : Place → Text → List Step → Except OsError Place}
    (hlink : ∀ p target steps q, onLink p target steps = .ok q →
      ∃ m, n = m + 1 ∧ Leads v aim m (start p target) (Step.ofPath target ++ steps) q)
    (h : v.walk onLink aim p steps = .ok q) : Leads v aim n p steps q := by
  induction steps generalizing p with
  | nil =>
    obtain rfl : p = q := Except.ok.inj h
    exact .done
  | cons s steps ih =>
    rw [walk.eq_def] at h
    dsimp only at h
    split at h
    · next hp =>
      split at h
      · exact .stay hp (Or.inl rfl) (ih h)
      · exact .stay hp (Or.inr rfl) (ih h)
      · exact .up hp (ih h)
      · next name =>
        split at h
        · cases h
        · next hslash =>
          split at h
          · cases h
          · next hshort =>
            have he : Enters v aim p name steps := ⟨hp, hslash, hshort⟩
            split at h
            · next hi =>
              split at h
              · next hnil =>
                subst hnil
                obtain rfl := Except.ok.inj h
                exact .absent he hi
              · cases h
            · next target hi =>
              split at h
              · next hlast =>
                obtain ⟨rfl, haim⟩ := hlast
                obtain rfl := Except.ok.inj h
                exact .entry he hi haim
              · next hgo =>
                obtain ⟨m, rfl, hm⟩ := hlink _ _ _ _ h
                exact .link he hi hgo hm
            · next i hne hi => exact .down he hi (fun t ht => hne t (ht ▸ rfl)) (ih h)
    · cases h
    · cases h

theorem leads_of_walkLinks (h : v.walkLinks aim n p steps = .ok q) : Leads v aim n p steps q := by
  induction n generalizing p steps q with
  | zero =>
    rw [walkLinks_eq] at h
    refine leads_walk ?_ h
    rintro _ _ _ _ ⟨⟩
  | succ n ih =>
    rw [walkLinks_eq] at h
    exact leads_walk (fun _ _ _ _ hl => ⟨n, rfl, ih hl⟩) h

/-! One step of a walk, by the kind of step. -/

theorem walkLinks_stay (hp : v.item? p = some .dir) (hs : s = .stay ∨ s = .slash) :
    v.walkLinks aim n p (s :: steps) = v.walkLinks aim n p steps := by
  rw [walkLinks_eq, walk.eq_def]
  simp only [hp]
  rcases hs with rfl | rfl <;> rfl

theorem walkLinks_up (hp : v.item? p = some .dir) :
    v.walkLinks aim n p (.up :: steps) = v.walkLinks aim n p.dropLast steps := by
  rw [walkLinks_eq, walk, hp]

theorem walkLinks_link {name target : Text} (he : Enters v aim p name steps)
    (hi : v.item? (p ++ [name]) = some (.link target)) (hgo : ¬ (steps = [] ∧ aim = .entry)) :
    v.walkLinks aim n p (.down name :: steps) = v.followLink aim n p target steps := by
  rw [walkLinks_eq, walk, he.dir]
  simp only [if_neg he.noSlash, if_neg he.short, hi, if_neg hgo]

theorem walkLinks_down {name : Text} {i : Item} (he : Enters v aim p name steps)
    (hi : v.item? (p ++ [name]) = some i) (hlink : ∀ t, i ≠ .link t) :
    v.walkLinks aim n p (.down name :: steps) = v.walkLinks aim n (p ++ [name]) steps := by
  rw [walkLinks_eq, walk, he.dir]
  simp only [if_neg he.noSlash, if_neg he.short, hi]

theorem walkLinks_of_leads (h : Leads v aim n p steps q) :
    v.walkLinks aim n p steps = .ok q := by
  induction h with
  | done => rw [walkLinks_eq, walk]
  | stay hp hs _ ih => rw [walkLinks_stay hp hs, ih]
  | up hp _ ih => rw [walkLinks_up hp, ih]
  | absent he hi =>
    rw [walkLinks_eq, walk, he.dir]
    simp only [if_neg he.noSlash, if_neg he.short, hi, if_true]
  | entry he hi haim =>
    subst haim
    rw [walkLinks_eq, walk, he.dir]
    simp only [if_neg he.noSlash, if_neg he.short, hi, and_self, if_true]
  | link he hi hgo _ ih =>
    rw [walkLinks_link he hi hgo]
    exact ih
  | down he hi hlink _ ih => rw [walkLinks_down he hi hlink, ih]

theorem walkLinks_eq_ok_iff : v.walkLinks aim n p steps = .ok q ↔ Leads v aim n p steps q :=
  ⟨leads_of_walkLinks, walkLinks_of_leads⟩

theorem Leads.dir_start (h : Leads v aim n p (s :: steps) q) : v.item? p = some .dir := by
  cases h with
  | stay hp => exact hp
  | up hp => exact hp
  | absent he => exact he.dir
  | entry he => exact he.dir
  | link he => exact he.dir
  | down he => exact he.dir

theorem not_idle_up : ¬ (Step.up = .stay ∨ Step.up = .slash) := by simp

theorem not_idle_down (name : Text) : ¬ (Step.down name = .stay ∨ Step.down name = .slash) := by simp

theorem Leads.of_stay (h : Leads v aim n p (s :: steps) q) (hs : s = .stay ∨ s = .slash) :
    Leads v aim n p steps q := by
  rcases hs with rfl | rfl <;> cases h with | stay _ _ h => exact h

theorem Leads.of_up (h : Leads v aim n p (.up :: steps) q) : Leads v aim n p.dropLast steps q := by
  cases h with
  | stay _ hs => exact absurd hs not_idle_up
  | up _ h => exact h

theorem Leads.of_link {name target : Text} (h : Leads v aim n p (.down name :: steps) q)
    (hi : v.item? (p ++ [name]) = some (.link target)) (hgo : ¬ (steps = [] ∧ aim = .entry)) :
    ∃ m, n = m + 1 ∧ Leads v aim m (start p target) (Step.ofPath target ++ steps) q := by
  cases h with
  | stay _ hs => exact absurd hs (not_idle_down _)
  | absent _ hn =>
    rw [hi] at hn
    cases hn
  | entry _ _ haim => exact absurd ⟨rfl, haim⟩ hgo
  | link _ hj _ h =>
    rw [hi] at hj
    cases hj
    exact ⟨_, rfl, h⟩
  | down _ hj hlink =>
    rw [hi] at hj
    cases hj
    exact absurd rfl (hlink target)

theorem Leads.of_down {name : Text} {i : Item} (h : Leads v aim n p (.down name :: steps) q)
    (hi : v.item? (p ++ [name]) = some i) (hlink : ∀ t, i ≠ .link t) :
    Leads v aim n (p ++ [name]) steps q := by
  cases h with
  | stay _ hs => exact absurd hs (not_idle_down _)
  | absent _ hn =>
    rw [hi] at hn
    cases hn
  | entry _ hj | link _ hj =>
    rw [hi] at hj
    cases hj
    exact absurd rfl (hlink _)
  | down _ _ _ h => exact h

theorem item?_start (hp : v.item? p = some .dir) (target : Text) :
    v.item? (start p target) = some .dir := by
  unfold start
  split
  · rfl
  · exact hp

/-- Where nothing stands yet, a directory stands above. -/
theorem Leads.dir_above (hv : v.Sound) (h : Leads v aim n p steps q) (hq : v.item? q = none)
    (hp : (v.item? p).isSome) : q ≠ [] ∧ v.item? q.dropLast = some .dir := by
  have hlast (d : Place) (name : Text) (hd : v.item? d = some .dir) :
      d ++ [name] ≠ [] ∧ v.item? (d ++ [name]).dropLast = some .dir := by
    rw [List.dropLast_concat]
    exact ⟨by simp, hd⟩
  induction h with
  | done =>
    rw [hq] at hp
    cases hp
  | stay _ _ _ ih => exact ih hq hp
  | up hd _ ih => exact ih hq (by rw [hv.above hd]; rfl)
  | absent he => exact hlast _ _ he.dir
  | entry he => exact hlast _ _ he.dir
  | link he _ _ _ ih => exact ih hq (by rw [item?_start he.dir]; rfl)
  | down _ hi _ _ ih => exact ih hq (by rw [hi]; rfl)

theorem Leads.item_of_file (h : Leads v .file n p steps q) : Leads v .item n p steps q := by
  have henters {p : Place} {name : Text} {steps : List Step} (he : Enters v .file p name steps) :
      Enters v .item p name steps := ⟨he.dir, nofun, he.short⟩
  induction h with
  | done => exact .done
  | stay hp hs _ ih => exact .stay hp hs ih
  | up hp _ ih => exact .up hp ih
  | absent he hi => exact .absent (henters he) hi
  | entry _ _ haim => cases haim
  | link he hi _ _ ih => exact .link (henters he) hi nofun ih
  | down he hi hlink _ ih => exact .down (henters he) hi hlink ih

/-- A way that follows every link does not end at one. -/
theorem Leads.not_link (hv : v.Sound) (h : Leads v aim n p steps q) (haim : aim ≠ .entry)
    (hp : ∀ t, v.item? p ≠ some (.link t)) (t : Text) : v.item? q ≠ some (.link t) := by
  induction h with
  | done => exact hp t
  | stay _ _ _ ih => exact ih hp
  | up hd _ ih =>
    refine ih fun t ht => ?_
    rw [hv.above hd] at ht
    cases ht
  | absent _ hi =>
    rw [hi]
    nofun
  | entry _ _ hentry => exact absurd hentry haim
  | link he _ _ _ ih => exact ih fun t ht => by rw [item?_start he.dir] at ht; cases ht
  | down _ hi hlink _ ih => exact ih fun t ht => hlink t (Option.some.inj (hi ▸ ht))

/-- Everything of one volume stands in another, whatever its files hold there, and the other has no
links that the first one lacks. -/
structure Keeps (v w : Volume) : Prop where
  dir : ∀ p, v.item? p = some .dir → w.item? p = some .dir
  link : ∀ p target, v.item? p = some (.link target) → w.item? p = some (.link target)
  file : ∀ p content, v.item? p = some (.file content) → ∃ other, w.item? p = some (.file other)
  absent : ∀ p target, v.item? p = none → w.item? p ≠ some (.link target)

/-- The directories and links of one volume stand in another, which has no other links. -/
structure KeepsWays (v w : Volume) : Prop where
  dir : ∀ p, v.item? p = some .dir → w.item? p = some .dir
  link : ∀ p target, v.item? p = some (.link target) ↔ w.item? p = some (.link target)

theorem Keeps.ways {w : Volume} (hk : v.Keeps w) : v.KeepsWays w := by
  refine ⟨hk.dir, fun p t => ⟨hk.link p t, fun ht => ?_⟩⟩
  cases hv : v.item? p with
  | none => exact absurd ht (hk.absent p t hv)
  | some i =>
    cases i with
    | dir =>
      rw [hk.dir p hv] at ht
      cases ht
    | link s =>
      rw [hk.link p s hv] at ht
      cases ht
      rfl
    | file content =>
      obtain ⟨other, hw⟩ := hk.file p content hv
      rw [hw] at ht
      cases ht

/-- Of the files, only the one at the end of a way matters. -/
theorem Leads.keepWays {w : Volume} (hk : v.KeepsWays w) (h : Leads v aim n p steps q)
    (hq : ∀ content, v.item? q = some (.file content) → ∃ other, w.item? q = some (.file other)) :
    Leads w aim n p steps q := by
  have henters {p : Place} {name : Text} {steps : List Step} (he : Enters v aim p name steps) :
      Enters w aim p name steps := ⟨hk.dir p he.dir, he.noSlash, he.short⟩
  induction h with
  | done => exact .done
  | stay hp hs _ ih => exact .stay (hk.dir _ hp) hs (ih hq)
  | up hp _ ih => exact .up (hk.dir _ hp) (ih hq)
  | @absent _ p name he hi =>
    cases hw : w.item? (p ++ [name]) with
    | none => exact .absent (henters he) hw
    | some i =>
      refine .down (henters he) hw (fun t ht => ?_) .done
      rw [(hk.link _ t).mpr (ht ▸ hw)] at hi
      cases hi
  | entry he hi haim => exact .entry (henters he) ((hk.link _ _).mp hi) haim
  | link he hi hgo _ ih => exact .link (henters he) ((hk.link _ _).mp hi) hgo (ih hq)
  | @down _ p _ name steps i he hi hlink h ih =>
    cases i with
    | dir => exact .down (henters he) (hk.dir _ hi) nofun (ih hq)
    | link t => exact absurd rfl (hlink t)
    | file content =>
      cases steps with
      | nil =>
        cases h
        obtain ⟨other, hw⟩ := hq _ hi
        exact .down (henters he) hw nofun (ih hq)
      | cons s steps =>
        rw [h.dir_start] at hi
        cases hi

theorem Leads.keep {w : Volume} (hk : v.Keeps w) (h : Leads v aim n p steps q) :
    Leads w aim n p steps q :=
  h.keepWays hk.ways (hk.file q)

/-- Steps that lead to a file lead nowhere with more steps behind them. -/
theorem Leads.not_through_file {r : Place} {content : Bytes} {more : List Step}
    (h : Leads v .item n p steps r) (hr : v.item? r = some (.file content)) (hmore : more ≠ [])
    {m : Nat} : ¬ Leads v aim m p (steps ++ more) q := by
  induction h generalizing m with
  | done =>
    obtain ⟨s, more, rfl⟩ := List.exists_cons_of_ne_nil hmore
    intro h
    rw [h.dir_start] at hr
    cases hr
  | stay hp hs _ ih =>
    intro h
    exact ih hr (h.of_stay hs)
  | up _ _ ih =>
    intro h
    exact ih hr h.of_up
  | absent _ hi =>
    rw [hi] at hr
    cases hr
  | entry _ _ haim => cases haim
  | link _ hi _ _ ih =>
    intro h
    obtain ⟨k, rfl, hk⟩ := h.of_link hi fun hnil => hmore (List.append_eq_nil_iff.mp hnil.1).2
    refine ih hr (m := k) ?_
    rw [List.append_assoc]
    exact hk
  | down _ hi hlink _ ih =>
    intro h
    exact ih hr (h.of_down hi hlink)

/-- Steps that name a link lead on through it. -/
theorem Leads.through_link (hv : v.Sound) {target : Text} {r : Place} {m : Nat}
    (h : Leads v .entry n p steps q) (hq : v.item? q = some (.link target))
    (hp : ∀ t, v.item? p ≠ some (.link t)) (hr : Leads v .item m p steps r) :
    ∃ k, Leads v .item k (start q.dropLast target) (Step.ofPath target) r := by
  induction h generalizing m with
  | done => exact absurd hq (hp target)
  | stay hd hs _ ih => exact ih hq hp (hr.of_stay hs)
  | up hd _ ih => exact ih hq (fun t ht => by rw [hv.above hd] at ht; cases ht) hr.of_up
  | absent _ hi =>
    rw [hi] at hq
    cases hq
  | entry he hi =>
    rw [hi] at hq
    cases hq
    obtain ⟨k, _, hk⟩ := hr.of_link hi nofun
    rw [List.append_nil] at hk
    rw [List.dropLast_concat]
    exact ⟨k, hk⟩
  | link he hi _ _ ih =>
    obtain ⟨k, _, hk⟩ := hr.of_link hi nofun
    refine ih hq (fun t ht => ?_) hk
    rw [item?_start he.dir] at ht
    cases ht
  | down he hi hlink _ ih =>
    refine ih hq (fun t ht => ?_) (hr.of_down hi hlink)
    rw [hi] at ht
    cases ht
    exact hlink t rfl

/-- A path that can be followed at all. -/
structure Usable (path : Text) : Prop where
  noNul : '\x00' ∉ path
  ne_nil : path ≠ []
  short : ¬ pathLimit < (Text.Utf8.encode path).length

instance (path : Text) : Decidable (Usable path) :=
  decidable_of_iff ('\x00' ∉ path ∧ path ≠ [] ∧ ¬ pathLimit < (Text.Utf8.encode path).length)
    ⟨fun h => ⟨h.1, h.2.1, h.2.2⟩, fun h => ⟨h.noNul, h.ne_nil, h.short⟩⟩

theorem locate_eq_ok_iff {path : Text} : v.locate aim path = .ok q ↔
    Usable path ∧ Leads v aim linkLimit (start v.here path) (Step.ofPath path) q := by
  constructor
  · intro h
    unfold locate at h
    split at h
    · cases h
    · next h₁ =>
      split at h
      · cases h
      · next h₂ =>
        split at h
        · cases h
        · next h₃ =>
          cases hw : v.walkLinks aim linkLimit (start v.here path) (Step.ofPath path) with
          | error e =>
            rw [hw] at h
            cases h
          | ok r =>
            rw [hw] at h
            cases h
            exact ⟨⟨h₁, h₂, h₃⟩, leads_of_walkLinks hw⟩
  · rintro ⟨hu, h⟩
    unfold locate
    rw [if_neg hu.noNul, if_neg hu.ne_nil, if_neg hu.short, walkLinks_of_leads h]
    rfl

theorem locate_dir_start {path : Text} (h : v.locate aim path = .ok q) :
    v.item? (start v.here path) = some .dir := by
  obtain ⟨hu, hl⟩ := locate_eq_ok_iff.mp h
  obtain ⟨s, steps, hs⟩ := List.exists_cons_of_ne_nil (Step.ofPath_ne_nil hu.ne_nil)
  rw [hs] at hl
  exact hl.dir_start

theorem Sound.locate_above (hv : v.Sound) {path : Text} (h : v.locate aim path = .ok q) :
    v.item? q.dropLast = some .dir := by
  cases hq : v.item? q with
  | some i => exact hv.above hq
  | none =>
    have hstart := locate_dir_start h
    exact ((locate_eq_ok_iff.mp h).2.dir_above hv hq (by rw [hstart]; rfl)).2

theorem find_eq_ok_iff {path : Text} {i : Item} :
    v.find aim path = .ok (q, i) ↔ v.locate aim path = .ok q ∧ v.item? q = some i := by
  unfold find
  constructor
  · intro h
    split at h
    · next hl =>
      split at h
      · next hi =>
        cases h
        exact ⟨hl, hi⟩
      · cases h
    · cases h
  · rintro ⟨hl, hi⟩
    simp only [hl, hi]

end Patchwork.Volume
