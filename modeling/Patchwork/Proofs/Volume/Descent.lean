import Patchwork.Proofs.Volume.Leads

/-!
# Paths below a directory

A path that goes on with plain names behind the path of a directory leads to the place below it, as long
as there are no links on the way.
-/
namespace Patchwork.Volume

variable {v : Volume} {aim : Aim} {k m n : Nat} {p q r : Place} {names : Place} {steps more : List Step}

theorem Leads.mono (h : Leads v aim m p steps q) (hmn : m ≤ n) : Leads v aim n p steps q := by
  induction h generalizing n with
  | done => exact .done
  | stay hp hs _ ih => exact .stay hp hs (ih hmn)
  | up hp _ ih => exact .up hp (ih hmn)
  | absent he hi => exact .absent he hi
  | entry he hi haim => exact .entry he hi haim
  | link he hi hgo _ ih =>
    cases n with
    | zero => exact absurd hmn (Nat.not_succ_le_zero _)
    | succ n => exact .link he hi hgo (ih (Nat.le_of_succ_le_succ hmn))
  | down he hi hlink _ ih => exact .down he hi hlink (ih hmn)

/-- A walk that comes to a directory goes on from there. -/
theorem walkLinks_append (h : Leads v .item n p steps r) (hr : v.item? r = some .dir)
    (hnil : more ≠ []) (hslash : aim = .file → more ≠ [.slash]) :
    ∃ k, v.walkLinks aim n p (steps ++ more) = v.walkLinks aim k r more := by
  have hlast (rest : List Step) : ¬ (aim = .file ∧ rest ++ more = [.slash]) := by
    rintro ⟨haim, hend⟩
    rcases List.append_eq_singleton_iff.mp hend with ⟨_, hm⟩ | ⟨_, hm⟩
    · exact hslash haim hm
    · exact hnil hm
  induction h with
  | @done n => exact ⟨n, rfl⟩
  | stay hp hs _ ih =>
    obtain ⟨k, hk⟩ := ih hr
    exact ⟨k, (walkLinks_stay hp hs).trans hk⟩
  | up hp _ ih =>
    obtain ⟨k, hk⟩ := ih hr
    exact ⟨k, (walkLinks_up hp).trans hk⟩
  | absent _ hi =>
    rw [hi] at hr
    cases hr
  | entry _ _ haim => cases haim
  | @link _ _ _ _ _ rest he hi _ _ ih =>
    obtain ⟨k, hk⟩ := ih hr
    have hgo : ¬ (rest ++ more = [] ∧ aim = .entry) := fun hgo =>
      hnil (List.append_eq_nil_iff.mp hgo.1).2
    refine ⟨k, ?_⟩
    rw [← hk, List.cons_append, walkLinks_link ⟨he.dir, hlast rest, he.short⟩ hi hgo]
    simp only [followLink, List.append_assoc]
  | @down _ _ _ _ rest _ he hi hlink _ ih =>
    obtain ⟨k, hk⟩ := ih hr
    exact ⟨k, (walkLinks_down ⟨he.dir, hlast rest, he.short⟩ hi hlink).trans hk⟩

/-- Steps behind the ones to a directory that need no link. -/
theorem Leads.append (h : Leads v .item n p steps r) (hr : v.item? r = some .dir)
    (hmore : Leads v aim 0 r more q) (hnil : more ≠ []) (hslash : aim = .file → more ≠ [.slash]) :
    Leads v aim n p (steps ++ more) q := by
  obtain ⟨k, hk⟩ := walkLinks_append h hr hnil hslash
  refine leads_of_walkLinks (hk.trans ?_)
  exact walkLinks_of_leads (hmore.mono (Nat.zero_le k))

/-- The steps behind the ones to a directory start there. -/
theorem Leads.of_append (h : Leads v .item n p steps r) (hr : v.item? r = some .dir)
    (hmore : Leads v aim n p (steps ++ more) q) (hnil : more ≠ [])
    (hslash : aim = .file → more ≠ [.slash]) : ∃ k, Leads v aim k r more q := by
  obtain ⟨k, hk⟩ := walkLinks_append h hr hnil hslash
  exact ⟨k, leads_of_walkLinks (hk.symm.trans (walkLinks_of_leads hmore))⟩

theorem leads_of_append_slash (h : Leads v .item n p (steps ++ [.slash]) q) :
    Leads v .item n p steps q := by
  generalize hall : steps ++ [.slash] = all at h
  induction h generalizing steps with
  | done => simp at hall
  | absent | entry =>
    rcases steps with _ | ⟨s, steps⟩ <;> simp at hall
  | stay hp hs h ih =>
    rcases steps with _ | ⟨s, steps⟩
    · cases hall
      cases h
      exact .done
    · cases hall
      exact .stay hp hs (ih rfl)
  | up hp h ih =>
    rcases steps with _ | ⟨s, steps⟩
    · cases hall
    · cases hall
      exact .up hp (ih rfl)
  | link he hi _ h ih =>
    rcases steps with _ | ⟨s, steps⟩
    · cases hall
    · cases hall
      exact .link ⟨he.dir, nofun, he.short⟩ hi nofun (ih (List.append_assoc _ _ _))
  | down he hi hlink h ih =>
    rcases steps with _ | ⟨s, steps⟩
    · cases hall
    · cases hall
      exact .down ⟨he.dir, nofun, he.short⟩ hi hlink (ih rfl)

theorem map_down_ne_slash (names : Place) : names.map Step.down ≠ [.slash] := by
  intro hs
  have hmem : Step.slash ∈ names.map Step.down := by simp [hs]
  simp at hmem

/-- No link stands on the way from a place along some names. -/
def NoLinkTo (v : Volume) (p names : Place) : Prop :=
  ∀ s, s <+: names → ∀ t, v.item? (p ++ s) ≠ some (.link t)

theorem NoLinkTo.tail {name : Text} (h : NoLinkTo v p (name :: names)) :
    NoLinkTo v (p ++ [name]) names := by
  intro s hs t
  rw [List.append_assoc]
  exact h (name :: s) (List.prefix_cons_inj name |>.mpr hs) t

theorem Leads.eq_append (h : Leads v aim n p (names.map .down) q) (hlink : NoLinkTo v p names) :
    q = p ++ names := by
  induction names generalizing p with
  | nil =>
    cases h
    rw [List.append_nil]
  | cons name names ih =>
    have hone (t : Text) : v.item? (p ++ [name]) ≠ some (.link t) :=
      hlink [name] (List.prefix_append [name] names) t
    rw [List.map_cons] at h
    cases hi : v.item? (p ++ [name]) with
    | some i =>
      have hrest := h.of_down hi fun t ht => hone t (ht ▸ hi)
      rw [ih hrest hlink.tail, List.append_assoc]
      rfl
    | none =>
      generalize hsteps : names.map Step.down = steps at h
      cases h with
      | stay _ hs => exact absurd hs (not_idle_down _)
      | absent => rw [List.map_eq_nil_iff.mp hsteps]
      | entry _ hj | link _ hj | down _ hj =>
        rw [hi] at hj
        cases hj

/-- The names are not too long to be looked up. -/
def Short (names : Place) : Prop := ∀ name ∈ names, ¬ nameLimit < (Text.Utf8.encode name).length

instance (names : Place) : Decidable (Short names) := List.decidableBAll _ names

theorem Leads.short (h : Leads v aim n p (names.map .down) q) (hlink : NoLinkTo v p names) :
    Short names := by
  induction names generalizing p with
  | nil => nofun
  | cons name names ih =>
    have hone (t : Text) : v.item? (p ++ [name]) ≠ some (.link t) :=
      hlink [name] (List.prefix_append [name] names) t
    rw [List.map_cons] at h
    generalize hsteps : names.map Step.down = steps at h
    rintro other hother
    rcases List.mem_cons.mp hother with rfl | hmem
    · cases h with
      | stay _ hs => exact absurd hs (not_idle_down _)
      | absent he | entry he | link he | down he => exact he.short
    · cases h with
      | stay _ hs => exact absurd hs (not_idle_down _)
      | absent =>
        rw [List.map_eq_nil_iff.mp hsteps] at hmem
        cases hmem
      | entry _ hi | link _ hi => exact absurd hi (hone _)
      | down _ _ _ h =>
        subst hsteps
        exact ih h hlink.tail other hmem

theorem leads_names (hv : v.Sound) (hshort : Short names) {i : Item}
    (hi : v.item? (p ++ names) = some i) (hlink : ∀ t, i ≠ .link t) :
    Leads v aim 0 p (names.map .down) (p ++ names) := by
  induction names generalizing p with
  | nil =>
    rw [List.append_nil]
    exact .done
  | cons name names ih =>
    rw [← List.singleton_append, ← List.append_assoc] at hi ⊢
    have hdir : v.item? p = some .dir := by
      refine hv.dir_of_lt hi (by rw [List.append_assoc]; exact List.prefix_append _ _) fun he => ?_
      have hlen := congrArg List.length he
      simp at hlen
    have henters : Enters v aim p name (names.map .down) :=
      ⟨hdir, fun hf => by cases names <;> simp at hf, hshort name List.mem_cons_self⟩
    have hrest := ih (fun other hother => hshort other (List.mem_cons_of_mem _ hother)) hi
    cases hj : v.item? (p ++ [name]) with
    | none =>
      have hthere : (v.item? (p ++ [name])).isSome := by
        by_cases hnil : names = []
        · rw [hnil, List.append_nil] at hi
          rw [hi]
          rfl
        · rw [hv.dir_of_lt hi (List.prefix_append _ _) fun he => hnil (by simpa using he.symm)]
          rfl
      rw [hj] at hthere
      cases hthere
    | some j =>
      refine .down henters hj (fun t ht => ?_) hrest
      by_cases hnil : names = []
      · rw [hnil, List.append_nil, hj] at hi
        cases hi
        exact hlink t ht
      · rw [hv.dir_of_lt hi (List.prefix_append _ _) fun he => hnil (by simpa using he.symm)] at hj
        cases hj
        cases ht

theorem start_join {here : Place} {dir rest : Text} (hd : dir ≠ []) (hrest : Path.isAbsolute rest = false) :
    start here (Path.join dir rest) = start here dir := by
  obtain ⟨c, t, rfl⟩ := List.exists_cons_of_ne_nil hd
  have habs : Path.isAbsolute (Path.join (c :: t) rest) = Path.isAbsolute (c :: t) := by
    unfold Path.join
    rw [hrest, if_neg (by simp)]
    split <;> rfl
  rw [start, start, habs]

/-- The walk along the path of a directory, whether a slash stands at its end or not. -/
theorem leads_core {dir : Text} (hd : v.find .item dir = .ok (p, .dir)) {core tail : List Step}
    (hcore : Step.ofPath dir = core ++ tail) (htail : tail = [] ∨ tail = [.slash]) :
    Leads v .item linkLimit (start v.here dir) core p := by
  obtain ⟨hl, hp⟩ := find_eq_ok_iff.mp hd
  have hlead := (locate_eq_ok_iff.mp hl).2
  rw [hcore] at hlead
  rcases htail with rfl | rfl
  · rwa [List.append_nil] at hlead
  · exact leads_of_append_slash hlead

theorem find_ne_nil {dir : Text} {i : Item} (hd : v.find aim dir = .ok (p, i)) : dir ≠ [] := by
  rintro rfl
  cases hd

/-- A path that goes on with names leads to the place that has them. -/
theorem locate_join (hv : v.Sound) {dir : Text} (hd : v.find .item dir = .ok (p, .dir))
    (hn : ∀ name ∈ names, Path.Name name) (h : names ≠ [])
    (hu : Usable (Path.join dir (Path.ofParts names))) (hshort : Short names) {i : Item}
    (hi : v.item? (p ++ names) = some i) (hlink : ∀ t, i ≠ .link t) :
    v.locate aim (Path.join dir (Path.ofParts names)) = .ok (p ++ names) := by
  have hdir := find_ne_nil hd
  obtain ⟨core, tail, hcore, htail, hjoin⟩ := Step.ofPath_join hdir hn h
  have hlead := leads_core hd hcore htail
  rw [locate_eq_ok_iff, start_join hdir (Path.not_isAbsolute_ofParts hn h), hjoin]
  refine ⟨hu, hlead.append (find_eq_ok_iff.mp hd).2 (leads_names hv hshort hi hlink) ?_ ?_⟩
  · simpa using h
  · exact fun _ => map_down_ne_slash names

theorem find_join (hv : v.Sound) {dir : Text} (hd : v.find .item dir = .ok (p, .dir))
    (hn : ∀ name ∈ names, Path.Name name) (h : names ≠ [])
    (hu : Usable (Path.join dir (Path.ofParts names))) (hshort : Short names) {i : Item}
    (hi : v.item? (p ++ names) = some i) (hlink : ∀ t, i ≠ .link t) :
    v.find aim (Path.join dir (Path.ofParts names)) = .ok (p ++ names, i) :=
  find_eq_ok_iff.mpr ⟨locate_join hv hd hn h hu hshort hi hlink, hi⟩

/-- Where no link is on the way, a path that goes on with names leads nowhere else. -/
theorem locate_join_eq_ok {dir : Text} (hd : v.find .item dir = .ok (p, .dir))
    (hn : ∀ name ∈ names, Path.Name name) (h : names ≠ []) (hlink : NoLinkTo v p names)
    (hl : v.locate aim (Path.join dir (Path.ofParts names)) = .ok q) :
    q = p ++ names ∧ Usable (Path.join dir (Path.ofParts names)) ∧ Short names := by
  have hdir := find_ne_nil hd
  obtain ⟨core, tail, hcore, htail, hjoin⟩ := Step.ofPath_join hdir hn h
  have hlead := leads_core hd hcore htail
  rw [locate_eq_ok_iff, start_join hdir (Path.not_isAbsolute_ofParts hn h), hjoin] at hl
  obtain ⟨k, hk⟩ := hlead.of_append (find_eq_ok_iff.mp hd).2 hl.2 (by simpa using h)
    fun _ => map_down_ne_slash names
  exact ⟨hk.eq_append hlink, hl.1, hk.short hlink⟩

/-- No link is on the way to a file or directory. -/
theorem noLinkTo_of_item? (hv : v.Sound) {i : Item} (hi : v.item? (p ++ names) = some i)
    (hlink : ∀ t, i ≠ .link t) : NoLinkTo v p names := by
  intro s hs t ht
  by_cases he : s = names
  · rw [he, hi] at ht
    cases ht
    exact hlink t rfl
  · have hdir := hv.dir_of_lt hi ((List.prefix_append_right_inj p).mpr hs) fun hp =>
      he (List.append_cancel_left hp)
    rw [hdir] at ht
    cases ht

end Patchwork.Volume
