import Patchwork.Proofs.Volume.Chain
import Patchwork.Proofs.Volume.Descent
import Patchwork.Proofs.Volume.Growth

/-!
# Making directories

Making a directory and those above it leaves a directory at the path, and changes nothing if there is one.
-/
namespace Patchwork

namespace Volume

variable {v w : Volume} {aim : Aim} {n : Nat} {p q r : Place} {path : Text} {steps more : List Step}

theorem leads_idle (hp : v.item? p = some .dir) (h : ∀ s ∈ steps, s.Idle) :
    Leads v aim n p steps p := by
  induction steps with
  | nil => exact .done
  | cons s steps ih =>
    exact .stay hp (h s List.mem_cons_self) (ih fun t ht => h t (List.mem_cons_of_mem _ ht))

theorem Leads.append_idle (h : Leads v .item n p steps q) (hq : v.item? q = some .dir)
    (hmore : ∀ s ∈ more, s.Idle) : Leads v .item n p (steps ++ more) q := by
  by_cases hnil : more = []
  · rwa [hnil, List.append_nil]
  · exact h.append hq (leads_idle hq hmore) hnil nofun

theorem Leads.unique (hq : Leads v aim n p steps q) (hr : Leads v aim n p steps r) : q = r :=
  Except.ok.inj ((walkLinks_of_leads hq).symm.trans (walkLinks_of_leads hr))

/-- The steps in front lead somewhere first. -/
theorem Leads.split (h : Leads v aim n p (steps ++ more) q) (hmore : more ≠ []) :
    ∃ r m, Leads v .item n p steps r ∧ Leads v aim m r more q := by
  generalize hall : steps ++ more = all at h
  induction h generalizing steps with
  | done => exact absurd (List.append_eq_nil_iff.mp hall).2 hmore
  | absent he hi =>
    rcases steps with _ | ⟨s, steps⟩
    · cases hall
      exact ⟨_, 0, .done, .absent he hi⟩
    · exact absurd (List.append_eq_nil_iff.mp (List.cons.inj hall).2).2 hmore
  | entry he hi haim =>
    rcases steps with _ | ⟨s, steps⟩
    · cases hall
      exact ⟨_, 0, .done, .entry he hi haim⟩
    · exact absurd (List.append_eq_nil_iff.mp (List.cons.inj hall).2).2 hmore
  | @stay n p _ _ _ hp hs h ih =>
    rcases steps with _ | ⟨s, steps⟩
    · cases hall
      exact ⟨p, n, .done, .stay hp hs h⟩
    · cases hall
      obtain ⟨r, m, hr, hm⟩ := ih rfl
      exact ⟨r, m, .stay hp hs hr, hm⟩
  | @up n p _ _ hp h ih =>
    rcases steps with _ | ⟨s, steps⟩
    · cases hall
      exact ⟨p, n, .done, .up hp h⟩
    · cases hall
      obtain ⟨r, m, hr, hm⟩ := ih rfl
      exact ⟨r, m, .up hp hr, hm⟩
  | @link n p _ _ _ _ he hi hgo h ih =>
    rcases steps with _ | ⟨s, steps⟩
    · cases hall
      exact ⟨p, n + 1, .done, .link he hi hgo h⟩
    · cases hall
      obtain ⟨r, m, hr, hm⟩ := ih (List.append_assoc _ _ _)
      exact ⟨r, m, .link ⟨he.dir, nofun, he.short⟩ hi nofun hr, hm⟩
  | @down n p _ _ _ _ he hi hlink h ih =>
    rcases steps with _ | ⟨s, steps⟩
    · cases hall
      exact ⟨p, n, .done, .down he hi hlink h⟩
    · cases hall
      obtain ⟨r, m, hr, hm⟩ := ih rfl
      exact ⟨r, m, .down ⟨he.dir, nofun, he.short⟩ hi hlink hr, hm⟩

theorem Leads.of_idle (h : Leads v aim n p (steps ++ more) q) (hs : ∀ s ∈ steps, s.Idle) :
    Leads v aim n p more q := by
  induction steps with
  | nil => exact h
  | cons s steps ih =>
    exact ih (h.of_stay (hs s List.mem_cons_self)) fun t ht => hs t (List.mem_cons_of_mem _ ht)

theorem Leads.eq_of_idle (h : Leads v aim n p steps q) (hs : ∀ s ∈ steps, s.Idle) : q = p := by
  rw [← List.append_nil steps] at h
  cases h.of_idle hs
  rfl

/-- Where no link stands, it makes no difference what a path is followed for. -/
theorem Leads.item_of_entry (h : Leads v .entry n p steps q) (hq : ∀ t, v.item? q ≠ some (.link t)) :
    Leads v .item n p steps q := by
  induction h with
  | done => exact .done
  | stay hp hs _ ih => exact .stay hp hs (ih hq)
  | up hp _ ih => exact .up hp (ih hq)
  | absent he hi => exact .absent ⟨he.dir, nofun, he.short⟩ hi
  | entry _ hi => exact absurd hi (hq _)
  | link he hi _ _ ih => exact .link ⟨he.dir, nofun, he.short⟩ hi nofun (ih hq)
  | down he hi hlink _ ih => exact .down ⟨he.dir, nofun, he.short⟩ hi hlink (ih hq)

/-- What a path leads to has a name there. -/
theorem Leads.exists_entry (h : Leads v .item n p steps r) (hr : (v.item? r).isSome) :
    ∃ q, Leads v .entry n p steps q ∧ (v.item? q).isSome := by
  induction h with
  | @done _ p => exact ⟨p, .done, hr⟩
  | stay hp hs _ ih =>
    obtain ⟨q, hq, hi⟩ := ih hr
    exact ⟨q, .stay hp hs hq, hi⟩
  | up hp _ ih =>
    obtain ⟨q, hq, hi⟩ := ih hr
    exact ⟨q, .up hp hq, hi⟩
  | absent _ hi =>
    rw [hi] at hr
    cases hr
  | entry _ _ haim => cases haim
  | @link _ p _ name _ steps he hi _ _ ih =>
    obtain ⟨q, hq, hsome⟩ := ih hr
    by_cases hnil : steps = []
    · subst hnil
      exact ⟨p ++ [name], .entry ⟨he.dir, nofun, he.short⟩ hi rfl, by rw [hi]; rfl⟩
    · exact ⟨q, .link ⟨he.dir, nofun, he.short⟩ hi (fun hgo => hnil hgo.1) hq, hsome⟩
  | down he hi hlink _ ih =>
    obtain ⟨q, hq, hsome⟩ := ih hr
    exact ⟨q, .down ⟨he.dir, nofun, he.short⟩ hi hlink hq, hsome⟩

theorem encode_append (s t : Text) :
    Text.Utf8.encode (s ++ t) = Text.Utf8.encode s ++ Text.Utf8.encode t := List.flatMap_append

theorem Usable.of_isStart {above : Text} (hu : Usable path) (ha : above <+: path) (hne : above ≠ []) :
    Usable above := by
  obtain ⟨rest, rfl⟩ := ha
  refine ⟨fun hz => hu.noNul (List.mem_append_left _ hz), hne, fun hlong => hu.short ?_⟩
  rw [encode_append, List.length_append]
  omega

theorem dropEnd_slash (path : Text) : ∃ slashes, path = Text.dropEnd (· = '/') path ++ slashes ∧
    (∀ c ∈ slashes, c = '/') ∧ (Text.dropEnd (· = '/') path).getLast? ≠ some '/' ∧
    (Path.parts path).filterMap Step.ofPart? =
      (Path.parts (Text.dropEnd (· = '/') path)).filterMap Step.ofPart? := by
  induction path using List.reverseRecOn with
  | nil => exact ⟨[], rfl, nofun, nofun, rfl⟩
  | append_singleton t c ih =>
    by_cases hc : c = '/'
    · subst hc
      have hdrop : Text.dropEnd (· = '/') (t ++ ['/']) = Text.dropEnd (· = '/') t := by
        simp [Text.dropEnd]
      obtain ⟨slashes, ht, hall, hlast, hparts⟩ := ih
      rw [hdrop]
      refine ⟨slashes ++ ['/'], ?_, fun c hc => ?_, hlast, ?_⟩
      · rw [← List.append_assoc, ← ht]
      · rcases List.mem_append.mp hc with hc | hc
        · exact hall c hc
        · exact List.mem_singleton.mp hc
      · rw [Path.parts_append_slash, List.filterMap_append, hparts]
        simp [Path.parts_of_not_mem, Step.ofPart?]
    · have hdrop : Text.dropEnd (· = '/') (t ++ [c]) = t ++ [c] := by
        simp [Text.dropEnd, hc]
      rw [hdrop]
      exact ⟨[], by simp, nofun, by simpa using hc, rfl⟩

/-- The slashes at the end of a path ask for a directory, and add nothing else. -/
structure Trimmed (path trimmed : Text) : Prop where
  isStart : trimmed <+: path
  noNul : '\x00' ∉ trimmed → '\x00' ∉ path
  start : ∀ here, start here trimmed = start here path
  steps : ∃ tail, (tail = [] ∨ tail = [.slash]) ∧ Step.ofPath path = Step.ofPath trimmed ++ tail

theorem trimmed_withoutSlashes (path : Text) : Trimmed path (withoutSlashes path) := by
  unfold withoutSlashes
  dsimp only
  split
  · exact ⟨List.prefix_refl _, id, fun _ => rfl, [], Or.inl rfl, (List.append_nil _).symm⟩
  · next hne =>
    obtain ⟨slashes, hpath, hall, hlast, hparts⟩ := dropEnd_slash path
    refine ⟨⟨slashes, hpath.symm⟩, fun hn hz => ?_, fun here => ?_, ?_⟩
    · rw [hpath] at hz
      rcases List.mem_append.mp hz with hz | hz
      · exact hn hz
      · exact absurd (hall _ hz) (by decide)
    · obtain ⟨c, t, hd⟩ := List.exists_cons_of_ne_nil hne
      have habs : Path.isAbsolute path = Path.isAbsolute (Text.dropEnd (· = '/') path) := by
        rw [hd] at hpath
        rw [hd, hpath]
        rfl
      rw [Volume.start, Volume.start, habs]
    · refine ⟨if path.getLast? = some '/' then [.slash] else [], ?_, ?_⟩
      · split
        · exact Or.inr rfl
        · exact Or.inl rfl
      · rw [Step.ofPath, Step.ofPath, hparts, if_neg hlast, List.append_nil]

theorem leads_of_append_tail {tail : List Step} (htail : tail = [] ∨ tail = [.slash])
    (h : Leads v .item n p (steps ++ tail) q) : Leads v .item n p steps q := by
  rcases htail with rfl | rfl
  · rwa [List.append_nil] at h
  · exact leads_of_append_slash h

theorem idle_of_tail {tail : List Step} (htail : tail = [] ∨ tail = [.slash]) :
    ∀ s ∈ tail, s.Idle := by
  rcases htail with rfl | rfl
  · nofun
  · intro s hs
    exact Or.inr (List.mem_singleton.mp hs)

theorem usable_of_locateName (h : v.locateName path = .ok p) : Usable path := by
  obtain ⟨hl, hlong⟩ := locateName_eq_ok h
  obtain ⟨hu, _⟩ := locate_eq_ok_iff.mp hl
  have ht := trimmed_withoutSlashes path
  have hnul := ht.noNul hu.noNul
  refine ⟨hnul, ?_, fun hl => hlong ⟨hnul, hl⟩⟩
  rintro rfl
  exact hu.ne_nil (List.prefix_nil.mp ht.isStart)

/-- A new directory stands at its path. -/
theorem find_of_makeDir (h : v.makeDir path = .ok w) : ∃ q, v.locateName path = .ok q ∧
    v.item? q = none ∧ w.find .item path = .ok (q, .dir) := by
  obtain ⟨q, hname, hnone, rfl⟩ := makeDir_eq_ok h
  have hl := (locateName_eq_ok hname).1
  have hg : Grows v (v.put q .dir) := grows_locate hl hnone (Or.inl rfl)
  have ht := trimmed_withoutSlashes path
  obtain ⟨tail, htail, hsteps⟩ := ht.steps
  have hne : q ≠ [] := fun he => by
    rw [he] at hnone
    cases hnone
  have hdir : (v.put q .dir).item? q = some .dir := by rw [item?_put v q q _ hne, if_pos rfl]
  refine ⟨q, hname, hnone, find_eq_ok_iff.mpr ⟨locate_eq_ok_iff.mpr ⟨usable_of_locateName hname, ?_⟩, hdir⟩⟩
  have hlead := ((locate_eq_ok_iff.mp hl).2.item_of_entry (by simp [hnone])).keep hg.keeps
  rw [ht.start] at hlead
  rw [hsteps, hg.here]
  exact hlead.append_idle hdir (idle_of_tail htail)

/-- What a path leads to cannot be made again. -/
theorem makeDir_of_find {i : Item} (h : v.find .item path = .ok (q, i)) :
    v.makeDir path = .error (.os .occupied) := by
  obtain ⟨hl, hi⟩ := find_eq_ok_iff.mp h
  obtain ⟨hu, hlead⟩ := locate_eq_ok_iff.mp hl
  have ht := trimmed_withoutSlashes path
  obtain ⟨tail, htail, hsteps⟩ := ht.steps
  have hne : withoutSlashes path ≠ [] := by
    unfold withoutSlashes
    dsimp only
    split
    · exact hu.ne_nil
    · next hne => exact hne
  rw [hsteps, ← ht.start] at hlead
  obtain ⟨r, hr, hsome⟩ := (leads_of_append_tail htail hlead).exists_entry (by rw [hi]; rfl)
  have hname : v.locateName path = .ok r := by
    rw [locateName, if_neg fun hlong => hu.short hlong.2]
    exact locate_eq_ok_iff.mpr ⟨hu.of_isStart ht.isStart hne, hr⟩
  rw [makeDir, hname]
  simp only [hsome, if_true]

theorem makeDir_of_not_usable (hne : path ≠ []) (h : ¬ Usable path) :
    ∃ e, v.makeDir path = .error e ∧ e.kind ≠ .notFound := by
  unfold makeDir locateName
  by_cases hnul : '\x00' ∈ path
  · have htrim : '\x00' ∈ withoutSlashes path := by
      by_contra hno
      exact (trimmed_withoutSlashes path).noNul hno hnul
    rw [if_neg fun hlong => hlong.1 hnul, locate, if_pos htrim]
    exact ⟨_, rfl, nofun⟩
  · have hlong : pathLimit < (Text.Utf8.encode path).length := by
      by_contra hshort
      exact h ⟨hnul, hne, hshort⟩
    rw [if_pos ⟨hnul, hlong⟩]
    exact ⟨_, rfl, nofun⟩

theorem makeDir_dot (v w : Volume) : v.makeDir ['.'] ≠ .ok w := by
  intro h
  obtain ⟨p, hl, hp, -⟩ := makeDir_eq_ok h
  obtain ⟨-, hlead⟩ := locate_eq_ok_iff.mp (locateName_eq_ok hl).1
  have hsteps : Step.ofPath (withoutSlashes ['.']) = [.stay] := by decide
  rw [hsteps] at hlead
  cases hlead with
  | stay hdir _ h =>
    cases h
    rw [hp] at hdir
    cases hdir

end Volume

namespace Disk

open Volume

variable {v w : Volume} {p : Place} {path : Text} {above dirs : List Text} {r : Except IoError Unit}

/-- Nothing is made if there is a directory. -/
theorem makeDirs_of_find (h : v.find .item path = .ok (p, .dir)) :
    on v (makeDirs (path :: above)) = (.ok (), v) := by
  have hdir : v.isDir path = true := by rw [isDir, h]
  exact makes_iff.mp (.there (find_ne_nil h) (makeDir_of_find h) nofun hdir)

/-- Nothing is made above a directory unless that one is missing. -/
theorem makeDirs_of_error {e : IoError} (hne : path ≠ []) (he : v.makeDir path = .error e)
    (hkind : e.kind ≠ .notFound) : (on v (makeDirs (path :: above))).2 = v := by
  by_cases hdir : v.isDir path = true
  · rw [makes_iff.mp (.there hne he hkind hdir)]
  · rw [makes_iff.mp (.refused hne he hkind hdir)]

/-- What a path leads to keeps the directories above from being made. -/
theorem makeDirs_of_present {i : Item} (h : v.find .item path = .ok (p, i)) :
    (on v (makeDirs (path :: above))).2 = v :=
  makeDirs_of_error (find_ne_nil h) (makeDir_of_find h) nofun

theorem Makes.of_present {i : Item} (h : Makes v (path :: above) r w) (hf : v.find .item path = .ok (p, i)) :
    w = v := by
  have hsame : (on v (makeDirs (path :: above))).2 = v := makeDirs_of_present hf
  rwa [makes_iff.mp h] at hsame

theorem makeDirs_of_not_usable (h : ¬ Usable path) : (on v (makeDirs (path :: above))).2 = v := by
  by_cases hne : path = []
  · subst hne
    rfl
  · obtain ⟨e, he, hkind⟩ := makeDir_of_not_usable (v := v) hne h
    exact makeDirs_of_error hne he hkind

theorem Makes.of_nil (h : Makes v ([] :: above) r w) : r = .ok () ∧ w = v := by
  have hrun := makes_iff.mp h
  cases hrun
  exact ⟨rfl, rfl⟩

/-- The current directory is not made. -/
theorem Makes.of_dot (h : Makes v [['.'], []] r w) : w = v := by
  cases h with
  | new _ hm | lower _ _ _ _ hm => exact absurd hm (makeDir_dot _ _)
  | there | refused => rfl
  | stuck _ _ _ hup | found _ _ _ hup | unmade _ _ _ hup => exact hup.of_nil.2

theorem createDirAll_dot (v : Volume) : (on v (createDirAll ['.'])).2 = v :=
  (on_makeDirs [['.'], []] v).of_dot

theorem find_of_isDir (h : v.isDir path = true) : ∃ p, v.find .item path = .ok (p, .dir) := by
  unfold isDir at h
  split at h
  · next p hf => exact ⟨p, hf⟩
  · cases h

/-- Everything that is new is a directory. -/
def OnlyDirs (v w : Volume) : Prop :=
  ∀ p, v.item? p = none → w.item? p = none ∨ w.item? p = some .dir

theorem onlyDirs_makeDir {u : Volume} (h : u.makeDir path = .ok w)
    (hu : OnlyDirs v u) : OnlyDirs v w := by
  obtain ⟨q, _, hq, rfl⟩ := makeDir_eq_ok h
  have hne : q ≠ [] := fun he => by
    rw [he] at hq
    cases hq
  intro p hp
  rw [item?_put u q p _ hne]
  split
  · exact Or.inr rfl
  · exact hu p hp

theorem Makes.onlyDirs (h : Makes v dirs r w) : OnlyDirs v w := by
  have hsame (v : Volume) : OnlyDirs v v := fun _ hp => Or.inl hp
  induction h with
  | none | empty | there | refused => exact hsame _
  | new _ hm => exact onlyDirs_makeDir hm (hsame _)
  | stuck _ _ _ _ ih | found _ _ _ _ _ _ ih | unmade _ _ _ _ _ _ ih => exact ih
  | lower _ _ _ _ hm ih => exact onlyDirs_makeDir hm ih

theorem onlyDirs_makeDirs (dirs : List Text) (v : Volume) : OnlyDirs v (on v (makeDirs dirs)).2 :=
  (on_makeDirs dirs v).onlyDirs

theorem onlyDirs_createDirAll (path : Text) (v : Volume) : OnlyDirs v (on v (createDirAll path)).2 :=
  onlyDirs_makeDirs _ v

/-- There is a directory once it has been made with those above it. -/
theorem Makes.find (h : Makes v (path :: above) (.ok ()) w) (hne : path ≠ []) :
    ∃ p, w.find .item path = .ok (p, .dir) := by
  cases h with
  | empty => exact absurd rfl hne
  | new _ hm | lower _ _ _ _ hm =>
    obtain ⟨p, _, _, hf⟩ := find_of_makeDir hm
    exact ⟨p, hf⟩
  | there _ _ _ hdir | found _ _ _ _ _ hdir => exact find_of_isDir hdir

end Disk

end Patchwork
