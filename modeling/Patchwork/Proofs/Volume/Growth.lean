import Patchwork.Proofs.Volume.Leads
import Patchwork.Volume.Disk

/-!
# Growing volumes

A volume grows while directories and empty files are made where nothing stood.  Nothing that stood there
changes, paths lead where they led, and files that were opened hold what they held.  All the ways in which a
directory comes to be made with those above it are the rules of `Disk.Makes`.
-/
namespace Patchwork

namespace Volume

variable {u v w : Volume} {aim : Aim} {p q : Place} {i : Item} {path : Text}

/-- One volume comes from another by making directories and empty files where nothing stood. -/
structure Grows (v w : Volume) : Prop where
  kept : ∀ p i, v.item? p = some i → w.item? p = some i
  new : ∀ p, v.item? p = none →
    w.item? p = none ∨ w.item? p = some .dir ∨ w.item? p = some (.file [])
  here : w.here = v.here
  lost : w.lost = v.lost
  sound : v.Sound → w.Sound

theorem Grows.refl (v : Volume) : Grows v v :=
  ⟨fun _ _ h => h, fun _ h => Or.inl h, rfl, rfl, id⟩

theorem Grows.trans (huv : Grows u v) (hvw : Grows v w) : Grows u w := by
  refine ⟨fun p i h => hvw.kept p i (huv.kept p i h), fun p h => ?_, hvw.here.trans huv.here,
    hvw.lost.trans huv.lost, hvw.sound ∘ huv.sound⟩
  rcases huv.new p h with h | h | h
  · exact hvw.new p h
  · exact Or.inr (Or.inl (hvw.kept p _ h))
  · exact Or.inr (Or.inr (hvw.kept p _ h))

/-- What is missing in the end was missing before. -/
theorem Grows.absent (h : Grows v w) (hp : w.item? p = none) : v.item? p = none := by
  cases hv : v.item? p with
  | none => rfl
  | some i =>
    rw [h.kept p i hv] at hp
    cases hp

theorem Grows.keeps (h : Grows v w) : v.Keeps w := by
  refine ⟨fun p => h.kept p _, fun p t => h.kept p _, fun p c hc => ⟨c, h.kept p _ hc⟩, ?_⟩
  intro p t hp ht
  rcases h.new p hp with hn | hn | hn <;> rw [hn] at ht <;> cases ht

theorem Grows.locate (h : Grows v w) (hl : v.locate aim path = .ok p) :
    w.locate aim path = .ok p := by
  rw [locate_eq_ok_iff] at hl ⊢
  rw [h.here]
  exact ⟨hl.1, hl.2.keep h.keeps⟩

theorem Grows.find (h : Grows v w) (hf : v.find aim path = .ok (p, i)) :
    w.find aim path = .ok (p, i) := by
  rw [find_eq_ok_iff] at hf ⊢
  exact ⟨h.locate hf.1, h.kept p i hf.2⟩

theorem Grows.contentOf (h : Grows v w) (o : Opened) : w.contentOf o = v.contentOf o := by
  unfold Volume.contentOf
  rw [h.lost]
  split
  · rfl
  · cases hv : v.item? o.place with
    | some i => rw [h.kept _ i hv]
    | none => rcases h.new _ hv with hw | hw | hw <;> rw [hw]

theorem Grows.put (hp : v.item? p = none) (habove : v.Sound → v.item? p.dropLast = some .dir)
    (hi : i = .dir ∨ i = .file []) : Grows v (v.put p i) := by
  have hne : p ≠ [] := fun he => by
    rw [he] at hp
    cases hp
  refine ⟨fun q j hq => ?_, fun q hq => ?_, rfl, rfl, fun hv => ?_⟩
  · rw [item?_put v p q i hne, if_neg fun he => ?_, hq]
    rw [he, hp] at hq
    cases hq
  · rw [item?_put v p q i hne]
    split
    · rcases hi with rfl | rfl
      · exact Or.inr (Or.inl rfl)
      · exact Or.inr (Or.inr rfl)
    · exact Or.inl hq
  · exact hv.put hne (habove hv) (by rw [hp]; nofun) i

theorem grows_locate (hl : v.locate aim path = .ok p) (hp : v.item? p = none)
    (hi : i = .dir ∨ i = .file []) : Grows v (v.put p i) :=
  .put hp (fun hv => hv.locate_above hl) hi

theorem grows_serial (v : Volume) (n : Nat) : Grows v { v with serial := n } :=
  ⟨fun _ _ h => h, fun _ h => Or.inl h, rfl, rfl, fun hv => ⟨hv.nodup, hv.proper, hv.inDirectory⟩⟩

theorem locateName_eq_ok (h : v.locateName path = .ok p) :
    v.locate .entry (withoutSlashes path) = .ok p ∧
      ¬ ('\x00' ∉ path ∧ pathLimit < (Text.Utf8.encode path).length) := by
  unfold locateName at h
  split at h
  · cases h
  · next hlong => exact ⟨h, hlong⟩

theorem makeDir_eq_ok (h : v.makeDir path = .ok w) :
    ∃ p, v.locateName path = .ok p ∧ v.item? p = none ∧ w = v.put p .dir := by
  unfold makeDir at h
  split at h
  · next p hl =>
    split at h
    · cases h
    · next hn =>
      cases h
      exact ⟨p, hl, by simpa using hn, rfl⟩
  · cases h

theorem grows_makeDir (h : v.makeDir path = .ok w) : Grows v w := by
  obtain ⟨p, hl, hn, rfl⟩ := makeDir_eq_ok h
  exact grows_locate (locateName_eq_ok hl).1 hn (Or.inl rfl)

/-- An empty file stands at a place under a name that was new, and nothing else is new. -/
structure NewFile (v w : Volume) (path : Text) (p : Place) : Prop where
  absent : v.item? p = none
  find : w.find .entry path = .ok (p, .file [])
  others : ∀ r, r ≠ p → w.item? r = v.item? r

theorem grows_createNew (h : v.createNew path = .ok w) : Grows v w ∧ ∃ p, NewFile v w path p := by
  unfold createNew at h
  split at h
  · next p hl =>
    split at h
    · cases h
    · next hn =>
      cases h
      have hp : v.item? p = none := by simpa using hn
      have hg := grows_locate hl hp (Or.inr rfl)
      have hne : p ≠ [] := fun he => by
        rw [he] at hp
        cases hp
      refine ⟨hg, p, hp, find_eq_ok_iff.mpr ⟨hg.locate hl, ?_⟩, fun r hr => ?_⟩
      · rw [item?_put v p p _ hne, if_pos rfl]
      · rw [item?_put v p r _ hne, if_neg hr]
  · cases h

end Volume

namespace Disk

open Volume

/-- How directories are made, given with the ones above them: what comes of it, and what is left. -/
inductive Makes (v : Volume) : List Text → Except IoError Unit → Volume → Prop
  | none : Makes v [] (.error (.stated .other "failed to create whole tree".toList)) v
  | empty {above : List Text} : Makes v ([] :: above) (.ok ()) v
  | new {path : Text} {above : List Text} {w : Volume} (hne : path ≠ []) (hm : v.makeDir path = .ok w) :
      Makes v (path :: above) (.ok ()) w
  | there {path : Text} {above : List Text} {e : IoError} (hne : path ≠ [])
      (he : v.makeDir path = .error e) (hkind : e.kind ≠ .notFound) (hdir : v.isDir path = true) :
      Makes v (path :: above) (.ok ()) v
  | refused {path : Text} {above : List Text} {e : IoError} (hne : path ≠ [])
      (he : v.makeDir path = .error e) (hkind : e.kind ≠ .notFound) (hdir : ¬ v.isDir path = true) :
      Makes v (path :: above) (.error e) v
  | stuck {path : Text} {above : List Text} {e e' : IoError} {u : Volume} (hne : path ≠ [])
      (he : v.makeDir path = .error e) (hkind : e.kind = .notFound) (hup : Makes v above (.error e') u) :
      Makes v (path :: above) (.error e') u
  | lower {path : Text} {above : List Text} {e : IoError} {u w : Volume} (hne : path ≠ [])
      (he : v.makeDir path = .error e) (hkind : e.kind = .notFound) (hup : Makes v above (.ok ()) u)
      (hm : u.makeDir path = .ok w) : Makes v (path :: above) (.ok ()) w
  | found {path : Text} {above : List Text} {e e' : IoError} {u : Volume} (hne : path ≠ [])
      (he : v.makeDir path = .error e) (hkind : e.kind = .notFound) (hup : Makes v above (.ok ()) u)
      (he' : u.makeDir path = .error e') (hdir : u.isDir path = true) : Makes v (path :: above) (.ok ()) u
  | unmade {path : Text} {above : List Text} {e e' : IoError} {u : Volume} (hne : path ≠ [])
      (he : v.makeDir path = .error e) (hkind : e.kind = .notFound) (hup : Makes v above (.ok ()) u)
      (he' : u.makeDir path = .error e') (hdir : ¬ u.isDir path = true) :
      Makes v (path :: above) (.error e') u

theorem on_makeDirs (dirs : List Text) (v : Volume) :
    Makes v dirs (on v (makeDirs dirs)).1 (on v (makeDirs dirs)).2 := by
  induction dirs with
  | nil => exact .none
  | cons path above ih =>
    by_cases hne : path = []
    · subst hne
      exact .empty
    simp only [on, ExceptT.run, makeDirs, if_neg hne] at ih ⊢
    split
    · next hm => exact .new hne hm
    · next e he =>
      split
      · next hkind =>
        split
        · next u hrun =>
          rw [hrun] at ih
          split
          · next hm => exact .lower hne he hkind ih hm
          · next he' =>
            split
            · next hdir => exact .found hne he hkind ih he' hdir
            · next hdir => exact .unmade hne he hkind ih he' hdir
        · next hrun =>
          rw [hrun] at ih
          exact .stuck hne he hkind ih
      · next hkind =>
        split
        · next hdir => exact .there hne he hkind hdir
        · next hdir => exact .refused hne he hkind hdir

/-- What comes of making directories is settled by the rules. -/
theorem makes_iff {dirs : List Text} {v w : Volume} {r : Except IoError Unit} :
    Makes v dirs r w ↔ on v (makeDirs dirs) = (r, w) := by
  constructor
  · intro h
    induction h with
    | none | empty => rfl
    | new hne hm => simp only [on, ExceptT.run, makeDirs, if_neg hne, hm]
    | there hne he hkind hdir | refused hne he hkind hdir =>
      simp only [on, ExceptT.run, makeDirs, if_neg hne, he, if_neg hkind, hdir]
      rfl
    | stuck hne he hkind _ ih =>
      simp only [on, ExceptT.run] at ih ⊢
      simp only [makeDirs, if_neg hne, he, if_pos hkind, ih]
    | lower hne he hkind _ hm ih =>
      simp only [on, ExceptT.run] at ih ⊢
      simp only [makeDirs, if_neg hne, he, if_pos hkind, ih, hm]
    | found hne he hkind _ he' hdir ih | unmade hne he hkind _ he' hdir ih =>
      simp only [on, ExceptT.run] at ih ⊢
      simp only [makeDirs, if_neg hne, he, if_pos hkind, ih, he', hdir]
      rfl
  · intro h
    have hmakes := on_makeDirs dirs v
    rwa [h] at hmakes

theorem Makes.grows {dirs : List Text} {v w : Volume} {r : Except IoError Unit} (h : Makes v dirs r w) :
    Grows v w := by
  induction h with
  | none | empty | there | refused => exact .refl _
  | new _ hm => exact grows_makeDir hm
  | stuck _ _ _ _ ih | found _ _ _ _ _ _ ih | unmade _ _ _ _ _ _ ih => exact ih
  | lower _ _ _ _ hm ih => exact ih.trans (grows_makeDir hm)

theorem grows_makeDirs (dirs : List Text) (v : Volume) : Grows v (on v (makeDirs dirs)).2 :=
  (on_makeDirs dirs v).grows

theorem grows_createDirAll (path : Text) (v : Volume) : Grows v (on v (createDirAll path)).2 :=
  grows_makeDirs _ v

theorem getLast?_toDigits (n : Nat) : ∃ d < 16, (Nat.toDigits 16 n).getLast? = some d.digitChar := by
  rw [Nat.toDigits_eq_if (by decide)]
  split
  · next h => exact ⟨n, h, rfl⟩
  · exact ⟨n % 16, Nat.mod_lt n (by decide), by rw [List.getLast?_append]; rfl⟩

theorem getLast?_tempPath (dir : Text) (n : Nat) :
    (Path.join dir (tempName n)).getLast? ≠ some '/' := by
  obtain ⟨d, hd, hlast⟩ := getLast?_toDigits ((n + 1) * 0x9e3779b1 % UInt32.size)
  have hname : (tempName n).getLast? = some d.digitChar := by
    rw [tempName, List.getLast?_append, hlast]
    rfl
  have hchar : ∀ e < 16, Nat.digitChar e ≠ '/' := by decide
  have hjoin : (Path.join dir (tempName n)).getLast? = some d.digitChar := by
    unfold Path.join
    split
    · exact hname
    · split
      · rw [List.getLast?_append, hname]
        rfl
      · rw [List.getLast?_append, List.getLast?_cons, hname]
        rfl
  rw [hjoin]
  exact fun he => hchar d hd (Option.some.inj he)

theorem createTemp_eq_ok {dir temp : Text} {v w : Volume}
    (h : on v (createTemp dir) = (.ok temp, w)) :
    Grows v w ∧ temp.getLast? ≠ some '/' ∧ ∃ p, NewFile v w temp p := by
  simp only [on, ExceptT.run, createTemp] at h
  split at h
  · next hnew =>
    obtain ⟨hg, p, habsent, hfind, hothers⟩ := grows_createNew hnew
    cases h
    exact ⟨(grows_serial v _).trans hg, getLast?_tempPath _ _, p, habsent, hfind, hothers⟩
  · cases h

theorem createTemp_eq_error {dir : Text} {e : IoError} {v w : Volume}
    (h : on v (createTemp dir) = (.error e, w)) : w = v := by
  simp only [on, ExceptT.run, createTemp] at h
  split at h
  · cases h
  · cases h
    rfl

end Disk

end Patchwork
