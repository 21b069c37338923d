import Patchwork.Proofs.Volume.MakeDirs
import Patchwork.Tree.Basic

/-!
# Directories that are made

A directory that is made where there was none stands at the place that its path was taken for before, and
nothing stood there.
-/
namespace Patchwork

namespace Volume

variable {v w : Volume} {n : Nat} {p q r : Place} {above path name : Text} {steps : List Step}

theorem start_above (h : Path.Above above path name) (here : Place) :
    start here above = start here path := by
  rw [start, start, h.absolute]

theorem concat_of_append_tail {tail xs after : List Step} (htail : tail = [] ∨ tail = [.slash])
    (h : steps ++ tail = xs ++ .down name :: after) :
    ∃ rest, after = rest ++ tail ∧ steps = xs ++ .down name :: rest := by
  rcases htail with rfl | rfl
  · rw [List.append_nil] at h
    exact ⟨after, (List.append_nil _).symm, h⟩
  · rcases List.eq_nil_or_concat after with rfl | ⟨rest, s, rfl⟩
    · have hlast := (List.append_inj' h rfl).2
      cases hlast
    · have heq : steps ++ [Step.slash] = (xs ++ .down name :: rest) ++ [s] := by
        rw [h]
        simp
      obtain ⟨hs, hlast⟩ := List.append_inj' heq rfl
      exact ⟨rest, by rw [hlast, List.concat_eq_append], hs⟩

/-- A name that is new stands in the directory at the path above. -/
theorem locateName_above (h : Path.Above above path name) (hl : v.locateName path = .ok q)
    (hq : v.item? q = none) : ∃ p, v.item? p = some .dir ∧ q = p ++ [name] ∧
      Leads v .item linkLimit (start v.here above) (Step.ofPath above) p := by
  obtain ⟨core, tail, before, after, habove, htail, hpath, hbefore, hafter⟩ := h.steps
  have ht := trimmed_withoutSlashes path
  obtain ⟨tail', htail', hsteps⟩ := ht.steps
  rw [hpath, ← List.append_assoc] at hsteps
  obtain ⟨rest, hrest, htrim⟩ := concat_of_append_tail htail' hsteps.symm
  have hlead := (locate_eq_ok_iff.mp (locateName_eq_ok hl).1).2
  rw [htrim, ht.start, ← start_above h, List.append_assoc] at hlead
  obtain ⟨p, m, hp, hm⟩ := hlead.split (by simp)
  have hdown := hm.of_idle hbefore
  have hdir := hdown.dir_start
  have hidle (s : Step) (hs : s ∈ rest) : s.Idle := hafter s (hrest ▸ List.mem_append_left _ hs)
  refine ⟨p, hdir, ?_, habove ▸ hp.append_idle hdir (idle_of_tail htail)⟩
  cases hdown with
  | stay _ hs => exact absurd hs (not_idle_down _)
  | absent | entry => rfl
  | link _ _ hgo hlast =>
    exfalso
    obtain ⟨s, rest, rfl⟩ := List.exists_cons_of_ne_nil fun hnil => hgo ⟨hnil, rfl⟩
    obtain ⟨r, k, _, hk⟩ := hlast.split (List.cons_ne_nil s rest)
    rw [hk.eq_of_idle hidle, hk.dir_start] at hq
    cases hq
  | down _ hi _ hlast =>
    rw [hlast.eq_of_idle hidle, hi] at hq
    cases hq

/-- A directory is made, under a name that is new, in the one at the path above. -/
structure MadeIn (v w : Volume) (above path name : Text) (p : Place) : Prop where
  leads : Leads v .item linkLimit (start v.here above) (Step.ofPath above) p
  dir : v.item? p = some .dir
  absent : v.item? (p ++ [name]) = none
  find : w.find .item path = .ok (p ++ [name], .dir)
  eq_put : w = v.put (p ++ [name]) .dir
  usable : Usable path

theorem madeIn_of_makeDir (h : Path.Above above path name) (hm : v.makeDir path = .ok w) :
    ∃ p, MadeIn v w above path name p := by
  obtain ⟨r, hname, hnone, rfl⟩ := makeDir_eq_ok hm
  obtain ⟨q, hq, -, hf⟩ := find_of_makeDir hm
  rw [hname] at hq
  cases hq
  obtain ⟨p, hdir, rfl, hlead⟩ := locateName_above h hname hnone
  exact ⟨p, hlead, hdir, hnone, hf, rfl, usable_of_locateName hname⟩

/-- Below what nothing stood at, a path leads only to what is new. -/
theorem Leads.above_new (h : Path.Above above path name)
    (hp : Leads v .item linkLimit (start v.here above) (Step.ofPath above) p)
    (hdir : v.item? p = some .dir) (hf : v.find .item path = .ok (r, .dir))
    (hnew : v.item? (p ++ [name]) = none ∨ v.item? (p ++ [name]) = some .dir) : r = p ++ [name] := by
  obtain ⟨core, tail, before, after, habove, htail, hpath, hbefore, hafter⟩ := h.steps
  obtain ⟨hl, hr⟩ := find_eq_ok_iff.mp hf
  have hlead := (locate_eq_ok_iff.mp hl).2
  rw [habove] at hp
  rw [hpath, ← start_above h] at hlead
  obtain ⟨k, hk⟩ := (leads_of_append_tail htail hp).of_append hdir hlead (by simp) nofun
  have hdown := hk.of_idle hbefore
  rcases hnew with hnone | hthere
  · cases hdown with
    | stay _ hs => exact absurd hs (not_idle_down _)
    | absent | entry => rfl
    | link _ hi | down _ hi =>
      rw [hi] at hnone
      cases hnone
  · exact (hdown.of_down hthere nofun).eq_of_idle hafter

end Volume

namespace Tree

open Volume

variable {v w : Volume} {p t : Place} {path above name there : Text} {rest found missing all : List Text}

/-- The place that is taken for a path when `there` is the nearest path that leads somewhere. -/
def Base (v : Volume) (there : Text) (t : Place) : Prop :=
  if there = [] then t = v.here else v.canonical there = .ok t

/-- The nearest of a path and the ones above it that leads somewhere leads to `t`, and some names lead on from
there to the path. -/
inductive Nearest (v : Volume) (t : Place) : Text → List Text → List Text → Prop
  | empty {rest : List Text} (h : t = v.here) : Nearest v t [] rest []
  | present {path : Text} {rest : List Text} {i : Item} (h : v.find .item path = .ok (t, i)) :
      Nearest v t path rest []
  | missing {path above name : Text} {more found : List Text} {e : IoError}
      (h : v.find .item path = .error e) (hname : Path.fileName? path = some name)
      (hup : Nearest v t above more found) : Nearest v t path (above :: more) (found ++ [name])

theorem ne_nil_of_fileName? (h : Path.fileName? path = some name) : path ≠ [] := by
  rintro rfl
  have hnone : Path.fileName? [] = none := by decide
  rw [hnone] at h
  cases h

theorem nearest_of_base (ht : Base v path t) : Nearest v t path rest [] := by
  by_cases hne : path = []
  · subst hne
    exact .empty ht
  · rw [Base, if_neg hne, Volume.canonical] at ht
    cases hf : v.find .item path with
    | error e =>
      rw [hf] at ht
      cases ht
    | ok r =>
      rw [hf] at ht
      cases ht
      exact .present hf

theorem isPresent_of_find {i : Item} (h : v.find .item path = .ok (p, i)) : v.isPresent path = true := by
  rw [isPresent, h]
  rfl

theorem find_of_not_isPresent (h : ¬ v.isPresent path = true) : ∃ e, v.find .item path = .error e := by
  cases hf : v.find .item path with
  | error e => exact ⟨e, rfl⟩
  | ok r => exact absurd (isPresent_of_find hf) h

theorem nearest_spec (hn : nearest v missing (path :: rest) = (there, all)) (ht : Base v there t) :
    ∃ found, all = found ++ missing ∧ Nearest v t path rest found := by
  induction rest generalizing path missing with
  | nil =>
    obtain ⟨rfl, rfl⟩ : path = there ∧ missing = all := by
      unfold nearest at hn
      split at hn
      · exact Prod.mk.inj hn
      · split at hn
        · next hcons => cases hcons
        · exact Prod.mk.inj hn
    exact ⟨[], rfl, nearest_of_base ht⟩
  | cons above more ih =>
    unfold nearest at hn
    split at hn
    · cases hn
      exact ⟨[], rfl, nearest_of_base ht⟩
    · next hp =>
      obtain ⟨e, hf⟩ := find_of_not_isPresent hp
      split at hn
      · next name _ _ hname _ =>
        obtain ⟨found, rfl, hup⟩ := ih hn
        exact ⟨found ++ [name], by simp, .missing hf hname hup⟩
      · cases hn
        exact ⟨[], rfl, nearest_of_base ht⟩

theorem canonical_eq_ok (h : canonical v path = .ok p) :
    ∃ t found, Nearest v t path ((Path.chain path).drop 1) found ∧ p = t ++ found := by
  have hbase : ∃ there all t, nearest v [] (path :: (Path.chain path).drop 1) = (there, all) ∧
      Base v there t ∧ p = t ++ all := by
    unfold canonical at h
    split at h
    next there all hn =>
    split at h
    · next hnil =>
      cases h
      exact ⟨there, all, v.here, hn, by rw [Base, if_pos hnil], rfl⟩
    · next hne =>
      split at h
      · next t ht =>
        cases h
        exact ⟨there, all, t, hn, by rw [Base, if_neg hne, ht], rfl⟩
      · cases h
  obtain ⟨there, all, t, hn, ht, rfl⟩ := hbase
  obtain ⟨found, rfl, hnear⟩ := nearest_spec hn ht
  exact ⟨t, found, hnear, by rw [List.append_nil]⟩

/-- Names are missing on the way to a path that leads nowhere. -/
theorem Nearest.found_ne_nil {e : IoError} (h : Nearest v t path rest found) (hne : path ≠ [])
    (hf : v.find .item path = .error e) : found ≠ [] := by
  cases h with
  | empty => exact absurd rfl hne
  | present h =>
    rw [h] at hf
    cases hf
  | missing => simp

/-- What is known of the paths above a directory once they have been made. -/
structure Built (v w : Volume) (path : Text) (p : Place) (found : List Text) : Prop where
  leads : Leads w .item linkLimit (start w.here path) (Step.ofPath path) p
  dir : path ≠ [] → w.find .item path = .ok (p, .dir)
  new : found ≠ [] → v.item? p = none

theorem built_of_find (hf : w.find .item path = .ok (p, .dir)) (hnew : found ≠ [] → v.item? p = none) :
    Built v w path p found :=
  ⟨(locate_eq_ok_iff.mp (find_eq_ok_iff.mp hf).1).2, fun _ => hf, hnew⟩

/-- The place of the path above is the one that is taken for it. -/
theorem Nearest.place {more : List Text} (h : Nearest v t above more found) (hab : Path.Above above path name)
    (hin : MadeIn v w above path name p) : p = t ++ found := by
  have hlead := hin.leads
  by_cases hne : above = []
  · subst hne
    cases h with
    | empty h =>
      cases hlead
      rw [h, List.append_nil]
      rfl
    | present h => exact absurd rfl (find_ne_nil h)
    | missing _ hname => exact absurd rfl (ne_nil_of_fileName? hname)
  · have hf : v.find .item above = .ok (p, .dir) :=
      find_eq_ok_iff.mpr ⟨locate_eq_ok_iff.mpr ⟨hin.usable.of_isStart hab.isStart hne, hlead⟩, hin.dir⟩
    cases h with
    | empty => exact absurd rfl hne
    | present h =>
      rw [hf] at h
      cases h
      exact (List.append_nil _).symm
    | missing h =>
      rw [hf] at h
      cases h

/-- Nothing is made if the path leads somewhere. -/
theorem Nearest.unchanged {r : Except IoError Unit} (h : Nearest v t path rest found) (hnil : found = [])
    (hm : Disk.Makes v (path :: rest) r w) : w = v := by
  cases h with
  | empty => exact hm.of_nil.2
  | present h => exact hm.of_present h
  | missing => simp at hnil

/-- A directory that is there as soon as the ones above it have been made is new, too. -/
theorem Built.appeared {u : Volume} (hb : Built v u above (t ++ found) found) (hv : v.Sound)
    (hab : Path.Above above path name) (habove : above ≠ []) (hnew : found ≠ [])
    (hdirs : Disk.OnlyDirs v u) (hdir : u.isDir path = true) :
    Built v u path (t ++ found ++ [name]) (found ++ [name]) := by
  have hnone := hv.absent_below (hb.new hnew) [name]
  obtain ⟨r, hf⟩ := Disk.find_of_isDir hdir
  obtain rfl := Leads.above_new hab hb.leads (find_eq_ok_iff.mp (hb.dir habove)).2 hf (hdirs _ hnone)
  exact built_of_find hf fun _ => hnone

theorem Nearest.built (h : Nearest v t path rest found) (hv : v.Sound) (hl : Path.Ladder (path :: rest))
    (hm : Disk.Makes v (path :: rest) (.ok ()) w) : Built v w path (t ++ found) found := by
  induction h generalizing w with
  | empty h =>
    obtain ⟨-, rfl⟩ := hm.of_nil
    rw [h, List.append_nil]
    exact ⟨.done, fun hne => absurd rfl hne, fun hne => absurd rfl hne⟩
  | present h =>
    obtain rfl := hm.of_present h
    obtain ⟨q, hq⟩ := hm.find (find_ne_nil h)
    rw [h] at hq
    cases hq
    rw [List.append_nil]
    exact built_of_find h fun hne => absurd rfl hne
  | @missing path above name more found e h hname hup ih =>
    cases hl with
    | next hab hlower =>
      have hab := hab name hname
      have hmissing : ¬ v.isDir path = true := by
        rw [isDir, h]
        exact Bool.false_ne_true
      rw [← List.append_assoc]
      cases hm with
      | empty => exact absurd rfl (ne_nil_of_fileName? hname)
      | there _ _ _ hdir => exact absurd hdir hmissing
      | new _ hm =>
        obtain ⟨p, hin⟩ := madeIn_of_makeDir hab hm
        rw [← hup.place hab hin]
        exact built_of_find hin.find fun _ => hin.absent
      | lower _ _ _ hu hm =>
        obtain ⟨p, hin⟩ := madeIn_of_makeDir hab hm
        rw [(ih hlower hu).leads.unique hin.leads]
        exact built_of_find hin.find fun _ => hu.grows.absent hin.absent
      | found _ _ _ hu _ hdir =>
        have hnew : found ≠ [] := by
          intro hnil
          rw [hup.unchanged hnil hu] at hdir
          exact hmissing hdir
        have habove : above ≠ [] := by
          rintro rfl
          exact hmissing (hu.of_nil.2 ▸ hdir)
        exact (ih hlower hu).appeared hv hab habove hnew hu.onlyDirs hdir

end Tree

end Patchwork
