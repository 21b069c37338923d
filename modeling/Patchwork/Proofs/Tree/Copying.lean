import Patchwork.Proofs.Tree.Making

/-!
# Copying succeeds

The files of a directory can be copied to an empty one, if the paths there are not too long and no directory
stands where a file should.
-/
namespace Patchwork.Tree

open Volume

variable {v w : Volume} {p b : Place} {dir base name above f : Text} {names : Place}
  {files : Place → Option Bytes}

/-- The path above a name in a directory leads to the directory. -/
theorem find_above (hd : v.find .item dir = .ok (p, .dir)) (hn : Path.Name name)
    (h : Path.Above above (Path.join dir name) name) (hu : Usable above) :
    v.find .item above = .ok (p, .dir) := by
  have hall : ∀ other ∈ [name], Path.Name other := by simpa using hn
  have hone : Path.ofParts [name] = name := by simp [Path.ofParts]
  have hdir := find_ne_nil hd
  have hp := (find_eq_ok_iff.mp hd).2
  obtain ⟨core, tail, hcore, htail, hjoin⟩ := Step.ofPath_join hdir hall (List.cons_ne_nil _ _)
  have hstart : start v.here _ = _ :=
    start_join hdir (Path.not_isAbsolute_ofParts hall (List.cons_ne_nil _ _))
  rw [hone] at hjoin hstart
  obtain ⟨core', tail', before, after, habove, htail', hsteps, hbefore, hafter⟩ := h.steps
  rw [hjoin, List.map_singleton] at hsteps
  have hlead := leads_core hd hcore htail
  have hcut : core = core' ++ before := by
    rcases List.eq_nil_or_concat after with rfl | ⟨rest, s, rfl⟩
    · rw [← List.append_assoc] at hsteps
      exact (List.append_inj' hsteps rfl).1
    · have heq : core ++ [Step.down name] = (core' ++ (before ++ .down name :: rest)) ++ [s] := by
        rw [hsteps]
        simp
      have hs := (List.append_inj' heq rfl).2
      rcases hafter s (by simp) with rfl | rfl <;> cases hs
  rw [hcut] at hlead
  have hfirst : Leads v .item linkLimit (start v.here dir) core' p := by
    by_cases hnil : before = []
    · rwa [hnil, List.append_nil] at hlead
    · obtain ⟨r, m, hr, hm⟩ := hlead.split hnil
      rwa [← hm.eq_of_idle hbefore] at hr
  refine find_eq_ok_iff.mpr ⟨locate_eq_ok_iff.mpr ⟨hu, ?_⟩, hp⟩
  rw [start_above h, hstart, habove]
  exact hfirst.append_idle hp (idle_of_tail htail')

theorem above_parent (hd : dir ≠ []) (hn : Path.Name name) {parent : Text}
    (h : Path.parent? (Path.join dir name) = some parent) :
    Path.Above parent (Path.join dir name) name := by
  have hl := Path.ladder_chain (Path.join dir name)
  rw [Path.parent?, ← List.head?_drop] at h
  generalize (Path.chain (Path.join dir name)).drop 1 = rest at hl h
  cases hl with
  | last => cases h
  | next hab =>
    obtain rfl := Option.some.inj h
    exact hab name (Path.fileName?_join hd hn)

/-- What is known once the directory above a file is there. -/
structure Parent (v w : Volume) (dir : Text) (p : Place) (files : Place → Option Bytes) (f : Text) :
    Prop where
  stocked : Stocked w dir p files
  stocks : Stocks p v w
  dir : w.item? (p ++ (Path.parts f).dropLast) = some .dir
  only : OnlyOnWay p (Path.parts f).dropLast v w

theorem parent?_join (hd : dir ≠ []) (hn : ∀ other ∈ names ++ [name], Path.Name other) (h : names ≠ []) :
    Path.parent? (Path.join dir (Path.ofParts (names ++ [name]))) =
      some (Path.join dir (Path.ofParts names)) := by
  rw [Path.parent?, ← List.head?_drop, Path.drop_chain_join hd hn h,
    Path.chain_join hd (fun other ho => hn other (List.mem_append_left _ ho)) h]
  rfl

theorem makeDirs_above (hd : v.find .item dir = .ok (p, .dir)) (hn : Path.Name name)
    (hu : Usable (Path.join dir name)) {parent : Text}
    (h : Path.parent? (Path.join dir name) = some parent) :
    Disk.on v (Disk.createDirAll parent) = (.ok (), v) := by
  by_cases hne : parent = []
  · subst hne
    rfl
  · have habove := above_parent (find_ne_nil hd) hn h
    exact Disk.makeDirs_of_find (find_above hd hn habove (hu.of_isStart habove.isStart hne))

/-- The directories above a file can be made, if no file is in the way. -/
theorem Stocked.makeParent_total (hs : Stocked v dir p files) (hf : Path.Plain f) (hr : Reaches dir f)
    (hfree : ∀ s, s <+: (Path.parts f).dropLast → files s = none) :
    ∃ w, Parent v w dir p files f ∧ ∀ parent, Path.parent? (Path.join dir f) = some parent →
      Disk.on v (Disk.createDirAll parent) = (.ok (), w) := by
  have hdir := find_ne_nil hs.find
  have hparts := Path.ofParts_parts f
  obtain ⟨init, name, hcut⟩ := (List.eq_nil_or_concat (Path.parts f)).resolve_left (Path.parts_ne_nil f)
  rw [List.concat_eq_append] at hcut
  rw [hcut, List.dropLast_concat] at hfree
  have hn : ∀ other ∈ init ++ [name], Path.Name other := fun other ho => hf other (hcut ▸ ho)
  have hu := hr.usable
  rw [hcut] at hparts
  rw [← hparts] at hu ⊢
  by_cases hinit : init = []
  · subst hinit
    have hone : Path.ofParts ([] ++ [name]) = name := by simp [Path.ofParts]
    rw [hone] at hu ⊢
    refine ⟨v, ⟨hs, .refl p v, ?_, fun _ _ => rfl⟩, fun parent hp => ?_⟩
    · rw [Path.parts_of_not_mem (hn name (by simp)).noSlash, List.dropLast_singleton, List.append_nil]
      exact (find_eq_ok_iff.mp hs.find).2
    · exact makeDirs_above hs.find (hn name (by simp)) hu hp
  · obtain ⟨w, hrun, hmade, honly⟩ := hs.createDirAll_total hinit
      (fun other ho => hn other (List.mem_append_left _ ho)) (usable_fewer hdir hn hinit hu)
      (fun other ho => hr.short other (by rw [hcut]; exact List.mem_append_left _ ho)) hfree
    obtain ⟨hsw, hvw⟩ := hs.makeDirs hrun
    refine ⟨w, ⟨hsw, hvw, ?_, ?_⟩, fun parent hp => ?_⟩
    · rwa [Path.parts_ofParts hn (by simp), List.dropLast_concat]
    · rwa [Path.parts_ofParts hn (by simp), List.dropLast_concat]
    · rw [parent?_join hdir hn hinit] at hp
      cases hp
      exact hrun

/-- A file can be written in a directory, unless a directory has its name. -/
theorem Stocked.write_total (hs : Stocked v dir p files) (hf : Path.Plain f) (hr : Reaches dir f)
    (hup : v.item? (p ++ (Path.parts f).dropLast) = some .dir)
    (hdir : v.item? (p ++ Path.parts f) ≠ some .dir) (c : Bytes) :
    Disk.on v (Disk.write (Path.join dir f) c) = (.ok (), v.put (p ++ Path.parts f) (.file c)) := by
  have hl : v.locate .file (Path.join dir f) = .ok (p ++ Path.parts f) := by
    have hu := hr.usable
    rw [← Path.ofParts_parts f] at hu
    conv =>
      lhs
      rw [← Path.ofParts_parts f]
    cases hi : v.item? (p ++ Path.parts f) with
    | some i =>
      exact locate_join hs.sound hs.find hf (Path.parts_ne_nil f) hu hr.short hi
        fun t ht => hs.noLink _ t (ht ▸ hi)
    | none =>
      have hshort := hr.short
      obtain ⟨init, name, hcut⟩ :=
        (List.eq_nil_or_concat (Path.parts f)).resolve_left (Path.parts_ne_nil f)
      rw [List.concat_eq_append] at hcut
      rw [Path.Plain] at hf
      rw [hcut] at hu hshort hup hi hf ⊢
      rw [List.dropLast_concat] at hup
      rw [← List.append_assoc] at hi ⊢
      exact locate_join_new hs.sound hs.find hf hu hshort hup hi
  have hw : v.write (Path.join dir f) c = .ok (v.put (p ++ Path.parts f) (.file c)) := by
    rw [Volume.write, hl]
    exact if_neg hdir
  simp only [Disk.on, ExceptT.run, Disk.write, Disk.change, hw]

end Patchwork.Tree
