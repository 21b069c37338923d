import Patchwork.Proofs.Tree.Filling
import Patchwork.Proofs.Volume.Rename

/-!
# Making the directories that are missing

Below a directory that holds no links, the directories on the way to a file can be made, unless a file
stands where one of them should, and no others are made.
-/
namespace Patchwork

namespace Path

variable {dir name : Text} {names : Place}

theorem exists_join (hd : dir ≠ []) : ∃ t, ∀ rest, isAbsolute rest = false → join dir rest = t ++ '/' :: rest := by
  by_cases hslash : dir.getLast? = some '/'
  · obtain ⟨t, rfl⟩ := List.getLast?_eq_some_iff.mp hslash
    refine ⟨t, fun rest hrest => ?_⟩
    rw [join, if_neg (by simp [hrest]), if_pos hslash, List.append_assoc]
    rfl
  · refine ⟨dir, fun rest hrest => ?_⟩
    rw [join, if_neg (by simp [hrest, hd]), if_neg hslash]

theorem Name.isReal (h : Name name) (i : Nat) : isReal i name = true := by
  have hdot : name ≠ ['.'] := by
    rintro rfl
    cases h.step
  simp [Path.isReal, h.ne_nil, hdot]

theorem isAbsolute_append_slash (t rest : Text) : isAbsolute (t ++ '/' :: rest) = isAbsolute (t ++ ['/']) := by
  cases t <;> rfl

theorem chain_append_slash (t : Text) (hn : ∀ other ∈ names, Name other) (h : names ≠ []) :
    chain (t ++ '/' :: ofParts names) =
      rungs (parts t ++ names) ++ [if isAbsolute (t ++ ['/']) then ['/'] else []] := by
  rw [chain_eq, parts_append_slash, parts_ofParts hn h, isAbsolute_append_slash]

theorem rungs_name (ps : List Text) (hname : Name name) :
    rungs (ps ++ [name]) = ofParts (ps ++ [name]) :: rungs ps := by
  rw [rungs_concat, if_pos (hname.isReal _)]

/-- The paths above one that goes on with names go on with fewer of them. -/
theorem drop_chain_join (hd : dir ≠ []) (hn : ∀ other ∈ names ++ [name], Name other) (h : names ≠ []) :
    (chain (join dir (ofParts (names ++ [name])))).drop 1 = chain (join dir (ofParts names)) := by
  obtain ⟨t, ht⟩ := exists_join hd
  have hinit (other : Text) (ho : other ∈ names) : Name other := hn other (List.mem_append_left _ ho)
  have hne : names ++ [name] ≠ [] := by simp
  rw [ht _ (not_isAbsolute_ofParts hn hne), ht _ (not_isAbsolute_ofParts hinit h),
    chain_append_slash t hn hne, chain_append_slash t hinit h, ← List.append_assoc,
    rungs_name _ (hn name (by simp))]
  rfl

/-- The first path in the chain of a path that goes on with names is the path itself. -/
theorem chain_join (hd : dir ≠ []) (hn : ∀ other ∈ names, Name other) (h : names ≠ []) :
    chain (join dir (ofParts names)) =
      join dir (ofParts names) :: (chain (join dir (ofParts names))).drop 1 := by
  obtain ⟨t, ht⟩ := exists_join hd
  obtain ⟨init, name, rfl⟩ := List.eq_nil_or_concat names |>.resolve_left h
  rw [List.concat_eq_append] at hn h ⊢
  have hself : ofParts ((parts t ++ init) ++ [name]) = t ++ '/' :: ofParts (init ++ [name]) := by
    rw [List.append_assoc, ofParts_append (parts_ne_nil t) h, ofParts_parts]
  rw [ht _ (not_isAbsolute_ofParts hn h), chain_append_slash t hn h, ← List.append_assoc,
    rungs_name _ (hn name (by simp)), hself]
  rfl

theorem fileName?_join (hd : dir ≠ []) (hn : Name name) : fileName? (join dir name) = some name := by
  obtain ⟨t, ht⟩ := exists_join hd
  have hparts : parts (join dir name) = parts t ++ name :: [] := by
    have hall : ∀ other ∈ [name], Name other := by simpa using hn
    have habs := not_isAbsolute_ofParts hall (List.cons_ne_nil _ _)
    rw [ht name (by simpa [ofParts] using habs), parts_append_slash, parts_of_not_mem hn.noSlash]
  rw [fileName?_of_parts hparts (hn.isReal _) trivial, if_neg]
  rintro (rfl | rfl) <;> cases hn.step

end Path

namespace Volume

variable {v w : Volume} {p q : Place} {dir name above : Text} {names : Place} {k : Nat}

theorem getLast?_join (hd : dir ≠ []) (hn : ∀ other ∈ names, Path.Name other) (h : names ≠ []) :
    (Path.join dir (Path.ofParts names)).getLast? ≠ some '/' := by
  obtain ⟨t, ht⟩ := Path.exists_join hd
  obtain ⟨u, c, hu, hc⟩ := Path.ofParts_eq_concat hn h
  rw [ht _ (Path.not_isAbsolute_ofParts hn h), hu, ← List.cons_append, ← List.append_assoc,
    List.getLast?_concat]
  simpa using hc

/-- A name that is new stands for a place in its directory. -/
theorem locate_join_new (hv : v.Sound) {aim : Aim} (hd : v.find .item dir = .ok (p, .dir))
    (hn : ∀ other ∈ names ++ [name], Path.Name other)
    (hu : Usable (Path.join dir (Path.ofParts (names ++ [name])))) (hshort : Short (names ++ [name]))
    (hup : v.item? (p ++ names) = some .dir) (hnew : v.item? (p ++ names ++ [name]) = none) :
    v.locate aim (Path.join dir (Path.ofParts (names ++ [name]))) = .ok (p ++ names ++ [name]) := by
  have hdir := find_ne_nil hd
  have hne : names ++ [name] ≠ [] := by simp
  obtain ⟨core, tail, hcore, htail, hjoin⟩ := Step.ofPath_join hdir hn hne
  have hlead := leads_core hd hcore htail
  have hnames : Leads v .item 0 p (names.map .down) (p ++ names) :=
    leads_names hv (fun other ho => hshort other (List.mem_append_left _ ho)) hup nofun
  have hone : Leads v aim 0 (p ++ names) [.down name] (p ++ names ++ [name]) :=
    .absent ⟨hup, fun h => List.cons_ne_nil _ _ h.2.symm, hshort name (by simp)⟩ hnew
  have hdown : Leads v aim 0 p ((names ++ [name]).map .down) (p ++ names ++ [name]) := by
    rw [List.map_append]
    exact hnames.append hup hone (List.cons_ne_nil _ _) fun _ => map_down_ne_slash [name]
  rw [locate_eq_ok_iff, start_join hdir (Path.not_isAbsolute_ofParts hn hne), hjoin]
  exact ⟨hu, hlead.append (find_eq_ok_iff.mp hd).2 hdown (by simp) fun _ => map_down_ne_slash _⟩

/-- A directory can be made under a name that is new. -/
theorem makeDir_join (hv : v.Sound) (hd : v.find .item dir = .ok (p, .dir))
    (hn : ∀ other ∈ names ++ [name], Path.Name other)
    (hu : Usable (Path.join dir (Path.ofParts (names ++ [name])))) (hshort : Short (names ++ [name]))
    (hup : v.item? (p ++ names) = some .dir) (hnew : v.item? (p ++ names ++ [name]) = none) :
    v.makeDir (Path.join dir (Path.ofParts (names ++ [name]))) =
      .ok (v.put (p ++ names ++ [name]) .dir) := by
  rw [makeDir, locateName_of_getLast? (getLast?_join (find_ne_nil hd) hn (by simp)),
    locate_join_new hv hd hn hu hshort hup hnew]
  simp only [hnew, Option.isSome_none, Bool.false_eq_true, if_false]

/-- Names that go through a missing directory lead nowhere. -/
theorem walkLinks_missing {aim : Aim} (haim : aim ≠ .file) (hp : v.item? p = some .dir) (hshort : Short (names ++ [name]))
    (hup : v.item? (p ++ names) = none)
    (hfree : ∀ s, s <+: names → v.item? (p ++ s) = none ∨ v.item? (p ++ s) = some .dir) :
    v.walkLinks aim k p ((names ++ [name]).map .down) = .error .noEntry := by
  induction names generalizing p with
  | nil =>
    rw [List.append_nil, hp] at hup
    cases hup
  | cons a names ih =>
    have hone := hfree [a] (List.prefix_append [a] names)
    have hlong : ¬ nameLimit < (Text.Utf8.encode a).length := hshort a List.mem_cons_self
    have hmore : (names ++ [name]).map Step.down ≠ [] := by simp
    rw [List.cons_append, List.map_cons, walkLinks_eq, walk, hp]
    rcases hone with hone | hone
    · simp only [haim, false_and, if_false, if_neg hlong, hone, if_neg hmore]
    · simp only [haim, false_and, if_false, if_neg hlong, hone, ← walkLinks_eq]
      refine ih hone (fun other ho => hshort other (List.mem_cons_of_mem _ ho)) ?_ fun s hs => ?_
      · rwa [List.append_assoc]
      · rw [List.append_assoc]
        exact hfree (a :: s) ((List.prefix_cons_inj a).mpr hs)

/-- Names that go through a file lead nowhere. -/
theorem walkLinks_through_file {aim : Aim} {s : Place} {c : Bytes} (hv : v.Sound) (haim : aim ≠ .file) (hshort : Short names) (hs : s <+: names)
    (hne : s ≠ names) (hi : v.item? (p ++ s) = some (.file c)) :
    v.walkLinks aim k p (names.map .down) = .error .notDirectory := by
  induction names generalizing p s with
  | nil => exact absurd (List.prefix_nil.mp hs) hne
  | cons name names ih =>
    rw [List.map_cons, walkLinks_eq, walk]
    cases s with
    | nil =>
      rw [List.append_nil] at hi
      rw [hi]
    | cons other s =>
      obtain ⟨rfl, hs'⟩ := List.cons_prefix_cons.mp hs
      have hp : v.item? p = some .dir := hv.dir_of_lt hi (List.prefix_append _ _) (by simp)
      have hi : v.item? (p ++ [other] ++ s) = some (.file c) := by
        rw [List.append_assoc]
        exact hi
      have hlong : ¬ nameLimit < (Text.Utf8.encode other).length := hshort other List.mem_cons_self
      have hrest := ih (fun name hname => hshort name (List.mem_cons_of_mem _ hname)) hs'
        (fun he => hne (he ▸ rfl)) hi
      have hone : v.item? (p ++ [other]) = some .dir ∨ v.item? (p ++ [other]) = some (.file c) := by
        by_cases hnil : s = []
        · rw [hnil, List.append_nil] at hi
          exact .inr hi
        · exact .inl (hv.dir_of_lt hi (List.prefix_append _ _) (by simpa using hnil))
      rcases hone with hone | hone <;>
        simp only [hp, hone, haim, false_and, if_false, if_neg hlong] <;> rwa [walkLinks_eq] at hrest

/-- A path that goes on with names is followed from the directory. -/
theorem exists_locate_join (aim : Aim) (hd : v.find .item dir = .ok (p, .dir)) (hn : ∀ other ∈ names, Path.Name other)
    (h : names ≠ []) (hu : Usable (Path.join dir (Path.ofParts names))) :
    ∃ k, v.locate aim (Path.join dir (Path.ofParts names)) = (v.walkLinks aim k p (names.map .down)).mapError .os := by
  have hdir := find_ne_nil hd
  obtain ⟨core, tail, hcore, htail, hjoin⟩ := Step.ofPath_join hdir hn h
  obtain ⟨k, hk⟩ := walkLinks_append (leads_core hd hcore htail) (find_eq_ok_iff.mp hd).2
    (by simpa using h : names.map Step.down ≠ []) (fun _ => map_down_ne_slash names)
  refine ⟨k, ?_⟩
  rw [locate, if_neg hu.noNul, if_neg hu.ne_nil, if_neg hu.short, start_join hdir (Path.not_isAbsolute_ofParts hn h),
    hjoin, hk]

theorem locate_join_missing {aim : Aim} (haim : aim ≠ .file) (hd : v.find .item dir = .ok (p, .dir))
    (hn : ∀ other ∈ names ++ [name], Path.Name other)
    (hu : Usable (Path.join dir (Path.ofParts (names ++ [name])))) (hshort : Short (names ++ [name]))
    (hup : v.item? (p ++ names) = none)
    (hfree : ∀ s, s <+: names → v.item? (p ++ s) = none ∨ v.item? (p ++ s) = some .dir) :
    v.locate aim (Path.join dir (Path.ofParts (names ++ [name]))) = .error (.os .noEntry) := by
  obtain ⟨k, hk⟩ := exists_locate_join aim hd hn (by simp) hu
  rw [hk, walkLinks_missing haim (find_eq_ok_iff.mp hd).2 hshort hup hfree]
  rfl

/-- A directory cannot be made while the one above is missing. -/
theorem makeDir_missing (hd : v.find .item dir = .ok (p, .dir))
    (hn : ∀ other ∈ names ++ [name], Path.Name other)
    (hu : Usable (Path.join dir (Path.ofParts (names ++ [name])))) (hshort : Short (names ++ [name]))
    (hup : v.item? (p ++ names) = none)
    (hfree : ∀ s, s <+: names → v.item? (p ++ s) = none ∨ v.item? (p ++ s) = some .dir) :
    v.makeDir (Path.join dir (Path.ofParts (names ++ [name]))) = .error (.os .noEntry) := by
  rw [makeDir, locateName_of_getLast? (getLast?_join (find_ne_nil hd) hn (by simp)),
    locate_join_missing (by decide : Aim.entry ≠ .file) hd hn hu hshort hup hfree]

end Volume

namespace Tree

open Volume

variable {v w : Volume} {p : Place} {dir name : Text} {names : Place} {files : Place → Option Bytes}

theorem Stocked.free (hs : Stocked v dir p files) {s : Place} (h : files s = none) :
    v.item? (p ++ s) = none ∨ v.item? (p ++ s) = some .dir := by
  have hfile := hs.files s
  rw [h] at hfile
  cases hi : v.item? (p ++ s) with
  | none => exact Or.inl rfl
  | some i =>
    cases i with
    | dir => exact Or.inr rfl
    | link t => exact absurd hi (hs.noLink s t)
    | file c =>
      rw [file?_eq_some_iff.mpr hi] at hfile
      cases hfile

/-- Nothing changes but at the places of some names and on the way to them. -/
def OnlyOnWay (p names : Place) (v w : Volume) : Prop :=
  ∀ q, (∀ s, s <+: names → q ≠ p ++ s) → w.item? q = v.item? q

theorem OnlyOnWay.refl (p names : Place) (v : Volume) : OnlyOnWay p names v v := fun _ _ => rfl

theorem OnlyOnWay.trans {u : Volume} (huv : OnlyOnWay p names u v) (hvw : OnlyOnWay p names v w) :
    OnlyOnWay p names u w := fun q hq => (hvw q hq).trans (huv q hq)

theorem OnlyOnWay.mono {more : Place} (h : OnlyOnWay p names v w) (hle : names <+: more) : OnlyOnWay p more v w :=
  fun q hq => h q fun s hs => hq s (hs.trans hle)

theorem usable_fewer (hd : dir ≠ []) (hn : ∀ other ∈ names ++ [name], Path.Name other) (h : names ≠ [])
    (hu : Usable (Path.join dir (Path.ofParts (names ++ [name])))) :
    Usable (Path.join dir (Path.ofParts names)) := by
  obtain ⟨t, ht⟩ := Path.exists_join hd
  have hinit (other : Text) (ho : other ∈ names) : Path.Name other := hn other (List.mem_append_left _ ho)
  rw [ht _ (Path.not_isAbsolute_ofParts hn (by simp)), Path.ofParts_append h (List.cons_ne_nil _ _)] at hu
  rw [ht _ (Path.not_isAbsolute_ofParts hinit h)]
  refine hu.of_isStart ⟨'/' :: Path.ofParts [name], ?_⟩ (by simp)
  rw [List.append_assoc]
  rfl

theorem put_onlyOnWay {q : Place} (hq : q ≠ []) (hstart : ∃ s, s <+: names ∧ q = p ++ s) :
    OnlyOnWay p names v (v.put q .dir) := by
  obtain ⟨s, hs, rfl⟩ := hstart
  intro r hr
  rw [item?_put v _ r _ hq, if_neg (hr s hs)]

/-- The directories on the way along some names can be made, if no file is in the way. -/
theorem Stocked.createDirAll_total (hs : Stocked v dir p files) (h : names ≠ [])
    (hn : ∀ other ∈ names, Path.Name other) (hu : Usable (Path.join dir (Path.ofParts names)))
    (hshort : Short names) (hfree : ∀ s, s <+: names → files s = none) :
    ∃ w, Disk.on v (Disk.createDirAll (Path.join dir (Path.ofParts names))) = (.ok (), w) ∧
      w.item? (p ++ names) = some .dir ∧ OnlyOnWay p names v w := by
  induction names using List.reverseRecOn with
  | nil => exact absurd rfl h
  | append_singleton init name ih =>
    have hdir := find_ne_nil hs.find
    have hne := hu.ne_nil
    have hnot : p ++ (init ++ [name]) ≠ [] := by simp
    have hinit (s : Place) (hsi : s <+: init) : s <+: init ++ [name] :=
      hsi.trans (List.prefix_append init [name])
    rcases hs.free (hfree _ (List.prefix_refl _)) with hnew | hthere
    · rw [← List.append_assoc] at hnew
      rcases hs.free (hfree init (hinit init (List.prefix_refl _))) with hup | hup
      · have hinitne : init ≠ [] := by
          rintro rfl
          rw [List.append_nil, (find_eq_ok_iff.mp hs.find).2] at hup
          cases hup
        have hmissing := makeDir_missing hs.find hn hu hshort hup fun s hsi =>
          hs.free (hfree s (hinit s hsi))
        obtain ⟨u, hrun, hmade, honly⟩ := ih hinitne
          (fun other ho => hn other (List.mem_append_left _ ho)) (usable_fewer hdir hn hinitne hu)
          (fun other ho => hshort other (List.mem_append_left _ ho)) fun s hsi => hfree s (hinit s hsi)
        obtain ⟨hsu, -⟩ := hs.makeDirs hrun
        have hstill : u.item? (p ++ init ++ [name]) = none := by
          rw [honly _ fun s hsi he => ?_, hnew]
          rw [List.append_assoc] at he
          have hlen := hsi.length_le
          rw [← List.append_cancel_left he, List.length_append, List.length_singleton] at hlen
          omega
        have hmake := makeDir_join hsu.sound hsu.find hn hu hshort hmade hstill
        refine ⟨u.put (p ++ init ++ [name]) .dir, ?_, ?_, fun q hq => ?_⟩
        · rw [Disk.createDirAll, Path.drop_chain_join hdir hn hinitne,
            Path.chain_join hdir (fun other ho => hn other (List.mem_append_left _ ho)) hinitne]
          exact Disk.makes_iff.mp (.lower hne hmissing rfl (Disk.makes_iff.mpr hrun) hmake)
        · rw [item?_put _ _ _ _ (by simp), if_pos (List.append_assoc _ _ _).symm]
        · rw [← honly q fun s hsi => hq s (hinit s hsi), List.append_assoc]
          exact put_onlyOnWay hnot ⟨_, List.prefix_refl _, rfl⟩ q hq
      · have hmake := makeDir_join hs.sound hs.find hn hu hshort hup hnew
        refine ⟨_, Disk.makes_iff.mp (.new hne hmake), ?_, ?_⟩
        · rw [item?_put _ _ _ _ (by simp), if_pos (List.append_assoc _ _ _).symm]
        · rw [List.append_assoc]
          exact put_onlyOnWay hnot ⟨_, List.prefix_refl _, rfl⟩
    · have hf : v.find .item _ = _ := find_join hs.sound hs.find hn h hu hshort hthere fun _ he => by cases he
      exact ⟨v, Disk.makeDirs_of_find hf, hthere, fun _ _ => rfl⟩

end Tree

end Patchwork
