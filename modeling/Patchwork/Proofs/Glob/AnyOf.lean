import Patchwork.Archive.Copy
import Patchwork.Proofs.Glob.Matching
import Patchwork.Proofs.Text.ByteOrder

/-!
# Sets of globs as sets

The patterns of a set are kept in ascending order, each of them once, so that a set is determined by which patterns
there are.  It accepts what one of them matches by itself.  What is selected from an archive follows from that, and
so it does not depend on how the patterns are listed.
-/
namespace Patchwork

open Text.Utf8 (encode)

/-- Texts that ascend are determined by which texts they are. -/
theorem Text.eq_of_ascending {ss ts : List Text} (hs : (ss.map encode).Pairwise (· < ·))
    (ht : (ts.map encode).Pairwise (· < ·)) (hmem : ∀ t, t ∈ ss ↔ t ∈ ts) : ss = ts := by
  have hbefore {us : List Text} (hu : (us.map encode).Pairwise (· < ·)) :
      us.Pairwise fun s t => before s t = true ∧ s ≠ t :=
    (List.pairwise_map.mp hu).imp fun h => encode_lt_iff.mp h
  have hperm : ss.Perm ts := (List.perm_ext_iff_of_nodup ((hbefore hs).imp And.right)
    ((hbefore ht).imp And.right)).mpr hmem
  exact hperm.eq_of_pairwise (fun _ _ _ _ => eq_of_before) ((hbefore hs).imp And.left) ((hbefore ht).imp And.left)

theorem Glob.pattern_of_compile {p : Text} {g : Glob} (h : compile p = .ok g) : g.pattern = p := by
  rw [compile_eq_ok h]

namespace FilterSet

variable {F G : FilterSet} {f g : Glob} {fs gs : List Glob} {ps qs : List Text} {p path : Text}

/-! ### Putting globs in their places -/

theorem mem_insert (h : f ∈ insert g fs) : f = g ∨ f ∈ fs := by
  induction fs with
  | nil => exact .inl (List.mem_singleton.mp h)
  | cons e fs ih =>
    rw [insert] at h
    split at h
    · exact .inr h
    · split at h
      · exact List.mem_cons.mp h
      · rcases List.mem_cons.mp h with rfl | h
        · exact .inr List.mem_cons_self
        · exact (ih h).imp_right (List.mem_cons_of_mem e)

theorem mem_patterns_insert :
    p ∈ (insert g fs).map Glob.pattern ↔ p = g.pattern ∨ p ∈ fs.map Glob.pattern := by
  induction fs with
  | nil => simp [insert]
  | cons e fs ih =>
    rw [insert]
    split
    · next hsame =>
      rw [List.map_cons, List.mem_cons, hsame]
      exact or_self_left.symm
    · split
      · rw [List.map_cons, List.mem_cons]
      · rw [List.map_cons, List.mem_cons, ih, List.map_cons, List.mem_cons]
        exact or_left_comm

/-- Globs whose patterns ascend in the order of their bytes. -/
def Ascending (fs : List Glob) : Prop := fs.Pairwise fun f g => encode f.pattern < encode g.pattern

theorem ascending_insert (g : Glob) (h : Ascending fs) : Ascending (insert g fs) := by
  induction fs with
  | nil => exact List.pairwise_singleton _ g
  | cons e fs ih =>
    obtain ⟨hfirst, hrest⟩ := List.pairwise_cons.mp h
    rw [insert]
    split
    · exact h
    · next hne =>
      split
      · next hbefore =>
        have hlt := Text.encode_lt_of_before hbefore (Ne.symm hne)
        exact List.pairwise_cons.mpr ⟨List.forall_mem_cons.mpr ⟨hlt, fun f hf => List.lt_trans hlt (hfirst f hf)⟩, h⟩
      · next hnot =>
        have hafter := (Bool.or_eq_true _ _ ▸ Text.before_total e.pattern g.pattern).resolve_right hnot
        refine List.pairwise_cons.mpr ⟨fun f hf => ?_, ih hrest⟩
        rcases mem_insert hf with rfl | hf
        · exact Text.encode_lt_of_before hafter hne
        · exact hfirst f hf

/-- The globs of some patterns, in ascending order and each of them once. -/
structure Lists (ps : List Text) (fs : List Glob) : Prop where
  ascending : Ascending fs
  mem : ∀ p, p ∈ fs.map Glob.pattern ↔ p ∈ ps
  compiled : ∀ g ∈ fs, Glob.compile g.pattern = .ok g

theorem lists_nil : Lists [] [] := ⟨.nil, fun _ => Iff.rfl, nofun⟩

theorem Lists.insert (h : Lists ps fs) (hg : Glob.compile g.pattern = .ok g) :
    Lists (g.pattern :: ps) (insert g fs) := by
  refine ⟨ascending_insert g h.ascending, fun p => ?_, fun f hf => ?_⟩
  · rw [mem_patterns_insert, h.mem, List.mem_cons]
  · rcases mem_insert hf with rfl | hf
    · exact hg
    · exact h.compiled f hf

theorem Lists.mem_congr (h : Lists ps fs) (hsame : ∀ p, p ∈ qs ↔ p ∈ ps) : Lists qs fs :=
  ⟨h.ascending, fun p => (h.mem p).trans (hsame p).symm, h.compiled⟩

theorem Lists.foldl_insert (h : Lists qs fs) (hg : ∀ g ∈ gs, Glob.compile g.pattern = .ok g) :
    Lists (gs.map Glob.pattern ++ qs) (gs.foldl (fun fs g => FilterSet.insert g fs) fs) := by
  induction gs generalizing fs qs with
  | nil => exact h
  | cons g gs ih =>
    obtain ⟨hfirst, hrest⟩ := List.forall_mem_cons.mp hg
    refine (ih (h.insert hfirst) hrest).mem_congr fun p => ?_
    simp [or_left_comm]

theorem Lists.ascending_patterns (h : Lists ps fs) : ((fs.map Glob.pattern).map encode).Pairwise (· < ·) :=
  List.pairwise_map.mpr (List.pairwise_map.mpr h.ascending)

/-- Which patterns there are determines the globs. -/
theorem Lists.unique (h : Lists ps fs) (h' : Lists ps gs) : fs = gs := by
  have hpatterns := Text.eq_of_ascending h.ascending_patterns h'.ascending_patterns fun p =>
    (h.mem p).trans (h'.mem p).symm
  have hglobs {es : List Glob} (he : ∀ g ∈ es, Glob.compile g.pattern = .ok g) :
      (es.map Glob.pattern).map Glob.compile = es.map .ok := by
    rw [List.map_map]
    exact List.map_congr_left he
  have hboth : fs.map (Except.ok : Glob → Except Fault Glob) = gs.map .ok := by
    rw [← hglobs h.compiled, hpatterns, hglobs h'.compiled]
  exact List.map_injective_iff.mpr (fun _ _ => Except.ok.inj) hboth

theorem Lists.nodup (h : Lists ps fs) : (fs.map Glob.pattern).Nodup :=
  (List.pairwise_map.mp h.ascending_patterns).imp fun hlt => (Text.encode_lt_iff.mp hlt).2

/-! ### Compiling a list of patterns -/

theorem compileAll_eq_ok (h : compileAll ps = .ok gs) :
    gs.map Glob.pattern = ps ∧ ∀ g ∈ gs, Glob.compile g.pattern = .ok g := by
  induction ps generalizing gs with
  | nil =>
    cases h
    exact ⟨rfl, nofun⟩
  | cons p ps ih =>
    rw [compileAll] at h
    split at h
    · next g hg =>
      cases hrest : compileAll ps with
      | error e =>
        rw [hrest] at h
        cases h
      | ok rest =>
        rw [hrest] at h
        cases h
        obtain ⟨hmap, hall⟩ := ih hrest
        have hpattern := Glob.pattern_of_compile hg
        exact ⟨by rw [List.map_cons, hpattern, hmap], List.forall_mem_cons.mpr ⟨hpattern.symm ▸ hg, hall⟩⟩
    · cases h

theorem exists_compileAll (h : ∀ p ∈ ps, ∃ g, Glob.compile p = .ok g) : ∃ gs, compileAll ps = .ok gs := by
  induction ps with
  | nil => exact ⟨[], rfl⟩
  | cons p ps ih =>
    obtain ⟨⟨g, hg⟩, hrest⟩ := List.forall_mem_cons.mp h
    obtain ⟨gs, hgs⟩ := ih hrest
    exact ⟨g :: gs, by rw [compileAll, hg, hgs]; rfl⟩

/-- A set of globs, unless it is too large. -/
def bounded (s : FilterSet) : Except Fault FilterSet :=
  if s.globs.foldr (Glob.size ·.items + ·) 0 ≤ Glob.sizeLimit then .ok s
  else .error (.invalidPattern ([',', ' '].intercalate s.patterns) (.tooLarge Glob.sizeLimit))

theorem bounded_eq_ok (h : bounded F = .ok G) : F = G := by
  unfold bounded at h
  split at h
  · exact Except.ok.inj h
  · cases h

/-- A set is made of the globs of its patterns, unless it is too large. -/
theorem ofPatterns_eq (h : ∀ p ∈ ps, ∃ g, Glob.compile p = .ok g) :
    ∃ fs, Lists ps fs ∧ ofPatterns ps = bounded ⟨fs⟩ := by
  obtain ⟨gs, hgs⟩ := exists_compileAll h
  obtain ⟨hpatterns, hcompiled⟩ := compileAll_eq_ok hgs
  have hlists := lists_nil.foldl_insert hcompiled
  rw [hpatterns, List.append_nil] at hlists
  exact ⟨_, hlists, by rw [ofPatterns, hgs]; rfl⟩

theorem lists_of_ofPatterns (h : ofPatterns ps = .ok F) : Lists ps F.globs := by
  have hcompile : ∀ p ∈ ps, ∃ g, Glob.compile p = .ok g := by
    rw [ofPatterns] at h
    split at h
    · next gs hgs =>
      obtain ⟨hpatterns, hcompiled⟩ := compileAll_eq_ok hgs
      rw [← hpatterns]
      exact List.forall_mem_map.mpr fun g hg => ⟨g, hcompiled g hg⟩
    · cases h
  obtain ⟨fs, hlists, heq⟩ := ofPatterns_eq hcompile
  rw [heq] at h
  obtain rfl := bounded_eq_ok h
  exact hlists

theorem ofPatterns_congr (h : ∀ p ∈ ps, ∃ g, Glob.compile p = .ok g) (hsame : ∀ p, p ∈ qs ↔ p ∈ ps) :
    ofPatterns qs = ofPatterns ps := by
  obtain ⟨fs, hfs, hps⟩ := ofPatterns_eq h
  obtain ⟨gs, hgs, hqs⟩ := ofPatterns_eq fun p hp => h p ((hsame p).mp hp)
  rw [hps, hqs, (hfs.mem_congr hsame).unique hgs]

/-! ### What is accepted and selected -/

/-- Whether one of some patterns matches a path by itself, or there are none. -/
def AnyOf (ps : List Text) (path : Text) : Prop :=
  ps = [] ∨ ∃ p ∈ ps, ∃ g, Glob.compile p = .ok g ∧ g.test path = true

instance (ps : List Text) (path : Text) : Decidable (AnyOf ps path) :=
  decidable_of_iff (ps = [] ∨ ∃ p ∈ ps, (Glob.compile p).toOption.any (·.test path) = true) <|
    or_congr_right <| exists_congr fun p => and_congr_right fun _ => by
      cases Glob.compile p with
      | ok g => simp [Except.toOption]
      | error e => simp [Except.toOption]

theorem Lists.eq_nil_iff (h : Lists ps fs) : fs = [] ↔ ps = [] := by
  simp only [List.eq_nil_iff_forall_not_mem, ← h.mem]
  rw [← List.eq_nil_iff_forall_not_mem, ← List.eq_nil_iff_forall_not_mem, List.map_eq_nil_iff]

theorem Lists.accepts_iff (h : Lists ps F.globs) : F.accepts path = true ↔ AnyOf ps path := by
  rw [FilterSet.accepts, Bool.or_eq_true, isEmpty, List.isEmpty_iff, h.eq_nil_iff, List.any_eq_true, AnyOf]
  refine or_congr_right ⟨fun ⟨g, hg, htest⟩ => ?_, fun ⟨p, hp, g, hg, htest⟩ => ?_⟩
  · exact ⟨g.pattern, (h.mem _).mp (List.mem_map_of_mem hg), g, h.compiled g hg, htest⟩
  · obtain ⟨f, hf, rfl⟩ := List.mem_map.mp ((h.mem p).mpr hp)
    rw [h.compiled f hf] at hg
    cases hg
    exact ⟨_, hf, htest⟩

theorem AnyOf.mono (h : AnyOf ps path) (hne : ps ≠ []) (hsub : ps ⊆ qs) : AnyOf qs path := by
  obtain ⟨p, hp, hmatch⟩ := h.resolve_left hne
  exact .inr ⟨p, hsub hp, hmatch⟩

/-- What is kept of an archive: the entries that are accepted, and the directories above a file that is. -/
theorem mem_keptEntries {h : Handle} : path ∈ Archive.keptEntries h F ↔ ∃ kind, (path, kind) ∈ h.entries ∧
    (F.accepts path = true ∨ kind = .dir ∧ ∃ f ∈ h.selected F, path ∈ Entry.ancestors f) := by
  have hfile (hentry : (path, EntryKind.file) ∈ h.entries) : path ∈ h.selected F ↔ F.accepts path = true := by
    rw [Handle.selected, List.mem_filter, and_iff_right]
    exact List.mem_map.mpr ⟨_, List.mem_filter.mpr ⟨hentry, rfl⟩, rfl⟩
  simp only [Archive.keptEntries, List.mem_map, List.mem_filter, Prod.exists, exists_and_right, exists_eq_right]
  refine exists_congr fun kind => and_congr_right fun hentry => ?_
  cases kind with
  | dir => simp [or_comm]
  | file => simp [hfile hentry]

/-- Lists of the same patterns, in any order and with any repetitions, give the same set, or the same fault if it is
too large.  It has each of them once, in ascending order, and accepts what one of them matches by itself, or
everything if there are none; what a set that is not empty accepts is accepted with more patterns, too.  So the files
that are copied or extracted, and the entries that are kept, follow from which patterns there are. -/
theorem ofPatterns_anyOf {ps : List Text} (hps : ∀ p ∈ ps, ∃ g, Glob.compile p = .ok g) :
    (∀ qs, (∀ p, p ∈ qs ↔ p ∈ ps) → ofPatterns qs = ofPatterns ps) ∧
    ∀ F, ofPatterns ps = .ok F →
      (F.patterns.map encode).Pairwise (· < ·) ∧ (∀ p, p ∈ F.patterns ↔ p ∈ ps) ∧ F.size = ps.dedup.length ∧
      (∀ path, F.accepts path = true ↔ ps = [] ∨ ∃ p ∈ ps, ∃ g, Glob.compile p = .ok g ∧ g.test path = true) ∧
      (∀ qs G, ps ≠ [] → ps ⊆ qs → ofPatterns qs = .ok G →
        ∀ path, F.accepts path = true → G.accepts path = true) ∧
      ∀ h : Handle, h.selected F = h.files.filter (AnyOf ps ·) ∧
        ∀ path, path ∈ Archive.keptEntries h F ↔ ∃ kind, (path, kind) ∈ h.entries ∧
          (AnyOf ps path ∨ kind = .dir ∧ ∃ f ∈ h.files, AnyOf ps f ∧ path ∈ Entry.ancestors f) := by
  refine ⟨fun qs => ofPatterns_congr hps, fun F hF => ?_⟩
  have hlists := lists_of_ofPatterns hF
  have hselected (h : Handle) : h.selected F = h.files.filter (AnyOf ps ·) :=
    List.filter_congr fun path _ => Bool.eq_iff_iff.mpr (hlists.accepts_iff.trans (decide_eq_true_iff).symm)
  refine ⟨hlists.ascending_patterns, hlists.mem, ?_, fun path => hlists.accepts_iff, fun qs G hne hsub hG path hF => ?_,
    fun h => ⟨hselected h, fun path => ?_⟩⟩
  · have hperm : F.patterns.Perm ps.dedup := (List.perm_ext_iff_of_nodup hlists.nodup ps.nodup_dedup).mpr
      fun p => (hlists.mem p).trans List.mem_dedup.symm
    rw [← hperm.length_eq, patterns, List.length_map, size]
  · exact (lists_of_ofPatterns hG).accepts_iff.mpr ((hlists.accepts_iff.mp hF).mono hne hsub)
  · rw [mem_keptEntries, hselected]
    simp only [hlists.accepts_iff, List.mem_filter, decide_eq_true_eq, and_assoc]

theorem ofPatterns_anyOf_repeated : ∃ F, ofPatterns ["a/**".toList, "b/*.txt".toList] = .ok F ∧
    ofPatterns ["b/*.txt".toList, "a/**".toList, "a/**".toList] = .ok F ∧ F.size = 2 ∧
    F.accepts "/a/b/c".toList = true ∧ F.accepts "/b/c/y.txt".toList = false := by
  have hps : ∀ p ∈ ["a/**".toList, "b/*.txt".toList], ∃ g, Glob.compile p = .ok g := by
    simp only [List.forall_mem_cons, Glob.compile_eq]
    exact ⟨⟨_, if_pos (by decide)⟩, ⟨_, if_pos (by decide)⟩, nofun⟩
  obtain ⟨hcongr, hset⟩ := ofPatterns_anyOf hps
  have hsome : ((ofPatterns ["a/**".toList, "b/*.txt".toList]).map fun F =>
      (F.accepts "/a/b/c".toList, F.accepts "/b/c/y.txt".toList)) = .ok (true, false) := by decide +kernel
  cases hF : ofPatterns ["a/**".toList, "b/*.txt".toList] with
  | error e =>
    rw [hF] at hsome
    cases hsome
  | ok F =>
    rw [hF] at hsome
    obtain ⟨hin, hout⟩ := Prod.mk.inj (Except.ok.inj hsome)
    obtain ⟨-, -, hsize, -⟩ := hset F hF
    exact ⟨F, rfl, (hcongr _ fun p => by simp [or_comm]).trans hF, hsize.trans (by decide), hin, hout⟩

end FilterSet

end Patchwork
