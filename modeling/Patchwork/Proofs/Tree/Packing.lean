import Patchwork.Proofs.Tree.Targets

/-!
# How patches are packed

A tree is patched with the sections that the patch files hold: neither the names of the patch files nor the
order of the sections matters.
-/
namespace Patchwork.Tree

open Volume

variable {v : Volume} {b d o d₁ d₂ : Place} {c : Config} {e : Fault}
  {baseline patchDir first second output dir other : Text} {beginnings names : List Text}
  {ps qs all : PatchSet} {sections more s₁ s₂ : List FilePatch}

/-- Patches in the order of the paths of their files. -/
def PatchSet.Sorted (ps : PatchSet) : Prop := ps.Pairwise fun x y => Text.before x.1 y.1 = true

theorem PatchSet.Sorted.insert (h : ps.Sorted) (target : Text) (p : FilePatch) : (ps.insert target p).Sorted := by
  induction ps with
  | nil => exact List.pairwise_singleton _ _
  | cons q ps ih =>
    obtain ⟨hq, hps⟩ := List.pairwise_cons.mp h
    rw [PatchSet.insert]
    split
    · next hbefore =>
      exact List.pairwise_cons.mpr
        ⟨List.forall_mem_cons.mpr ⟨hbefore, fun x hx => Text.before_trans hbefore (hq x hx)⟩, h⟩
    · next hafter =>
      have hle : Text.before q.1 target = true := by
        have htotal := Text.before_total target q.1
        rwa [Bool.eq_false_of_not_eq_true hafter, Bool.false_or] at htotal
      refine List.pairwise_cons.mpr ⟨fun x hx => ?_, ih hps⟩
      rcases List.mem_cons.mp ((PatchSet.insert_perm target p ps).mem_iff.mp hx) with rfl | hx
      · exact hle
      · exact hq x hx

theorem PatchSet.Sorted.addAll (h : ps.Sorted) (hadd : ps.addAll beginnings sections = .ok all) : all.Sorted := by
  induction sections generalizing ps with
  | nil =>
    cases hadd
    exact h
  | cons s sections ih =>
    rw [PatchSet.addAll] at hadd
    split at hadd
    · cases hadd
    · exact ih (h.insert _ s) hadd

/-- Sorted patches for different files are determined by which patches they are. -/
theorem PatchSet.Sorted.eq_of_perm (hps : ps.Sorted) (hqs : qs.Sorted) (hperm : ps.Perm qs)
    (hd : (ps.map (·.1)).Nodup) : ps = qs := by
  refine hperm.eq_of_pairwise (fun x y hx hy hxy hyx => ?_) hps hqs
  exact List.inj_on_of_nodup_map hd hx (hperm.mem_iff.mpr hy) (Text.eq_of_before hxy hyx)

theorem PatchSet.addAll_append :
    PatchSet.addAll beginnings ps (sections ++ more) =
      (PatchSet.addAll beginnings ps sections).bind fun all => PatchSet.addAll beginnings all more := by
  induction sections generalizing ps with
  | nil => rfl
  | cons s sections ih =>
    rw [List.cons_append, PatchSet.addAll, PatchSet.addAll]
    split
    · rfl
    · exact ih

/-- Sections are refused only if two of them are for the same file. -/
theorem PatchSet.addAll_eq_error (h : ps.addAll beginnings sections = .error e) :
    ∃ t, e = .duplicateTarget t ∧ 1 < ((ps ++ sections.map (aimed beginnings)).map (·.1)).count t := by
  induction sections generalizing ps with
  | nil => cases h
  | cons s sections ih =>
    rw [PatchSet.addAll] at h
    split at h
    · next hthere =>
      obtain ⟨q, hq, heq⟩ := List.any_eq_true.mp hthere
      cases h
      refine ⟨_, rfl, ?_⟩
      have hmem : targetPath beginnings s.source ∈ ps.map (·.1) := List.mem_map.mpr ⟨q, hq, by simpa using heq⟩
      have hcount := List.count_pos_iff.mpr hmem
      rw [List.map_append, List.map_cons, List.map_cons, List.count_append, aimed, List.count_cons_self]
      omega
    · obtain ⟨t, rfl, hcount⟩ := ih h
      refine ⟨t, rfl, ?_⟩
      have hinsert := (PatchSet.insert_perm (targetPath beginnings s.source) s ps).append_right
        (sections.map (aimed beginnings))
      rwa [((hinsert.trans List.perm_middle.symm).map (·.1)).count_eq] at hcount

theorem map_aimed (beginnings : List Text) (sections : List FilePatch) :
    (sections.map (aimed beginnings)).map (·.1) = sections.map fun s => targetPath beginnings s.source := by
  rw [List.map_map]
  rfl

/-- The same sections in another order make the same patches, or are refused as well. -/
theorem PatchSet.addAll_perm (h : s₁.Perm s₂) :
    PatchSet.addAll beginnings [] s₁ = PatchSet.addAll beginnings [] s₂ ∨ ∃ t₁ t₂,
      PatchSet.addAll beginnings [] s₁ = .error (.duplicateTarget t₁) ∧
      PatchSet.addAll beginnings [] s₂ = .error (.duplicateTarget t₂) ∧
      1 < (s₁.map fun s => targetPath beginnings s.source).count t₁ ∧
      1 < (s₁.map fun s => targetPath beginnings s.source).count t₂ := by
  have hcount := (h.map fun s => targetPath beginnings s.source).count_eq
  -- What one order makes is free of duplicates, so the other order cannot meet one.
  have hrefused {r₁ r₂ : List FilePatch} (hr : r₁.Perm r₂) {all : PatchSet} {e : Fault}
      (hok : PatchSet.addAll beginnings [] r₁ = .ok all) (he : PatchSet.addAll beginnings [] r₂ = .error e) :
      False := by
    obtain ⟨hperm, hnodup⟩ := PatchSet.addAll_eq_ok hok
    obtain ⟨t, -, ht⟩ := PatchSet.addAll_eq_error he
    have hsame := ((hperm.trans (hr.map (aimed beginnings))).map (·.1)).nodup_iff.mp (hnodup .nil)
    exact absurd (List.nodup_iff_count_le_one.mp hsame t) (Nat.not_le.mpr ht)
  cases h₁ : PatchSet.addAll beginnings [] s₁ with
  | ok ps =>
    cases h₂ : PatchSet.addAll beginnings [] s₂ with
    | ok qs =>
      left
      obtain ⟨hps, hnodup⟩ := PatchSet.addAll_eq_ok h₁
      obtain ⟨hqs, -⟩ := PatchSet.addAll_eq_ok h₂
      have hsorted : PatchSet.Sorted [] := .nil
      have hperm := hps.trans ((h.map (aimed beginnings)).trans hqs.symm)
      rw [(hsorted.addAll h₁).eq_of_perm (hsorted.addAll h₂) hperm (hnodup .nil)]
    | error e => exact (hrefused h h₁ h₂).elim
  | error e =>
    cases h₂ : PatchSet.addAll beginnings [] s₂ with
    | ok qs => exact (hrefused h.symm h₂ h₁).elim
    | error e' =>
      right
      obtain ⟨t₁, rfl, hc₁⟩ := PatchSet.addAll_eq_error h₁
      obtain ⟨t₂, rfl, hc₂⟩ := PatchSet.addAll_eq_error h₂
      rw [List.nil_append, map_aimed] at hc₁ hc₂
      exact ⟨t₁, t₂, rfl, rfl, hc₁, by rwa [hcount]⟩

theorem Sections.on_loadFiles (h : Sections v patchDir names sections) (ps : PatchSet) :
    Disk.on v (loadFiles c patchDir ps names) = (ps.addAll c.beginnings sections, v) := by
  induction h generalizing ps with
  | nil => rfl
  | @cons name names here rest hparse hne _ ih =>
    rw [loadFiles, Disk.on_bind_of_ok hparse, if_neg hne, PatchSet.addAll_append]
    cases hadd : ps.addAll c.beginnings here with
    | error e => rfl
    | ok all => exact ih all

/-- A directory at a place whose files hold some sections, each file at least one. -/
structure Packed (v : Volume) (patchDir : Text) (d : Place) (sections : List FilePatch) : Prop where
  find : v.find .item patchDir = .ok (d, .dir)
  sections : Sections v patchDir (filesAt v d) sections

theorem Packed.on_loadPatches (h : Packed v patchDir d sections) :
    Disk.on v (loadPatches c patchDir) = (PatchSet.addAll c.beginnings [] sections, v) := by
  rw [loadPatches, Disk.on_bind_of_ok (on_listFiles h.find)]
  exact h.sections.on_loadFiles []

theorem on_ensureDisjoint_concat (hd : v.find .item other = .ok (d, .dir))
    (ha : ∀ o, canonical v dir = .ok o → apart o d = true) (kept : List Text) :
    Disk.on v (ensureDisjoint dir (kept ++ [other])) = Disk.on v (ensureDisjoint dir kept) := by
  rw [ensureDisjoint, ensureDisjoint, Disk.on_ask, Disk.on_ask]
  cases ho : canonical v dir with
  | error => rfl
  | ok o =>
    simp only [List.foldl_append, List.foldl_cons, List.foldl_nil, canonical_of_find hd, ha o ho, if_true]
    split <;> simp only [*]

/-- Patches a tree with sections that are known. -/
def patchWith (c : Config) (baseline output : Text) (sections : List FilePatch) : Disk Fault PatchReport := do
  Disk.requireDir baseline
  ensureDisjoint output [baseline]
  let patches ← Disk.ofExcept (PatchSet.addAll c.beginnings [] sections)
  clearDir output
  let copied ← copyTree baseline output
  patchFiles baseline output patches
  pure ⟨copied.length, patches.length⟩

/-- What is in the patch files is all that patching a tree takes from their directory. -/
theorem Packed.on_patch (h : Packed v patchDir d sections)
    (ha : ∀ o, canonical v output = .ok o → Tree.apart o d = true) :
    Disk.on v (patch c baseline patchDir output) = Disk.on v (patchWith c baseline output sections) := by
  rw [patch, patchWith, Disk.on_bind, Disk.on_bind]
  cases hdir : Disk.on v (Disk.requireDir baseline) with
  | mk r u =>
    cases r with
    | error => rfl
    | ok =>
      obtain ⟨rfl, -⟩ := requireDir_eq_ok hdir
      have hconcat : Disk.on v (ensureDisjoint output [baseline, patchDir]) =
        Disk.on v (ensureDisjoint output [baseline]) := on_ensureDisjoint_concat h.find ha [baseline]
      simp only
      rw [Disk.on_bind, Disk.on_bind, hconcat]
      cases hdisjoint : Disk.on v (ensureDisjoint output [baseline]) with
      | mk r u =>
        cases r with
        | error => rfl
        | ok =>
          obtain ⟨rfl, -⟩ := ensureDisjoint_eq_ok hdisjoint
          simp only
          rw [Disk.on_bind, Disk.on_bind, h.on_loadPatches]
          rfl

/-- Sections that are refused are all that a run comes to, unless it is refused for the baseline. -/
theorem on_patchWith_refused {e₁ e₂ : Fault} (h₁ : PatchSet.addAll c.beginnings [] s₁ = .error e₁)
    (h₂ : PatchSet.addAll c.beginnings [] s₂ = .error e₂) :
    Disk.on v (patchWith c baseline output s₁) = Disk.on v (patchWith c baseline output s₂) ∨
      Disk.on v (patchWith c baseline output s₁) = (.error e₁, v) ∧
      Disk.on v (patchWith c baseline output s₂) = (.error e₂, v) := by
  rw [patchWith, patchWith, h₁, h₂, Disk.on_bind, Disk.on_bind]
  cases hdir : Disk.on v (Disk.requireDir baseline) with
  | mk r u =>
    cases r with
    | error => exact .inl rfl
    | ok =>
      obtain ⟨rfl, -⟩ := requireDir_eq_ok hdir
      simp only
      rw [Disk.on_bind, Disk.on_bind]
      cases hdisjoint : Disk.on v (ensureDisjoint output [baseline]) with
      | mk r u =>
        cases r with
        | error => exact .inl rfl
        | ok =>
          obtain ⟨rfl, -⟩ := ensureDisjoint_eq_ok hdisjoint
          exact .inr ⟨rfl, rfl⟩

/-- An output that overlaps the directory of the patches is refused before anything is changed. -/
theorem Packed.on_patch_overlap (h : Packed v patchDir d sections) (hb : v.find .item baseline = .ok (b, .dir))
    (ho : canonical v output = .ok o) (hbase : apart o b = true) (hpatches : apart o d = false) :
    Disk.on v (patch c baseline patchDir output) = (.error (.config (.overlap output patchDir)), v) := by
  have hdir : Disk.on v (Disk.requireDir baseline) = (.ok (), v) := by
    rw [Disk.requireDir, Disk.on_ask, if_pos (by rw [isDir, hb])]
  have hrefused : Disk.on v (ensureDisjoint output [baseline, patchDir]) =
      (.error (.config (.overlap output patchDir)), v) := by
    rw [ensureDisjoint, Disk.on_ask]
    simp only [ho, List.foldl_cons, List.foldl_nil, canonical_of_find hb, canonical_of_find h.find, hbase,
      hpatches, if_true, Bool.false_eq_true, if_false]
  rw [patch, Disk.on_bind_of_ok hdir, Disk.on_bind, hrefused]

/-- Two directories that hold the same sections, in whatever files and in whatever order, patch a tree alike:
the answer and everything on the volume are the same, unless two sections are for the same path, and then
neither run changes anything.  The output may overlap neither directory. -/
theorem patch_packing (h₁ : Packed v first d₁ s₁) (h₂ : Packed v second d₂ s₂) (hs : s₁.Perm s₂) :
    ((∀ o, canonical v output = .ok o → apart o d₁ = true ∧ apart o d₂ = true) →
      Disk.on v (patch c baseline first output) = Disk.on v (patch c baseline second output) ∨
      ∃ t₁ t₂, Disk.on v (patch c baseline first output) = (.error (.duplicateTarget t₁), v) ∧
        Disk.on v (patch c baseline second output) = (.error (.duplicateTarget t₂), v) ∧
        1 < (s₁.map fun s => targetPath c.beginnings s.source).count t₁ ∧
        1 < (s₁.map fun s => targetPath c.beginnings s.source).count t₂) ∧
    ∀ b o, v.find .item baseline = .ok (b, .dir) → canonical v output = .ok o → apart o b = true →
      apart o d₁ = false →
      Disk.on v (patch c baseline first output) = (.error (.config (.overlap output first)), v) := by
  refine ⟨fun ha => ?_, fun b o hb ho => h₁.on_patch_overlap hb ho⟩
  rw [h₁.on_patch fun o ho => (ha o ho).1, h₂.on_patch fun o ho => (ha o ho).2]
  rcases PatchSet.addAll_perm hs with hsame | ⟨t₁, t₂, ht₁, ht₂, hc₁, hc₂⟩
  · left
    rw [patchWith, patchWith, hsame]
  · refine (on_patchWith_refused ht₁ ht₂).imp_right ?_
    rintro ⟨hr₁, hr₂⟩
    exact ⟨t₁, t₂, hr₁, hr₂, hc₁, hc₂⟩

/-- Two sections in one patch file, and the same ones in two files that come in the other order. -/
def repacked : Volume :=
  { Volume.empty with items :=
    [([['b']], .dir), ([['b'], ['f']], .file [49, 10]), ([['b'], ['g']], .file [49, 10]), ([['p']], .dir),
     ([['p'], ['s']], .file (Text.Utf8.encode (FilePatch.print twoSections))), ([['q']], .dir),
     ([['q'], ['a']], .file (Text.Utf8.encode (FilePatch.print [changeTo ['g'] "3\n".toList]))),
     ([['q'], ['z']], .file (Text.Utf8.encode (FilePatch.print [changeTo ['f'] "2\n".toList])))] }

theorem packed_repacked :
    Packed repacked ['p'] [['p']] twoSections ∧ Packed repacked ['q'] [['q']] twoSections.reverse := by
  have hp : filesAt repacked [['p']] = [['s']] := List.mergeSort_singleton _
  have hq : filesAt repacked [['q']] = [['a'], ['z']] := List.mergeSort_of_pairwise (by decide)
  have hboth : ∀ s ∈ twoSections, s.Printable := by decide
  have hf : ∀ s ∈ [changeTo ['f'] "2\n".toList], s.Printable := by decide
  have hg : ∀ s ∈ [changeTo ['g'] "3\n".toList], s.Printable := by decide
  refine ⟨⟨rfl, ?_⟩, ⟨rfl, ?_⟩⟩
  · rw [hp]
    exact .cons (parseFile_of_find hboth rfl) (List.cons_ne_nil _ _) .nil
  · rw [hq]
    exact .cons (parseFile_of_find hg rfl) (List.cons_ne_nil _ _)
      (.cons (parseFile_of_find hf rfl) (List.cons_ne_nil _ _) .nil)

theorem patch_packing_repacked : Packed repacked ['p'] [['p']] twoSections ∧
    Packed repacked ['q'] [['q']] twoSections.reverse ∧ twoSections.Perm twoSections.reverse ∧
    Disk.on repacked (patch {} ['b'] ['p'] ['o']) = Disk.on repacked (patch {} ['b'] ['q'] ['o']) ∧
    Disk.on repacked (patch {} ['b'] ['p'] ['p']) = (.error (.config (.overlap ['p'] ['p'])), repacked) := by
  obtain ⟨hp, hq⟩ := packed_repacked
  have hperm := (List.reverse_perm twoSections).symm
  refine ⟨hp, hq, hperm, ?_, (patch_packing hp hq hperm).2 _ _ rfl rfl rfl rfl⟩
  have ha (o : Place) (ho : canonical repacked ['o'] = .ok o) :
      apart o [['p']] = true ∧ apart o [['q']] = true := by
    cases ho
    decide
  rcases (patch_packing hp hq hperm).1 ha with hsame | ⟨t, -, -, -, ht, -⟩
  · exact hsame
  -- The two sections are for different files.
  · have hnodup : (twoSections.map fun s => targetPath [] s.source).Nodup := by decide
    exact absurd (List.nodup_iff_count_le_one.mp hnodup t) (Nat.not_le.mpr ht)

/-- The patches are in two files of the directory that shall be the output, and are refused there, but not if
they come from elsewhere. -/
theorem patch_packing_overlap : Packed repacked ['q'] [['q']] twoSections.reverse ∧
    Packed repacked ['p'] [['p']] twoSections ∧ twoSections.reverse.Perm twoSections ∧
    Disk.on repacked (patch {} ['b'] ['q'] ['q']) = (.error (.config (.overlap ['q'] ['q'])), repacked) ∧
    ∃ report w, Disk.on repacked (patch {} ['b'] ['p'] ['q']) = (.ok report, w) := by
  obtain ⟨hp, hq⟩ := packed_repacked
  have hb : repacked.find .item ['b'] = .ok ([['b']], .dir) := rfl
  refine ⟨hq, hp, List.reverse_perm _, hq.on_patch_overlap hb rfl rfl rfl, ?_⟩
  have hv : repacked.Sound := ⟨by decide, by decide, by decide⟩
  have hn : Named repacked [] := named_of_items (by decide)
  have hfiles : filesAt repacked [['b']] = [['f'], ['g']] := List.mergeSort_of_pairwise (by decide)
  have hload : Disk.on repacked (loadPatches {} ['p']) = (.ok (twoSections.map (aimed [])), repacked) :=
    hp.on_loadPatches
  have happlied : ∀ e ∈ twoSections.map (aimed []), Applied repacked [['b']] e := by
    intro e he
    rcases List.mem_pair.mp he with rfl | rfl
    · exact ⟨by decide, by decide, fun root => rfl, by decide +kernel⟩
    · exact ⟨by decide, by decide, fun root => rfl, by decide +kernel⟩
  have hreaches (f : Text) (hf : f ∈ filesAt repacked [['b']]) : Reaches ['b'] f ∧ Reaches ['q'] f := by
    rw [hfiles] at hf
    revert f
    decide
  exact patch_total hv (hn.below _) hb rfl hload rfl (leaves_of_isDir (by decide +kernel))
    (leaves_of_isDir (by decide +kernel)) hreaches happlied

end Patchwork.Tree
