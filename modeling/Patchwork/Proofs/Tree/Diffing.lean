import Patchwork.Proofs.Tree.Naming
import Patchwork.Proofs.Tree.Spared

/-!
# What a diff leaves

A diff that succeeds has read both versions of every file, and has left the patches, each in a file with
a name of its own, in a directory that is apart from the baseline.
-/
namespace Patchwork

theorem foldl_eq_ok {ε α : Type} {step : Except ε Unit → α → Except ε Unit} {r : Except ε Unit}
    {xs : List α} (hstep : ∀ r x, step r x = .ok () → r = .ok ()) (h : xs.foldl step r = .ok ()) :
    r = .ok () ∧ ∀ x ∈ xs, step (.ok ()) x = .ok () := by
  induction xs generalizing r with
  | nil => exact ⟨h, nofun⟩
  | cons x xs ih =>
    rw [List.foldl_cons] at h
    obtain ⟨hx, hxs⟩ := ih h
    have hr := hstep r x hx
    subst hr
    exact ⟨rfl, List.forall_mem_cons.mpr ⟨hx, hxs⟩⟩

namespace Tree

open Volume

variable {v w : Volume} {p b : Place} {c : Config} {baseline modified patchDir dir f : Text}
  {fs seen kept : List Text} {ps : List (Text × FilePatch)} {report : DiffReport}

theorem ensureDisjoint_eq_ok (h : Disk.on v (ensureDisjoint dir kept) = (.ok (), w)) :
    v = w ∧ ∃ p, canonical v dir = .ok p ∧
      ∀ other ∈ kept, ∃ q, canonical v other = .ok q ∧ apart p q = true := by
  rw [ensureDisjoint, Disk.on_ask] at h
  obtain ⟨hr, rfl⟩ := Prod.mk.inj h
  refine ⟨rfl, ?_⟩
  split at hr
  · cases hr
  · next p hp =>
    refine ⟨p, hp, fun other hother => ?_⟩
    have hone := (foldl_eq_ok ?_ hr).2 other hother
    · simp only at hone
      split at hone
      · cases hone
      · next q hq =>
        split at hone
        · next hapart => exact ⟨q, hq, hapart⟩
        · cases hone
    · intro r other h
      cases r with
      | error => cases h
      | ok => rfl

theorem checkNames_eq_ok {ext : Text} (h : checkNames ext seen fs = .ok ()) :
    (fs.map (patchFileName ext)).Nodup ∧
      ∀ f ∈ fs, ∀ s ∈ seen, patchFileName ext s ≠ patchFileName ext f := by
  induction fs generalizing seen with
  | nil => exact ⟨.nil, nofun⟩
  | cons f fs ih =>
    rw [checkNames] at h
    split at h
    · cases h
    · next hnone =>
      obtain ⟨hnodup, hnew⟩ := ih h
      refine ⟨List.nodup_cons.mpr ⟨fun hmem => ?_, hnodup⟩, List.forall_mem_cons.mpr ⟨?_, ?_⟩⟩
      · obtain ⟨g, hg, heq⟩ := List.mem_map.mp hmem
        exact hnew g hg f List.mem_cons_self heq.symm
      · intro s hs heq
        exact List.find?_eq_none.mp hnone s hs (by simpa using heq)
      · exact fun g hg s hs => hnew g hg s (List.mem_cons_of_mem _ hs)

/-- A patch between the two versions of a file. -/
def Differs (c : Config) (v : Volume) (baseline modified f : Text) (p : FilePatch) : Prop :=
  ∃ old new, v.readText (Path.join baseline f) = .ok old ∧
    v.readText (Path.join modified f) = .ok new ∧
    FilePatch.ofTexts? c.patchLabel f old new = some p

/-- A file whose two versions could be read. -/
structure Read (v : Volume) (baseline modified f : Text) : Prop where
  resolves : ∀ root, Path.resolve? root f = some (Path.join root f)
  old : ∃ t, v.readText (Path.join baseline f) = .ok t
  new : ∃ t, v.readText (Path.join modified f) = .ok t

theorem diffFile_eq_ok {r : Option FilePatch} (hf : Path.Plain f)
    (h : diffFile c v baseline modified f = .ok r) :
    Read v baseline modified f ∧ ∀ p, r = some p ↔ Differs c v baseline modified f p := by
  unfold diffFile at h
  split at h
  · cases h
  · next path hpath =>
    obtain ⟨rfl, hresolves⟩ := hf.resolve?_eq_some hpath
    simp only at h
    split at h
    · cases h
    · next old hold =>
      split at h
      · cases h
      · next new hnew =>
        cases h
        refine ⟨⟨hresolves, ⟨old, hold⟩, ⟨new, hnew⟩⟩, fun p => ⟨fun h => ⟨old, new, hold, hnew, h⟩, ?_⟩⟩
        rintro ⟨old', new', hold', hnew', h⟩
        rw [hold] at hold'
        rw [hnew] at hnew'
        cases hold'
        cases hnew'
        exact h

theorem diffFiles_eq_ok (hfs : ∀ f ∈ fs, Path.Plain f)
    (h : diffFiles c v baseline modified fs = .ok ps) :
    (ps.map (·.1)).Sublist fs ∧ (∀ f ∈ fs, Read v baseline modified f) ∧
      ∀ f p, (f, p) ∈ ps ↔ f ∈ fs ∧ Differs c v baseline modified f p := by
  induction fs generalizing ps with
  | nil =>
    cases h
    exact ⟨.slnil, nofun, fun f p => ⟨nofun, nofun⟩⟩
  | cons g fs ih =>
    rw [diffFiles] at h
    split at h
    · cases h
    · next r hr =>
      obtain ⟨hread, hdiffers⟩ := diffFile_eq_ok (hfs g List.mem_cons_self) hr
      cases hrest : diffFiles c v baseline modified fs with
      | error e =>
        rw [hrest] at h
        cases h
      | ok rest =>
        rw [hrest] at h
        obtain ⟨hsub, hall, hmem⟩ := ih (fun f hf => hfs f (List.mem_cons_of_mem _ hf)) hrest
        cases r with
        | none =>
          cases h
          refine ⟨hsub.cons g, List.forall_mem_cons.mpr ⟨hread, hall⟩, fun f p => ?_⟩
          rw [hmem, List.mem_cons]
          constructor
          · exact fun hf => ⟨Or.inr hf.1, hf.2⟩
          · rintro ⟨rfl | hf, hd⟩
            · exact nomatch (hdiffers p).mpr hd
            · exact ⟨hf, hd⟩
        | some q =>
          cases h
          refine ⟨hsub.cons_cons g, List.forall_mem_cons.mpr ⟨hread, hall⟩, fun f p => ?_⟩
          rw [List.mem_cons, hmem, List.mem_cons, Prod.mk.injEq]
          constructor
          · rintro (⟨rfl, rfl⟩ | ⟨hf, hd⟩)
            · exact ⟨Or.inl rfl, (hdiffers _).mp rfl⟩
            · exact ⟨Or.inr hf, hd⟩
          · rintro ⟨rfl | hf, hd⟩
            · exact Or.inl ⟨rfl, (Option.some.inj ((hdiffers p).mpr hd)).symm⟩
            · exact Or.inr ⟨hf, hd⟩

/-- The files of some patches, by their paths in the patch directory. -/
def patchContents (c : Config) (ps : List (Text × FilePatch)) : List (Text × Bytes) :=
  ps.map fun e => (patchFileName c.patchExtension e.1, Text.Utf8.encode (FilePatch.print [e.2]))

/-- What a diff leaves that succeeds. -/
structure Diffed (c : Config) (v w : Volume) (baseline modified patchDir : Text) (b p : Place)
    (ps : List (Text × FilePatch)) : Prop where
  apart : Apart p b
  sublist : (ps.map (·.1)).Sublist (filesAt v b)
  read : ∀ f ∈ filesAt v b, Read v baseline modified f
  mem : ∀ f q, (f, q) ∈ ps ↔ f ∈ filesAt v b ∧ Differs c v baseline modified f q
  names : (ps.map fun e => patchFileName c.patchExtension e.1).Nodup
  stocked : Stocked w patchDir p (restock (fun _ => none) (patchContents c ps))
  reaches : ∀ e ∈ ps, Reaches patchDir (patchFileName c.patchExtension e.1)
  baseline : w.find .item baseline = .ok (b, .dir)
  kept : ∀ q, w.file? (b ++ q) = v.file? (b ++ q)

/-- What is known when the patch directory is about to be cleared. -/
structure Prepared (c : Config) (v : Volume) (baseline modified patchDir : Text) (b p : Place)
    (ps : List (Text × FilePatch)) : Prop where
  find : v.find .item baseline = .ok (b, .dir)
  place : canonical v patchDir = .ok p
  apart : ∀ other ∈ [baseline, modified], ∃ q, canonical v other = .ok q ∧ apart p q = true
  names : checkNames c.patchExtension [] (filesAt v b) = .ok ()
  patches : diffFiles c v baseline modified (filesAt v b) = .ok ps

/-- The files of some patches, by their paths in the patch directory. -/
def patchTexts (c : Config) (ps : List (Text × FilePatch)) : List (Text × Text) :=
  ps.map fun e => (patchFileName c.patchExtension e.1, FilePatch.print [e.2])

/-- How far a diff comes. -/
inductive DiffRun (c : Config) (v w : Volume) (baseline modified patchDir : Text) :
    Except Fault DiffReport → Prop
  | refused (e : Fault) (hw : w = v) : DiffRun c v w baseline modified patchDir (.error e)
  | uncleared {b p : Place} {ps : List (Text × FilePatch)} {e : Fault}
      (hp : Prepared c v baseline modified patchDir b p ps)
      (hclear : Disk.on v (clearDir patchDir) = (.error e, w)) :
      DiffRun c v w baseline modified patchDir (.error e)
  | cleared {b p : Place} {ps : List (Text × FilePatch)} {u : Volume} {r : Except Fault Unit}
      (hp : Prepared c v baseline modified patchDir b p ps)
      (hclear : Disk.on v (clearDir patchDir) = (.ok (), u))
      (hwrite : Disk.on u (writeFiles patchDir (patchTexts c ps)) = (r, w)) :
      DiffRun c v w baseline modified patchDir
        (r.map fun _ => ⟨(patchTexts c ps).map (·.1), (filesAt v b).length - ps.length⟩)

theorem diff_cases {r : Except Fault DiffReport}
    (h : Disk.on v (diff c baseline modified patchDir) = (r, w)) :
    DiffRun c v w baseline modified patchDir r := by
  rcases Disk.on_bind_cases h with ⟨e, hdir, rfl⟩ | ⟨⟨⟩, u, hdir, h⟩
  · exact .refused e (Prod.mk.inj hdir).2.symm
  obtain ⟨-, rfl⟩ := Disk.on_ask_eq_ok hdir
  rcases Disk.on_bind_cases h with ⟨e, hlist, rfl⟩ | ⟨fs, u, hlist, h⟩
  · exact .refused e (Prod.mk.inj hlist).2.symm
  obtain ⟨rfl, b, hb, rfl⟩ := listFiles_eq_ok hlist
  rcases Disk.on_bind_cases h with ⟨e, hdisjoint, rfl⟩ | ⟨⟨⟩, u, hdisjoint, h⟩
  · exact .refused e (Prod.mk.inj hdisjoint).2.symm
  obtain ⟨rfl, p, hp, hkept⟩ := ensureDisjoint_eq_ok hdisjoint
  rcases Disk.on_bind_cases h with ⟨e, hcheck, rfl⟩ | ⟨⟨⟩, u, hcheck, h⟩
  · exact .refused e (Prod.mk.inj hcheck).2.symm
  obtain ⟨hnames, rfl⟩ := Disk.on_ofExcept_eq_ok hcheck
  rcases Disk.on_bind_cases h with ⟨e, hfiles, rfl⟩ | ⟨ps, u, hfiles, h⟩
  · exact .refused e (Prod.mk.inj hfiles).2.symm
  obtain ⟨hps, rfl⟩ := Disk.on_ask_eq_ok hfiles
  have hprep : Prepared c u baseline modified patchDir b p ps := ⟨hb, hp, hkept, hnames, hps⟩
  rcases Disk.on_bind_cases h with ⟨e, hclear, rfl⟩ | ⟨⟨⟩, u', hclear, h⟩
  · exact .uncleared hprep hclear
  rcases Disk.on_bind_cases h with ⟨e, hwrite, rfl⟩ | ⟨⟨⟩, u'', hwrite, h⟩
  · exact .cleared hprep hclear hwrite
  · obtain ⟨rfl, rfl⟩ := Prod.mk.inj h
    exact .cleared hprep hclear hwrite

/-- A diff that has found everything in order clears the patch directory and writes the patches. -/
theorem on_diff (hm : v.isDir modified = true) (hb : v.find .item baseline = .ok (b, .dir))
    (hapart : (Disk.on v (ensureDisjoint patchDir [baseline, modified])).1 = .ok ())
    (hnames : checkNames c.patchExtension [] (filesAt v b) = .ok ())
    (hps : diffFiles c v baseline modified (filesAt v b) = .ok ps)
    (hclear : Disk.on v (clearDir patchDir) = (.ok (), w)) :
    Disk.on v (diff c baseline modified patchDir) =
      Disk.on w (writeFiles patchDir (patchTexts c ps) >>= fun _ =>
        pure ⟨(patchTexts c ps).map (·.1), (filesAt v b).length - ps.length⟩) := by
  have hdir : Disk.on v (Disk.requireDir modified) = (.ok (), v) := by
    rw [Disk.requireDir, Disk.on_ask, if_pos hm]
  have hcheck : Disk.on v (Disk.ofExcept (checkNames c.patchExtension [] (filesAt v b))) = (.ok (), v) := by
    rw [hnames]
    rfl
  have hfiles : Disk.on v (Disk.ask fun u => diffFiles c u baseline modified (filesAt v b)) = (.ok ps, v) := by
    rw [Disk.on_ask, hps]
  have hdisjoint : Disk.on v (ensureDisjoint patchDir [baseline, modified]) = (.ok (), v) :=
    Prod.ext hapart rfl
  rw [diff, Disk.on_bind_of_ok hdir, Disk.on_bind_of_ok (on_listFiles hb), Disk.on_bind_of_ok hdisjoint,
    Disk.on_bind_of_ok hcheck, Disk.on_bind_of_ok hfiles, Disk.on_bind_of_ok hclear]
  rfl

theorem diff_eq_ok (hv : v.Sound) (hn : Named v b) (hc : c.validate = .ok ())
    (hb : v.find .item baseline = .ok (b, .dir)) (hself : Leaves v patchDir patchDir)
    (hbase : Leaves v patchDir baseline)
    (h : Disk.on v (diff c baseline modified patchDir) = (.ok report, w)) :
    ∃ p ps, Diffed c v w baseline modified patchDir b p ps := by
  generalize hr : Except.ok report = r at h
  cases diff_cases h with
  | refused | uncleared => cases hr
  | @cleared b' p ps u r' hp hclear hwrite =>
    cases r' with
    | error => cases hr
    | ok =>
      have hsame := hp.find
      rw [hb] at hsame
      cases hsame
      have hplain (f : Text) (hf : f ∈ filesAt v b) : Path.Plain f := ((mem_filesAt_iff hv hn).mp hf).1
      obtain ⟨hsub, hread, hmem⟩ := diffFiles_eq_ok hplain hp.patches
      obtain ⟨hext, hslash⟩ := Config.validate_eq_ok hc
      have hnamed (e : Text × FilePatch) (he : e ∈ ps) :
          Path.Plain (patchFileName c.patchExtension e.1) :=
        (hplain e.1 (hsub.subset (List.mem_map_of_mem he))).patchFileName hext hslash
      obtain ⟨r, hr⟩ := Disk.find_of_isDir (hself u hclear)
      obtain ⟨hcleared, hways⟩ :=
        cleared_of_clearDir hv (find_ne_nil hr) hself.undisturbed hp.place hclear
      obtain ⟨hstocked, hstocks, hreaches⟩ :=
        hcleared.stocked.writeFiles (List.forall_mem_map.mpr hnamed) hwrite
      rw [List.map_map] at hstocked
      have hap := apart_of_canonical (canonical_of_find hb) (hp.apart baseline List.mem_cons_self)
      refine ⟨p, ps, hap, hsub, hread, hmem, ?_, hstocked,
        fun e he => hreaches _ (List.mem_map_of_mem he), hstocks.find_dir (hways baseline b hb hbase.undisturbed),
        fun q => ?_⟩
      · have hsublist := (hsub.map (patchFileName c.patchExtension)).nodup (checkNames_eq_ok hp.names).1
        rwa [List.map_map] at hsublist
      · rw [hstocks.file? hap, hcleared.around.file? (hap q)]

end Tree

end Patchwork
