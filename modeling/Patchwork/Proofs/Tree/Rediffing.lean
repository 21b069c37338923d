import Patchwork.Proofs.Tree.Keeping
import Patchwork.Proofs.Tree.Loading

/-!
# The patch files of two trees

The patch files that a diff leaves are determined by the texts of the two trees.  A diff that is run again
leaves the same ones.
-/
namespace Patchwork.Tree

open Volume

variable {u v w x : Volume} {b b' m m' p q : Place} {c : Config}
  {base baseline modified patchDir dir f t : Text} {fs others : List Text} {ps : List (Text × FilePatch)}
  {files : List (Text × Bytes)} {report : DiffReport}

/-- The text of a file in the tree at a place. -/
def textAt (v : Volume) (b : Place) (f : Text) : Option Text :=
  (v.file? (b ++ Path.parts f)).bind Text.Utf8.decode?

/-- The patch between the texts of a file in two trees, if they differ. -/
def patchOf? (c : Config) (v : Volume) (b m : Place) (f : Text) : Option FilePatch :=
  (textAt v b f).bind fun old => (textAt v m f).bind fun new => FilePatch.ofTexts? c.patchLabel f old new

/-- The patches between two trees, in the order of the files of the first. -/
def patchesOf (c : Config) (v : Volume) (b m : Place) : List (Text × FilePatch) :=
  (filesAt v b).filterMap fun f => (patchOf? c v b m f).map fun q => (f, q)

/-- What is told about the patches between two trees. -/
def reportOf (c : Config) (v : Volume) (b m : Place) : DiffReport :=
  ⟨(patchContents c (patchesOf c v b m)).map (·.1), (filesAt v b).countP fun f => patchOf? c v b m f = none⟩

/-- The files below a place are those of a list, each under a name of its own. -/
structure Holds (v : Volume) (p : Place) (files : List (Text × Bytes)) : Prop where
  distinct : (files.map (·.1)).Nodup
  listed : filesAt v p = Text.sort (files.map (·.1))
  file : ∀ e ∈ files, v.file? (p ++ Path.parts e.1) = some e.2

theorem textAt_of_readText (hb : v.find .item base = .ok (b, .dir)) (hf : Path.Plain f)
    (hl : NoLinkTo v b (Path.parts f)) (h : v.readText (Path.join base f) = .ok t) :
    Reaches base f ∧ textAt v b f = some t := by
  obtain ⟨r, hr⟩ := readText_eq_ok h
  obtain ⟨hlocate, hitem⟩ := find_eq_ok_iff.mp hr
  rw [← Path.ofParts_parts f] at hlocate
  obtain ⟨rfl, husable, hshort⟩ := locate_join_eq_ok hb hf (Path.parts_ne_nil f) hl hlocate
  rw [Path.ofParts_parts] at husable
  refine ⟨⟨husable, hshort⟩, ?_⟩
  rw [textAt, file?_eq_some_iff.mpr hitem, Option.bind_some, Text.Utf8.decode?_encode]

theorem readText_of_textAt (hv : v.Sound) (hb : v.find .item base = .ok (b, .dir)) (hf : Path.Plain f)
    (hr : Reaches base f) (h : textAt v b f = some t) : v.readText (Path.join base f) = .ok t := by
  obtain ⟨content, hfile, hdecode⟩ := Option.bind_eq_some_iff.mp h
  rw [← Text.Utf8.encode_of_decode? hdecode] at hfile
  exact readText_of_find (find_reaches hv hb hf hfile hr)

/-- A file with a text in two trees, both of which can be reached. -/
structure Compared (v : Volume) (baseline modified : Text) (b m : Place) (f : Text) : Prop where
  plain : Path.Plain f
  resolves : ∀ root, Path.resolve? root f = some (Path.join root f)
  reachesOld : Reaches baseline f
  reachesNew : Reaches modified f
  old : (textAt v b f).isSome
  new : (textAt v m f).isSome

theorem Read.compared (h : Read v baseline modified f) (hv : v.Sound) (hn : Named v b)
    (hb : v.find .item baseline = .ok (b, .dir)) (hm : v.find .item modified = .ok (m, .dir))
    (hlink : ∀ q t, v.item? (m ++ q) ≠ some (.link t)) (hf : f ∈ filesAt v b) :
    Compared v baseline modified b m f := by
  obtain ⟨hplain, hsome⟩ := (mem_filesAt_iff hv hn).mp hf
  obtain ⟨content, hfile⟩ := Option.isSome_iff_exists.mp hsome
  obtain ⟨old, hold⟩ := h.old
  obtain ⟨new, hnew⟩ := h.new
  have hbase := noLinkTo_of_item? hv (file?_eq_some_iff.mp hfile) nofun
  obtain ⟨hreachesOld, htextOld⟩ := textAt_of_readText hb hplain hbase hold
  obtain ⟨hreachesNew, htextNew⟩ := textAt_of_readText hm hplain (fun s _ t => hlink s t) hnew
  exact ⟨hplain, h.resolves, hreachesOld, hreachesNew, by rw [htextOld]; rfl, by rw [htextNew]; rfl⟩

theorem Compared.diffFile (h : Compared v baseline modified b m f) (hv : v.Sound)
    (hb : v.find .item baseline = .ok (b, .dir)) (hm : v.find .item modified = .ok (m, .dir)) :
    Tree.diffFile c v baseline modified f = .ok (patchOf? c v b m f) := by
  obtain ⟨old, hold⟩ := Option.isSome_iff_exists.mp h.old
  obtain ⟨new, hnew⟩ := Option.isSome_iff_exists.mp h.new
  simp only [Tree.diffFile, h.resolves, readText_of_textAt hv hb h.plain h.reachesOld hold,
    readText_of_textAt hv hm h.plain h.reachesNew hnew, patchOf?, hold, hnew, Option.bind_some]

theorem textAt_congr (h : w.file? (b' ++ Path.parts f) = v.file? (b ++ Path.parts f)) :
    textAt w b' f = textAt v b f := by
  rw [textAt, textAt, h]

theorem Compared.congr (h : Compared v baseline modified b m f) (hb : ∀ q, w.file? (b ++ q) = v.file? (b ++ q))
    (hm : ∀ q, w.file? (m ++ q) = v.file? (m ++ q)) : Compared w baseline modified b m f := by
  obtain ⟨hplain, hresolves, hreachesOld, hreachesNew, hold, hnew⟩ := h
  exact ⟨hplain, hresolves, hreachesOld, hreachesNew, by rwa [textAt_congr (hb _)], by rwa [textAt_congr (hm _)]⟩

theorem diffFiles_of_compared (hv : v.Sound) (hb : v.find .item baseline = .ok (b, .dir))
    (hm : v.find .item modified = .ok (m, .dir)) (h : ∀ f ∈ fs, Compared v baseline modified b m f) :
    diffFiles c v baseline modified fs =
      .ok (fs.filterMap fun f => (patchOf? c v b m f).map fun q => (f, q)) := by
  induction fs with
  | nil => rfl
  | cons f fs ih =>
    rw [diffFiles, (h f List.mem_cons_self).diffFile hv hb hm, ih fun g hg => h g (List.mem_cons_of_mem _ hg)]
    cases hq : patchOf? c v b m f with
    | none =>
      rw [List.filterMap_cons_none (by rw [hq]; rfl)]
      rfl
    | some q =>
      rw [List.filterMap_cons_some (by rw [hq]; rfl)]
      rfl

/-- The patches are determined by the trees, and of the second tree only by the files of the first one. -/
theorem patchesOf_congr (hlisted : filesAt w b' = filesAt v b)
    (hb : ∀ f ∈ filesAt v b, w.file? (b' ++ Path.parts f) = v.file? (b ++ Path.parts f))
    (hm : ∀ f ∈ filesAt v b, w.file? (m' ++ Path.parts f) = v.file? (m ++ Path.parts f)) :
    patchesOf c w b' m' = patchesOf c v b m ∧ reportOf c w b' m' = reportOf c v b m := by
  have hpatch (f : Text) (hf : f ∈ filesAt v b) : patchOf? c w b' m' f = patchOf? c v b m f := by
    rw [patchOf?, patchOf?, textAt_congr (hb f hf), textAt_congr (hm f hf)]
  have hsame : patchesOf c w b' m' = patchesOf c v b m := by
    rw [patchesOf, patchesOf, hlisted]
    exact List.filterMap_congr fun f hf => by rw [hpatch f hf]
  refine ⟨hsame, ?_⟩
  rw [reportOf, reportOf, hsame, hlisted]
  congr 1
  exact List.countP_congr fun f hf => by rw [hpatch f hf]

/-- The files that have a patch, and those that have none. -/
theorem map_patchesOf (c : Config) (v : Volume) (b m : Place) :
    (patchesOf c v b m).map (·.1) = (filesAt v b).filter fun f => (patchOf? c v b m f).isSome := by
  rw [patchesOf, List.map_filterMap, ← List.filterMap_eq_filter]
  congr 1
  funext f
  cases hq : patchOf? c v b m f <;> simp [Option.guard, hq]

theorem mem_filesAt_of_patch {e : Text × FilePatch} (h : e ∈ patchesOf c v b m) : e.1 ∈ filesAt v b := by
  have hmem := List.mem_map_of_mem (f := (·.1)) h
  rw [map_patchesOf] at hmem
  exact List.mem_of_mem_filter hmem

theorem length_patchesOf (c : Config) (v : Volume) (b m : Place) :
    (filesAt v b).length - (patchesOf c v b m).length =
      (filesAt v b).countP fun f => patchOf? c v b m f = none := by
  have hsplit := List.length_eq_countP_add_countP (fun f => (patchOf? c v b m f).isSome) (l := filesAt v b)
  have hsome : (patchesOf c v b m).length = (filesAt v b).countP fun f => (patchOf? c v b m f).isSome := by
    rw [← List.length_map (·.1), map_patchesOf, List.countP_eq_length_filter]
  have hnone : ((filesAt v b).countP fun f => decide ¬(patchOf? c v b m f).isSome = true) =
      (filesAt v b).countP fun f => patchOf? c v b m f = none :=
    List.countP_congr fun f _ => by simp
  omega

theorem reportOf_eq (c : Config) (v : Volume) (b m : Place) : reportOf c v b m =
    ⟨(patchTexts c (patchesOf c v b m)).map (·.1), (filesAt v b).length - (patchesOf c v b m).length⟩ := by
  rw [reportOf, length_patchesOf, patchTexts, patchContents, List.map_map, List.map_map]
  rfl

theorem on_ensureDisjoint (hp : canonical v dir = .ok p)
    (hothers : ∀ other ∈ others, ∃ q, canonical v other = .ok q ∧ apart p q = true) :
    Disk.on v (ensureDisjoint dir others) = (.ok (), v) := by
  rw [ensureDisjoint, Disk.on_ask]
  simp only [hp]
  induction others with
  | nil => rfl
  | cons other others ih =>
    obtain ⟨q, hq, hapart⟩ := hothers other List.mem_cons_self
    rw [List.foldl_cons]
    simp only [hq, hapart, if_true]
    exact ih fun other hother => hothers other (List.mem_cons_of_mem _ hother)

/-- What a directory held that was empty may be cleared away again. -/
theorem keeps_clear (hk : u.Keeps w) (hempty : ∀ q, q ≠ [] → u.item? (p ++ q) = none) : u.Keeps (w.clear p) := by
  have hsame {r : Place} {i : Item} (hr : u.item? r = some i) : (w.clear p).item? r = w.item? r := by
    rw [item?_clear, if_neg]
    rintro ⟨⟨q, rfl⟩, hne⟩
    rw [hempty q fun hq => hne (by rw [hq, List.append_nil])] at hr
    cases hr
  exact ⟨fun r hr => (hsame hr).trans (hk.dir r hr), fun r t hr => (hsame hr).trans (hk.link r t hr),
    fun r content hr => by rw [hsame hr]; exact hk.file r content hr,
    fun r t hr ht => hk.absent r t hr (of_item?_clear ht)⟩

/-- What a diff has written once it is done, and what it has written it to. -/
structure Finished (c : Config) (v u w : Volume) (baseline modified patchDir : Text) (b m p : Place) : Prop where
  prepared : Prepared c v baseline modified patchDir b p (patchesOf c v b m)
  compared : ∀ f ∈ filesAt v b, Compared v baseline modified b m f
  cleared : Disk.on v (clearDir patchDir) = (.ok (), u)
  empty : Filled u patchDir p fun _ => none
  stocks : Stocks p u w
  stocked : Stocked w patchDir p (restock (fun _ => none) (patchContents c (patchesOf c v b m)))
  reaches : ∀ e ∈ patchTexts c (patchesOf c v b m), Path.Plain e.1 ∧ Reaches patchDir e.1

theorem diff_finished (hv : v.Sound) (hn : Named v b) (hc : c.validate = .ok ())
    (hb : v.find .item baseline = .ok (b, .dir)) (hm : v.find .item modified = .ok (m, .dir))
    (hlink : ∀ q t, v.item? (m ++ q) ≠ some (.link t)) (hself : Leaves v patchDir patchDir)
    (h : Disk.on v (diff c baseline modified patchDir) = (.ok report, w)) :
    report = reportOf c v b m ∧ ∃ p u, Finished c v u w baseline modified patchDir b m p := by
  generalize hr : Except.ok report = r at h
  cases diff_cases h with
  | refused | uncleared => cases hr
  | @cleared b' p ps u r' hp hclear hwrite =>
    cases r' with
    | error => cases hr
    | ok =>
      obtain rfl : b = b' := (Prod.mk.inj (Except.ok.inj (hb.symm.trans hp.find))).1
      have hplain (f : Text) (hf : f ∈ filesAt v b) : Path.Plain f := ((mem_filesAt_iff hv hn).mp hf).1
      obtain ⟨-, hread, -⟩ := diffFiles_eq_ok hplain hp.patches
      have hcompared (f : Text) (hf : f ∈ filesAt v b) := (hread f hf).compared hv hn hb hm hlink hf
      obtain rfl : patchesOf c v b m = ps :=
        Except.ok.inj ((diffFiles_of_compared hv hb hm hcompared).symm.trans hp.patches)
      obtain ⟨hext, hslash⟩ := Config.validate_eq_ok hc
      have hnamed : ∀ e ∈ patchTexts c (patchesOf c v b m), Path.Plain e.1 := List.forall_mem_map.mpr fun e he =>
        (hplain e.1 (mem_filesAt_of_patch he)).patchFileName hext hslash
      have hfilled := hself.filled hv hp.place hclear
      obtain ⟨hstocked, hstocks, hreaches⟩ := hfilled.writeFiles hnamed hwrite
      rw [patchTexts, List.map_map] at hstocked
      refine ⟨?_, p, u, hp, hcompared, hclear, hfilled, hstocks, hstocked, fun e he => ⟨hnamed e he, hreaches e he⟩⟩
      cases hr
      exact (reportOf_eq c v b m).symm

variable (h : Finished c v u w baseline modified patchDir b m p)
include h

theorem Finished.names : ((patchContents c (patchesOf c v b m)).map (·.1)).Nodup := by
  have hnames : (patchContents c (patchesOf c v b m)).map (·.1) =
      ((patchesOf c v b m).map (·.1)).map (patchFileName c.patchExtension) := by
    rw [patchContents, List.map_map, List.map_map]
    rfl
  rw [hnames, map_patchesOf]
  exact (List.filter_sublist.map _).nodup (checkNames_eq_ok h.prepared.names).1

theorem Finished.holds_of_stocked
    (hs : Stocked x patchDir p (restock (fun _ => none) (patchContents c (patchesOf c v b m)))) :
    Holds x p (patchContents c (patchesOf c v b m)) := by
  have hplain : ∀ e ∈ patchContents c (patchesOf c v b m), Path.Plain e.1 := List.forall_mem_map.mpr fun e he =>
    (h.reaches _ (List.mem_map_of_mem he)).1
  have hperm := hs.filesAt_perm h.names hplain
  refine ⟨h.names, Text.sort_congr ((List.mergeSort_perm _ _).symm.trans hperm), fun e he => ?_⟩
  rw [hs.files, restock_of_mem h.names he]

/-- Everything apart from the patch directory is as it was. -/
theorem Finished.kept (hv : v.Sound) (hself : Leaves v patchDir patchDir) (ha : Apart p q) (r : Place) :
    w.file? (q ++ r) = v.file? (q ++ r) := by
  obtain ⟨hcleared, -⟩ := hself.cleared hv h.prepared.place h.cleared
  rw [h.stocks.file? ha, hcleared.around.file? (ha r)]

theorem Finished.apart {other : Text} (hother : other ∈ [baseline, modified])
    (hq : v.find .item other = .ok (q, .dir)) : Tree.apart p q = true := by
  obtain ⟨q', hq', hapart⟩ := h.prepared.apart other hother
  rw [canonical_of_find hq] at hq'
  cases hq'
  exact hapart

/-- A directory that is still found when the patch directory is cleared is found when the patches are written. -/
theorem Finished.find (hv : v.Sound) (hself : Leaves v patchDir patchDir) {path : Text}
    (hpath : Leaves v patchDir path) (hq : v.find .item path = .ok (q, .dir)) :
    w.find .item path = .ok (q, .dir) := by
  obtain ⟨-, hways⟩ := cleared_of_clearDir hv (find_ne_nil h.empty.find) hself.undisturbed h.prepared.place h.cleared
  exact h.stocks.find_dir (hways path q hq hpath.undisturbed)

/-- A diff that is run again finds everything as it was. -/
theorem Finished.prepared_again (hv : v.Sound) (hn : Named v b)
    (hm : v.find .item modified = .ok (m, .dir))
    (hself : Leaves v patchDir patchDir) (hbase : Leaves v patchDir baseline) (hmod : Leaves v patchDir modified) :
    Prepared c w baseline modified patchDir b p (patchesOf c v b m) ∧ filesAt w b = filesAt v b := by
  have hb := h.prepared.find
  have hbw := h.find hv hself hbase hb
  have hmw := h.find hv hself hmod hm
  have hab := h.apart List.mem_cons_self hb
  have ham := h.apart (List.mem_cons_of_mem _ List.mem_cons_self) hm
  have hkeptOld := h.kept hv hself (apart_of_apart hab)
  have hkeptNew := h.kept hv hself (apart_of_apart ham)
  have hlisted : filesAt w b = filesAt v b :=
    filesAt_congr hv h.stocked.sound hn (fun q c hc => hn q c (by rw [← hkeptOld, hc])) fun q _ => by rw [hkeptOld]
  have hpatches : diffFiles c w baseline modified (filesAt v b) = .ok (patchesOf c w b m) := by
    rw [diffFiles_of_compared h.stocked.sound hbw hmw fun f hf => (h.compared f hf).congr hkeptOld hkeptNew,
      patchesOf, hlisted]
  rw [(patchesOf_congr hlisted (fun f _ => hkeptOld _) fun f _ => hkeptNew _).1] at hpatches
  refine ⟨⟨hbw, canonical_of_find h.stocked.find, ?_, hlisted ▸ h.prepared.names, hlisted ▸ hpatches⟩, hlisted⟩
  rintro other hother
  rcases List.mem_pair.mp hother with rfl | rfl
  · exact ⟨b, canonical_of_find hbw, hab⟩
  · exact ⟨m, canonical_of_find hmw, ham⟩

/-- The patch directory can be cleared again, and then it is still found. -/
theorem Finished.filled_again (hv : v.Sound) (hself : Leaves v patchDir patchDir) :
    Filled (w.clear p) patchDir p fun _ => none := by
  obtain ⟨-, hempty⟩ := hself.cleared hv h.prepared.place h.cleared
  have hclear := clearDir_of_find h.stocked.find
  have hfind : (w.clear p).find .item patchDir = .ok (p, .dir) :=
    (keeps_clear h.stocks.keeps hempty).find_dir h.stocks.around.here h.empty.find
  have hleaves : Leaves w patchDir patchDir := by
    refine leaves_of_isDir ?_
    rw [hclear, isDir, hfind]
  exact hleaves.filled h.stocked.sound (canonical_of_find h.stocked.find) hclear

/-- There is room for the same patches. -/
theorem Finished.write_again (hv : v.Sound) (hself : Leaves v patchDir patchDir) :
    ∃ x, Disk.on (w.clear p) (writeFiles patchDir (patchTexts c (patchesOf c v b m))) = (.ok (), x) ∧
      Stocked x patchDir p (restock (fun _ => none) (patchContents c (patchesOf c v b m))) := by
  have hfilled := h.filled_again hv hself
  have hthere (e : Text × Text) (he : e ∈ patchTexts c (patchesOf c v b m)) :
      (w.file? (p ++ Path.parts e.1)).isSome := by
    obtain ⟨d, hd, rfl⟩ := List.mem_map.mp he
    rw [(h.holds_of_stocked h.stocked).file _ (List.mem_map_of_mem hd)]
    rfl
  obtain ⟨x, hwrite⟩ := hfilled.writeFiles_total (fun e he => (h.reaches e he).1) (fun e he => (h.reaches e he).2)
    (fun _ _ _ hr => nomatch hr) fun e he e' he' hpre =>
      parts_injective (eq_of_files h.stocked.sound (hthere e he) (hthere e' he') hpre)
  obtain ⟨hstocked, -, -⟩ := hfilled.writeFiles (fun e he => (h.reaches e he).1) hwrite
  rw [patchTexts, List.map_map] at hstocked
  exact ⟨x, hwrite, hstocked⟩

omit h

/-- A diff that succeeds leaves the patches between the two trees, each in a file of its own, and no other files.
They are told in the order of the files of the baseline, and the other files of the baseline are counted.  The
patches depend on nothing but the files of the baseline and those under the same paths in the other tree.  A diff
that is run again leaves the same, if both trees are still found when the patch directory is cleared. -/
theorem diff_leaves (hv : v.Sound) (hn : Named v b) (hc : c.validate = .ok ())
    (hb : v.find .item baseline = .ok (b, .dir)) (hm : v.find .item modified = .ok (m, .dir))
    (hlink : ∀ q t, v.item? (m ++ q) ≠ some (.link t)) (hself : Leaves v patchDir patchDir)
    (h : Disk.on v (diff c baseline modified patchDir) = (.ok report, w)) :
    (∀ f ∈ filesAt v b, (textAt v b f).isSome ∧ (textAt v m f).isSome) ∧ report = reportOf c v b m ∧
      (∀ w b' m', w.Sound → Named w b' → (∀ q, w.file? (b' ++ q) = v.file? (b ++ q)) →
        (∀ f ∈ filesAt v b, w.file? (m' ++ Path.parts f) = v.file? (m ++ Path.parts f)) →
        patchesOf c w b' m' = patchesOf c v b m ∧ reportOf c w b' m' = reportOf c v b m) ∧
      ∃ p, canonical v patchDir = .ok p ∧ w.find .item patchDir = .ok (p, .dir) ∧
        Holds w p (patchContents c (patchesOf c v b m)) ∧
        (Leaves v patchDir baseline → Leaves v patchDir modified →
          ∃ x, Disk.on w (diff c baseline modified patchDir) = (.ok report, x) ∧
            x.find .item patchDir = .ok (p, .dir) ∧ Holds x p (patchContents c (patchesOf c v b m))) := by
  obtain ⟨rfl, p, u, hdone⟩ := diff_finished hv hn hc hb hm hlink hself h
  refine ⟨fun f hf => ⟨(hdone.compared f hf).old, (hdone.compared f hf).new⟩, rfl,
    fun w b' m' hw hnw hbase hmod => ?_, p, hdone.prepared.place, hdone.stocked.find,
    hdone.holds_of_stocked hdone.stocked, fun hbase hmod => ?_⟩
  · exact patchesOf_congr (filesAt_congr hv hw hn hnw fun q _ => by rw [hbase]) (fun f _ => hbase _) hmod
  · obtain ⟨hprepared, hlisted⟩ := hdone.prepared_again hv hn hm hself hbase hmod
    obtain ⟨x, hwrite, hstocked⟩ := hdone.write_again hv hself
    have hdir : w.isDir modified = true := by rw [isDir, hdone.find hv hself hmod hm]
    have hapart := congrArg Prod.fst (on_ensureDisjoint hprepared.place hprepared.apart)
    refine ⟨x, ?_, hstocked.find, hdone.holds_of_stocked hstocked⟩
    rw [on_diff hdir hprepared.find hapart hprepared.names hprepared.patches
      (clearDir_of_find hdone.stocked.find), Disk.on_bind_of_ok hwrite, hlisted, reportOf_eq]
    rfl

/-- Two versions of a tree, one file of which is the same in both and one is new, and older patches. -/
def edited : Volume :=
  { Volume.empty with items :=
    [([['b']], .dir), ([['b'], ['f']], .file [49, 10]), ([['b'], ['g']], .file [51, 10]), ([['m']], .dir),
     ([['m'], ['f']], .file [50, 10]), ([['m'], ['g']], .file [51, 10]), ([['m'], ['h']], .file [52, 10]),
     ([['p']], .dir), ([['p'], ['o']], .file [120])] }

theorem filesAt_edited : filesAt edited [['b']] = [['f'], ['g']] := List.mergeSort_of_pairwise (by decide)

theorem diff_edited : ∃ w, Disk.on edited (diff {} ['b'] ['m'] ['p']) = (.ok ⟨["f.patch".toList], 1⟩, w) := by
  obtain ⟨q, hq, -⟩ := exists_ofTexts "patches/".toList ['f'] (by decide : "1\n".toList ≠ "2\n".toList)
  have hnone : FilePatch.ofTexts? "patches/".toList ['g'] "3\n".toList "3\n".toList = none := by
    have hmap := apply_ofTexts "patches/".toList ['g'] [] "3\n".toList "3\n".toList
    rwa [if_pos rfl, Option.map_eq_none_iff] at hmap
  have hps : diffFiles {} edited ['b'] ['m'] (filesAt edited [['b']]) = .ok [(['f'], q)] := by
    have hf : diffFile {} edited ['b'] ['m'] ['f'] = .ok (some q) := by
      rw [← hq]
      rfl
    have hg : diffFile {} edited ['b'] ['m'] ['g'] = .ok none := by
      rw [← hnone]
      rfl
    rw [filesAt_edited, diffFiles, hf, diffFiles, hg]
    rfl
  have hclear : Disk.on edited (clearDir ['p']) = (.ok (), edited.clear [['p']]) := clearDir_of_find rfl
  have hparent : Path.parent? (Path.join ['p'] "f.patch".toList) = some ['p'] := by decide +kernel
  have hmake : Disk.on (edited.clear [['p']]) (Disk.createDirAll ['p']) = (.ok (), edited.clear [['p']]) :=
    Disk.makeDirs_of_find rfl
  have hwrite : Disk.on (edited.clear [['p']]) (writeFiles ['p'] [("f.patch".toList, FilePatch.print [q])]) =
    (.ok (), _) := on_writeFiles_singleton hparent hmake rfl
  have hrun := on_diff rfl rfl rfl (by rw [filesAt_edited]; decide +kernel) hps hclear
  rw [filesAt_edited] at hrun
  exact ⟨_, hrun.trans (Disk.on_bind_of_ok hwrite)⟩

theorem diff_leaves_edited : edited.Sound ∧ Named edited [['b']] ∧ ({} : Config).validate = .ok () ∧
    edited.find .item ['b'] = .ok ([['b']], .dir) ∧ edited.find .item ['m'] = .ok ([['m']], .dir) ∧
    (∀ q t, edited.item? ([['m']] ++ q) ≠ some (.link t)) ∧ Leaves edited ['p'] ['p'] ∧
    Leaves edited ['p'] ['b'] ∧ Leaves edited ['p'] ['m'] ∧
    ∃ w, Disk.on edited (diff {} ['b'] ['m'] ['p']) = (.ok ⟨["f.patch".toList], 1⟩, w) ∧
      filesAt w [['p']] = ["f.patch".toList] ∧
      patchesOf {} (edited.put [['m'], ['h']] (.file [])) [['b']] [['m']] = patchesOf {} edited [['b']] [['m']] ∧
      ∃ x, Disk.on w (diff {} ['b'] ['m'] ['p']) = (.ok ⟨["f.patch".toList], 1⟩, x) ∧
        filesAt x [['p']] = ["f.patch".toList] := by
  have hv : edited.Sound := ⟨by decide, by decide, by decide⟩
  have hn : Named edited [['b']] := (named_of_items (by decide)).below _
  have hb : edited.find .item ['b'] = .ok ([['b']], .dir) := rfl
  have hm : edited.find .item ['m'] = .ok ([['m']], .dir) := rfl
  have hlink (q : Place) (t : Text) : edited.item? ([['m']] ++ q) ≠ some (.link t) := by
    intro hi
    have hmem := exists_mem_of_item? (by simp) hi
    simp [edited] at hmem
  have hleaves (path : Text) (hpath : (edited.clear [['p']]).isDir path = true) : Leaves edited ['p'] path :=
    leaves_of_isDir hpath
  obtain ⟨w, hrun⟩ := diff_edited
  obtain ⟨-, hreport, hsame, p, hp, hfind, hholds, hagain⟩ :=
    diff_leaves hv hn rfl hb hm hlink (hleaves _ rfl) hrun
  obtain rfl : [['p']] = p := Except.ok.inj hp
  obtain ⟨x, hrun', hfind', hholds'⟩ := hagain (hleaves _ rfl) (hleaves _ rfl)
  have hnames := congrArg DiffReport.written hreport
  refine ⟨hv, hn, rfl, hb, hm, hlink, hleaves _ rfl, hleaves _ rfl, hleaves _ rfl, w, hrun, ?_, ?_, x, hrun', ?_⟩
  · rw [hholds.listed]
    exact (congrArg Text.sort hnames.symm).trans (List.mergeSort_singleton _)
  · have hput : (edited.put [['m'], ['h']] (.file [])).Sound := hv.put (List.cons_ne_nil _ _) rfl (by decide) _
    have hother (r : Place) (hr : r ≠ [['m'], ['h']]) :
        (edited.put [['m'], ['h']] (.file [])).file? r = edited.file? r := by
      rw [file?_put (List.cons_ne_nil _ _), if_neg hr]
    refine (hsame _ [['b']] [['m']] hput (fun q c hc => hn q c ?_) (fun q => hother _ (by simp))
      fun f hf => hother _ ?_).1
    · rwa [hother _ (by simp)] at hc
    · rw [filesAt_edited] at hf
      revert f
      decide
  · rw [hholds'.listed]
    exact (congrArg Text.sort hnames.symm).trans (List.mergeSort_singleton _)

/-- Two versions of a file, a directory `B` that holds another one, and a path to it that runs through a link
inside `y/B`. -/
def misled : Volume :=
  { looped with items := looped.items ++
    [([['b']], .dir), ([['b'], ['f']], .file [49, 10]), ([['m']], .dir), ([['m'], ['f']], .file [50, 10])] }

/-- The path of the patch directory leads elsewhere once it has been cleared, to a directory that was not. -/
theorem diff_keeps_file : misled.Sound ∧ ({} : Config).validate = .ok () ∧
    (∀ q t, misled.item? ([['b']] ++ q) ≠ some (.link t) ∧ misled.item? ([['m']] ++ q) ≠ some (.link t)) ∧
    ∃ w, Disk.on misled (diff {} ['b'] ['m'] "y/B/l/../../../B".toList) = (.ok ⟨["f.patch".toList], 0⟩, w) ∧
      w.find .item "y/B/l/../../../B".toList = .ok ([['B']], .dir) ∧
      w.file? [['B'], ['f']] = some [49, 10] := by
  have hlink (name : Text) (hname : ∀ e ∈ misled.items, ∀ t, e.2 = .link t → e.1.head? ≠ some name)
      (q : Place) (t : Text) : misled.item? ([name] ++ q) ≠ some (.link t) := by
    intro hi
    exact hname _ (exists_mem_of_item? (by simp) hi) t rfl rfl
  obtain ⟨q, hq, -⟩ := exists_ofTexts "patches/".toList ['f'] (by decide : "1\n".toList ≠ "2\n".toList)
  have hfiles : filesAt misled [['b']] = [['f']] := by decide +kernel
  have hps : diffFiles {} misled ['b'] ['m'] (filesAt misled [['b']]) = .ok [(['f'], q)] := by
    have hf : diffFile {} misled ['b'] ['m'] ['f'] = .ok (some q) := by
      rw [← hq]
      rfl
    rw [hfiles, diffFiles, hf]
    rfl
  have hclear : Disk.on misled (clearDir "y/B/l/../../../B".toList) = (.ok (), misled.clear [['y'], ['B']]) :=
    clearDir_of_find (by decide +kernel)
  have hparent : Path.parent? (Path.join "y/B/l/../../../B".toList "f.patch".toList) =
    some "y/B/l/../../../B".toList := by decide +kernel
  have hmake : Disk.on (misled.clear [['y'], ['B']]) (Disk.createDirAll "y/B/l/../../../B".toList) =
    (.ok (), made (misled.clear [['y'], ['B']]) "y/B/l/../../../B".toList) := Prod.ext (by decide +kernel) rfl
  generalize hu : made (misled.clear [['y'], ['B']]) "y/B/l/../../../B".toList = u at hmake
  have hlocate : u.locate .file (Path.join "y/B/l/../../../B".toList "f.patch".toList) =
    .ok [['B'], "f.patch".toList] := by subst hu; decide +kernel
  have habsent : u.item? [['B'], "f.patch".toList] = none := by subst hu; decide +kernel
  have hwrite (content : Bytes) : Disk.on u (Disk.write
      (Path.join "y/B/l/../../../B".toList "f.patch".toList) content) =
        (.ok (), u.put [['B'], "f.patch".toList] (.file content)) := by
    simp only [Disk.on, ExceptT.run, Disk.write, Disk.change, Volume.write, hlocate, habsent]
    rfl
  have hkeeps (content : Bytes) : u.Keeps (u.put [['B'], "f.patch".toList] (.file content)) :=
    keeps_put (List.cons_ne_nil _ _) (by rw [habsent]; exact (Option.some_ne_none _).symm) fun t => by
      rw [habsent]
      exact (Option.some_ne_none _).symm
  have hrun := on_diff (by decide +kernel) (by decide +kernel) (by decide +kernel)
    (by rw [hfiles]; decide +kernel) hps hclear
  rw [hfiles] at hrun
  have hfind : u.find .item "y/B/l/../../../B".toList = .ok ([['B']], .dir) := by subst hu; decide +kernel
  have hfile : u.file? [['B'], ['f']] = some [49, 10] := by subst hu; decide +kernel
  refine ⟨⟨by decide, by decide, by decide⟩, rfl, fun q t => ⟨hlink _ ?_ q t, hlink _ ?_ q t⟩, _,
    hrun.trans (Disk.on_bind_of_ok (on_writeFiles_singleton hparent hmake (hwrite _))), (hkeeps _).find_dir rfl hfind, ?_⟩
  · simp [misled, looped]
  · simp [misled, looped]
  · rw [file?_put (List.cons_ne_nil _ _), if_neg (by decide), hfile]

end Patchwork.Tree
