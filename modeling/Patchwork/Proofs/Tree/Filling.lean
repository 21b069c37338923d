import Patchwork.Proofs.Tree.Listing
import Patchwork.Tree.Diff

/-!
# Writing many files

What a directory holds after files were written below it one after the other.
-/
namespace Patchwork.Tree

open Volume

variable {v w : Volume} {p b q : Place} {dir source root : Text} {files : Place → Option Bytes}

/-- The files of a directory after some more were written, one after the other. -/
def restock (files : Place → Option Bytes) : List (Text × Bytes) → Place → Option Bytes
  | [] => files
  | (name, content) :: rest =>
    restock (Function.update files (Path.parts name) (some content)) rest

theorem restock_of_not_mem {named : List (Text × Bytes)}
    (h : ∀ e ∈ named, Path.parts e.1 ≠ q) : restock files named q = files q := by
  induction named generalizing files with
  | nil => rfl
  | cons e named ih =>
    have hne : q ≠ Path.parts e.1 := fun he => h e List.mem_cons_self he.symm
    rw [restock, ih fun f hf => h f (List.mem_cons_of_mem _ hf), Function.update_of_ne hne]

theorem parts_injective {s t : Text} (h : Path.parts s = Path.parts t) : s = t := by
  rw [← Path.ofParts_parts s, ← Path.ofParts_parts t, h]

/-- A place holds what is written there, if that is always the same. -/
theorem restock_eq_some {named : List (Text × Bytes)} {c : Bytes}
    (hthere : ∃ e ∈ named, Path.parts e.1 = q) (hall : ∀ e ∈ named, Path.parts e.1 = q → e.2 = c) :
    restock files named q = some c := by
  induction named generalizing files with
  | nil =>
    obtain ⟨e, he, -⟩ := hthere
    cases he
  | cons first named ih =>
    rw [restock]
    by_cases hlater : ∃ e ∈ named, Path.parts e.1 = q
    · exact ih hlater fun e he => hall e (List.mem_cons_of_mem _ he)
    · obtain ⟨e, he, hparts⟩ := hthere
      rcases List.mem_cons.mp he with rfl | he
      · rw [restock_of_not_mem fun f hf hq => hlater ⟨f, hf, hq⟩, hparts, Function.update_self,
          hall e List.mem_cons_self hparts]
      · exact absurd ⟨e, he, hparts⟩ hlater

theorem restock_of_mem {named : List (Text × Bytes)} (hn : (named.map (·.1)).Nodup) {name : Text}
    {c : Bytes} (h : (name, c) ∈ named) : restock files named (Path.parts name) = some c := by
  refine restock_eq_some ⟨_, h, rfl⟩ fun e he hparts => ?_
  rw [List.inj_on_of_nodup_map hn he h (parts_injective hparts)]

theorem on_listFiles (h : v.find .item root = .ok (p, .dir)) :
    Disk.on v (listFiles root) = (.ok (filesAt v p), v) := by
  rw [listFiles, Disk.on_ask, h]

theorem listFiles_eq_ok {fs : List Text} (h : Disk.on v (listFiles root) = (.ok fs, w)) :
    w = v ∧ ∃ p, v.find .item root = .ok (p, .dir) ∧ fs = filesAt v p := by
  rw [listFiles, Disk.on_ask] at h
  split at h
  · next p hf =>
    cases h
    exact ⟨rfl, p, hf, rfl⟩
  · cases h

/-- A path below a directory that can be followed, being short enough. -/
structure Reaches (dir name : Text) : Prop where
  usable : Usable (Path.join dir name)
  short : Short (Path.parts name)

instance (dir name : Text) : Decidable (Reaches dir name) :=
  decidable_of_iff (Usable (Path.join dir name) ∧ Short (Path.parts name))
    ⟨fun h => ⟨h.1, h.2⟩, fun h => ⟨h.usable, h.short⟩⟩

theorem Stocked.writePlain (hs : Stocked v dir p files) {name : Text} {c : Bytes}
    (hn : Path.Plain name) (hrun : Disk.on v (Disk.write (Path.join dir name) c) = (.ok (), w)) :
    Stocked w dir p (Function.update files (Path.parts name) (some c)) ∧ Stocks p v w ∧
      Reaches dir name := by
  have hparts := Path.ofParts_parts name
  rw [← hparts] at hrun
  obtain ⟨hsw, hw, hfind⟩ := hs.write hn (Path.parts_ne_nil name) hrun
  obtain ⟨-, husable, hshort⟩ := locate_join_eq_ok hsw.find hn (Path.parts_ne_nil name)
    (hsw.noLinkTo _) (find_eq_ok_iff.mp hfind).1
  rw [hparts] at husable
  exact ⟨hsw, hw, husable, hshort⟩

theorem Stocked.writeFiles {named : List (Text × Text)} (hs : Stocked v dir p files)
    (hn : ∀ e ∈ named, Path.Plain e.1)
    (hrun : Disk.on v (Tree.writeFiles dir named) = (.ok (), w)) :
    Stocked w dir p (restock files (named.map fun e => (e.1, Text.Utf8.encode e.2))) ∧
      Stocks p v w ∧ ∀ e ∈ named, Reaches dir e.1 := by
  induction named generalizing v files with
  | nil =>
    cases hrun
    exact ⟨hs, .refl p _, nofun⟩
  | cons e named ih =>
    obtain ⟨name, text⟩ := e
    rw [Tree.writeFiles] at hrun
    obtain ⟨u, hsu, hvu, hrest⟩ := hs.makeParent (fun _ _ _ => Disk.on_naming_eq_ok) hrun
    obtain ⟨⟨⟩, u', hwrite, hrest⟩ := Disk.on_bind_eq_ok hrest
    obtain ⟨hsu', huu', hreaches⟩ :=
      hsu.writePlain (hn _ List.mem_cons_self) (Disk.on_naming_eq_ok hwrite)
    obtain ⟨hsw, hw, hall⟩ := ih hsu' (fun e he => hn e (List.mem_cons_of_mem _ he)) hrest
    exact ⟨hsw, (hvu.trans huu').trans hw, List.forall_mem_cons.mpr ⟨hreaches, hall⟩⟩

theorem on_writeFiles_singleton {u : Volume} {name text above : Text}
    (hparent : Path.parent? (Path.join dir name) = some above)
    (hmake : Disk.on v (Disk.createDirAll above) = (.ok (), u))
    (hwrite : Disk.on u (Disk.write (Path.join dir name) (Text.Utf8.encode text)) = (.ok (), w)) :
    Disk.on v (Tree.writeFiles dir [(name, text)]) = (.ok (), w) := by
  simp only [Tree.writeFiles, hparent]
  rw [Disk.on_bind_of_ok (Disk.on_naming_of_ok hmake), Disk.on_bind_of_ok (Disk.on_naming_of_ok hwrite)]
  rfl

theorem read_eq_ok_iff {path : Text} {c : Bytes} :
    v.read path = .ok c ↔ ∃ r, v.find .item path = .ok (r, .file c) := by
  unfold Volume.read openFile
  constructor
  · intro h
    split at h
    · next r content hf =>
      cases h
      exact ⟨r, hf⟩
    · cases h
    · cases h
  · rintro ⟨r, hf⟩
    rw [hf]
    rfl

/-- A file that stands in a directory is what is read there. -/
theorem find_plain (hv : v.Sound) {base f : Text} {aim : Aim} (hb : v.find .item base = .ok (b, .dir))
    (hf : Path.Plain f) {c : Bytes} (hc : v.file? (b ++ Path.parts f) = some c) {r : Place} {i : Item}
    (h : v.find aim (Path.join base f) = .ok (r, i)) :
    r = b ++ Path.parts f ∧ i = .file c ∧ Reaches base f := by
  obtain ⟨hl, hi⟩ := find_eq_ok_iff.mp h
  have hitem := file?_eq_some_iff.mp hc
  rw [← Path.ofParts_parts f] at hl
  obtain ⟨rfl, hu, hshort⟩ := locate_join_eq_ok hb hf (Path.parts_ne_nil f)
    (noLinkTo_of_item? hv hitem nofun) hl
  rw [Path.ofParts_parts] at hu
  rw [hitem] at hi
  cases hi
  exact ⟨rfl, rfl, ⟨hu, hshort⟩⟩

theorem find_reaches (hv : v.Sound) {base f : Text} {aim : Aim}
    (hb : v.find .item base = .ok (b, .dir)) (hf : Path.Plain f) {c : Bytes}
    (hc : v.file? (b ++ Path.parts f) = some c) (hr : Reaches base f) :
    v.find aim (Path.join base f) = .ok (b ++ Path.parts f, .file c) := by
  have hu := hr.usable
  rw [← Path.ofParts_parts f] at hu
  have hfind : v.find aim _ = _ := find_join hv hb hf (Path.parts_ne_nil f) hu hr.short
    (file?_eq_some_iff.mp hc) nofun
  rwa [Path.ofParts_parts f] at hfind

/-- Two directories of which neither is inside the other. -/
def Apart (p b : Place) : Prop := ∀ q, ¬ p <+: b ++ q

theorem apart_of_apart (h : apart p b = true) : Apart p b := by
  rintro q hpre
  rw [apart, Bool.not_eq_true', Bool.or_eq_false_iff] at h
  rcases List.prefix_or_prefix_of_prefix hpre (List.prefix_append b q) with hpb | hbp
  · rw [List.isPrefixOf_iff_prefix.mpr hpb] at h
    exact absurd h.1 nofun
  · rw [List.isPrefixOf_iff_prefix.mpr hbp] at h
    exact absurd h.2 nofun

theorem apart_of_canonical {path : Text} (hb : canonical v path = .ok b)
    (h : ∃ q, canonical v path = .ok q ∧ apart p q = true) : Apart p b := by
  obtain ⟨q, hq, hap⟩ := h
  rw [hb] at hq
  cases hq
  exact apart_of_apart hap

theorem Stocks.file? (h : Stocks p v w) (ha : Apart p b) (q : Place) :
    w.file? (b ++ q) = v.file? (b ++ q) := h.around.file? (ha q)

theorem Stocks.find_dir (h : Stocks p v w) {path : Text} (hf : v.find .item path = .ok (b, .dir)) :
    w.find .item path = .ok (b, .dir) := h.keeps.find_dir h.around.here hf

theorem copyFile_eq_ok {source target : Text} (h : Disk.on v (copyFile source target) = (.ok (), w)) :
    ∃ u c, Disk.on v (Disk.write target []) = (.ok (), u) ∧ u.read source = .ok c ∧
      Disk.on u (Disk.write target c) = (.ok (), w) := by
  obtain ⟨c, u, hread, h⟩ := Disk.on_bind_eq_ok h
  obtain ⟨⟨⟩, u', hempty, h⟩ := Disk.on_bind_eq_ok h
  obtain ⟨c', u'', hread', hwrite⟩ := Disk.on_bind_eq_ok h
  rw [Disk.read, Disk.on_ask] at hread hread'
  obtain ⟨-, rfl⟩ := Prod.mk.inj hread
  obtain ⟨hc, rfl⟩ := Prod.mk.inj hread'
  exact ⟨u', c', hempty, hc, hwrite⟩

/-- The files of a directory, with what they hold. -/
def contents (v : Volume) (b : Place) (fs : List Text) : List (Text × Bytes) :=
  fs.map fun f => (f, (v.file? (b ++ Path.parts f)).getD [])

theorem contents_congr {fs : List Text} (h : ∀ q, w.file? (b ++ q) = v.file? (b ++ q)) :
    contents w b fs = contents v b fs := by
  unfold contents
  refine List.map_congr_left fun f _ => ?_
  rw [h]

theorem Stocked.copyFiles {base : Text} {fs : List Text} (hs : Stocked v dir p files)
    (hb : v.find .item base = .ok (b, .dir)) (ha : Apart p b)
    (hfs : ∀ f ∈ fs, Path.Plain f ∧ (v.file? (b ++ Path.parts f)).isSome)
    (hrun : Disk.on v (Tree.copyFiles base dir fs) = (.ok (), w)) :
    Stocked w dir p (restock files (contents v b fs)) ∧ Stocks p v w ∧
      ∀ f ∈ fs, Reaches base f ∧ Reaches dir f := by
  induction fs generalizing v files with
  | nil =>
    cases hrun
    exact ⟨hs, .refl p _, nofun⟩
  | cons f fs ih =>
    rw [Tree.copyFiles] at hrun
    obtain ⟨hplain, hsome⟩ := hfs f List.mem_cons_self
    obtain ⟨c, hc⟩ := Option.isSome_iff_exists.mp hsome
    obtain ⟨u, hsu, hvu, hrest⟩ := hs.makeParent (fun _ _ _ => Disk.on_io_eq_ok) hrun
    obtain ⟨⟨⟩, u', hcopy, hrest⟩ := Disk.on_bind_eq_ok hrest
    obtain ⟨y, d, hempty, hread, hwrite⟩ := copyFile_eq_ok (Disk.on_io_eq_ok hcopy)
    obtain ⟨hsy, huy, _⟩ := hsu.writePlain hplain hempty
    obtain ⟨hsu', hyu', hreaches⟩ := hsy.writePlain hplain hwrite
    obtain ⟨r, hr⟩ := read_eq_ok_iff.mp hread
    have hvy := hvu.trans huy
    have hcy : y.file? (b ++ Path.parts f) = some c := by rw [hvy.file? ha, hc]
    obtain ⟨-, hi, hbase⟩ := find_plain hsy.sound (hvy.find_dir hb) hplain hcy hr
    have hdc : d = c := Item.file.inj hi
    have hvu' := hvy.trans hyu'
    have hfs' (g : Text) (hg : g ∈ fs) :
        Path.Plain g ∧ (u'.file? (b ++ Path.parts g)).isSome := by
      rw [hvu'.file? ha]
      exact hfs g (List.mem_cons_of_mem _ hg)
    obtain ⟨hsw, huw, hall⟩ := ih hsu' (hvu'.find_dir hb) hfs' hrest
    rw [contents_congr fun q => hvu'.file? ha q, Function.update_idem, hdc] at hsw
    rw [contents, List.map_cons, restock, hc]
    exact ⟨hsw, hvu'.trans huw, List.forall_mem_cons.mpr ⟨⟨hbase, hreaches⟩, hall⟩⟩

end Patchwork.Tree
