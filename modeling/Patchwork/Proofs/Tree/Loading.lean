import Patchwork.Proofs.Patch.Produced
import Patchwork.Proofs.Patch.ParsePrint
import Patchwork.Proofs.Tree.Diffing

/-!
# Loading what a diff left

The patches that a diff wrote are read back, in the order of their files, whatever the order in which their
own files are listed.
-/
namespace Patchwork

theorem FilePatch.parse_print_singleton {p : FilePatch} (hp : p.Printable) (origin : Text) :
    parse origin (print [p]) = .ok [p] := by
  have hall : ∀ q ∈ [p], q.Printable := fun q hq => (List.mem_singleton.mp hq) ▸ hp
  rw [parse, lines_print hall, readSections_flatMap_render hall]

namespace Tree

open Volume

variable {v w : Volume} {c d : Config} {patchDir name target : Text} {e : Text × FilePatch}
  {ps qs loaded : PatchSet} {names : List Text}

theorem PatchSet.insert_perm (target : Text) (p : FilePatch) (ps : PatchSet) :
    (ps.insert target p).Perm ((target, p) :: ps) := by
  induction ps with
  | nil => exact .refl _
  | cons q ps ih =>
    rw [PatchSet.insert]
    split
    · exact .refl _
    · exact (ih.cons q).trans (.swap _ _ _)

/-- A patch that can be read from a file of the patch directory. -/
structure Stored (w : Volume) (patchDir name : Text) (e : Text × FilePatch) : Prop where
  plain : Path.Plain e.1
  source : e.2.source = e.1
  printable : e.2.Printable
  read : w.readText (Path.join patchDir name) = .ok (FilePatch.print [e.2])

theorem Stored.parseFile (h : Stored w patchDir name e) :
    Disk.on w (Tree.parseFile (Path.join patchDir name)) = (.ok [e.2], w) := by
  rw [Tree.parseFile, Disk.on_ask, h.read]
  simp only [FilePatch.parse_print_singleton h.printable]

theorem Stored.addAll (h : Stored w patchDir name e) (hnew : e.1 ∉ loaded.map (·.1)) :
    loaded.addAll [] [e.2] = .ok (loaded.insert e.1 e.2) := by
  have hnone : loaded.any (·.1 = e.1) = false := by
    rw [List.any_eq_false]
    intro q hq he
    exact hnew (List.mem_map.mpr ⟨q, hq, by simpa using he⟩)
  rw [PatchSet.addAll, h.source, targetPath_plain h.plain, hnone]
  rfl

theorem loadFiles_eq (hd : d.beginnings = []) {name : Text × FilePatch → Text}
    (hqs : ∀ e ∈ qs, Stored w patchDir (name e) e) (hn : ((loaded ++ qs).map (·.1)).Nodup) :
    ∃ all, Disk.on w (loadFiles d patchDir loaded (qs.map name)) = (.ok all, w) ∧
      all.Perm (loaded ++ qs) := by
  induction qs generalizing loaded with
  | nil => exact ⟨loaded, rfl, by rw [List.append_nil]⟩
  | cons e qs ih =>
    have he := hqs e List.mem_cons_self
    have hnew : e.1 ∉ loaded.map (·.1) := by
      rw [List.map_append, List.map_cons] at hn
      intro hmem
      exact (List.nodup_append.mp hn).2.2 _ hmem _ List.mem_cons_self rfl
    have hperm : (loaded.insert e.1 e.2 ++ qs).Perm (loaded ++ e :: qs) :=
      ((PatchSet.insert_perm e.1 e.2 loaded).append_right qs).trans List.perm_middle.symm
    obtain ⟨all, hall, hp⟩ := ih (fun f hf => hqs f (List.mem_cons_of_mem _ hf))
      ((hperm.map _).nodup_iff.mpr hn)
    refine ⟨all, ?_, hp.trans hperm⟩
    rw [List.map_cons, loadFiles, Disk.on_bind, he.parseFile]
    simp only [hd]
    rw [if_neg (List.cons_ne_nil _ _), he.addAll hnew, Disk.on_bind]
    exact hall

theorem encode_injective {s t : Text} (h : Text.Utf8.encode s = Text.Utf8.encode t) : s = t := by
  have hdecode := congrArg Text.Utf8.decode? h
  rwa [Text.Utf8.decode?_encode, Text.Utf8.decode?_encode, Option.some.injEq] at hdecode

theorem readText_of_find {path : Text} {r : Place} {t : Text}
    (h : w.find .item path = .ok (r, .file (Text.Utf8.encode t))) : w.readText path = .ok t := by
  rw [readText, read_eq_ok_iff.mpr ⟨r, h⟩]
  simp only [Text.Utf8.decode?_encode]

theorem readText_eq_ok {path t : Text} (h : v.readText path = .ok t) :
    ∃ r, v.find .item path = .ok (r, .file (Text.Utf8.encode t)) := by
  unfold readText at h
  split at h
  · next content hread =>
    split at h
    · next t' hdecode =>
      cases h
      rw [Text.Utf8.encode_of_decode? hdecode]
      exact read_eq_ok_iff.mp hread
    · cases h
  · cases h

/-- The files fit into memory. -/
def Loadable (v : Volume) : Prop := ∀ q content, v.file? q = some content → content.length + 1 < UInt64.size

theorem loadable_of_items
    (h : ∀ e ∈ v.items, ∀ content, e.2 = .file content → content.length + 1 < UInt64.size) : Loadable v := by
  intro q content hq
  rw [file?_eq_some_iff] at hq
  have hne : q ≠ [] := by
    rintro rfl
    cases hq
  exact h _ (exists_mem_of_item? hne hq) content rfl

theorem Loadable.length (hv : Loadable v) {path t : Text} (h : v.readText path = .ok t) :
    t.length + 1 < UInt64.size := by
  obtain ⟨r, hr⟩ := readText_eq_ok h
  have hbytes := hv r _ (file?_eq_some_iff.mpr (find_eq_ok_iff.mp hr).2)
  have hle := Text.Utf8.length_le_encode t
  omega

variable {b p : Place} {baseline modified : Text}

theorem Diffed.mem_filesAt (h : Diffed c v w baseline modified patchDir b p ps) (he : e ∈ ps) :
    e.1 ∈ filesAt v b := h.sublist.subset (List.mem_map_of_mem he)

theorem Diffed.restock (h : Diffed c v w baseline modified patchDir b p ps) (he : e ∈ ps) :
    w.file? (p ++ Path.parts (patchFileName c.patchExtension e.1)) =
      some (Text.Utf8.encode (FilePatch.print [e.2])) := by
  rw [h.stocked.files]
  refine restock_of_mem ?_ (List.mem_map_of_mem he)
  rw [patchContents, List.map_map]
  exact h.names

theorem Diffed.stored (h : Diffed c v w baseline modified patchDir b p ps) (hv : v.Sound)
    (hn : Named v b) (hc : c.validate = .ok ()) (hl : Loadable v)
    (hp : ∀ f ∈ filesAt v b, Header.Printable f ∧ Header.Printable (c.patchLabel ++ f)) :
    ∀ e ∈ ps, Stored w patchDir (patchFileName c.patchExtension e.1) e := by
  intro e he
  obtain ⟨hf, old, new, hold, hnew, hpatch⟩ := (h.mem e.1 e.2).mp he
  obtain ⟨hprint, hlabel⟩ := hp e.1 hf
  obtain ⟨hext, hslash⟩ := Config.validate_eq_ok hc
  have hplain := ((mem_filesAt_iff hv hn).mp hf).1
  refine ⟨hplain, FilePatch.source_ofTexts hpatch,
    FilePatch.printable_ofTexts (hl.length hold) (hl.length hnew) hprint hlabel hpatch, ?_⟩
  exact readText_of_find (find_reaches h.stocked.sound h.stocked.find (hplain.patchFileName hext hslash)
    (h.restock he) (h.reaches e he))

/-- A directory holds the files that were written there, and no other. -/
theorem Stocked.filesAt_perm {dir : Text} {files : List (Text × Bytes)}
    (h : Stocked w dir p (restock (fun _ => none) files)) (hd : (files.map (·.1)).Nodup)
    (hplain : ∀ e ∈ files, Path.Plain e.1) : (filesAt w p).Perm (files.map (·.1)) := by
  have hwritten (q : Place) (content : Bytes) (hq : w.file? (p ++ q) = some content) :
      ∃ e ∈ files, q = Path.parts e.1 := by
    by_contra hnone
    rw [h.files, restock_of_not_mem fun e he heq => hnone ⟨e, he, heq.symm⟩] at hq
    cases hq
  have hnamed : Named w p := by
    intro q content hq
    obtain ⟨e, he, rfl⟩ := hwritten q content hq
    exact hplain e he
  refine (List.perm_ext_iff_of_nodup (nodup_filesAt h.sound hnamed) hd).mpr fun f => ?_
  rw [mem_filesAt_iff h.sound hnamed, List.mem_map]
  constructor
  · rintro ⟨-, hsome⟩
    obtain ⟨content, hf⟩ := Option.isSome_iff_exists.mp hsome
    obtain ⟨e, he, hparts⟩ := hwritten _ content hf
    exact ⟨e, he, (parts_injective hparts).symm⟩
  · rintro ⟨e, he, rfl⟩
    exact ⟨hplain e he, by rw [h.files, restock_of_mem hd he]; rfl⟩

/-- The patch directory holds the files that were written there, and no other. -/
theorem Diffed.files (h : Diffed c v w baseline modified patchDir b p ps) (hv : v.Sound)
    (hn : Named v b) (hc : c.validate = .ok ()) :
    (filesAt w p).Perm (ps.map fun e => patchFileName c.patchExtension e.1) := by
  obtain ⟨hext, hslash⟩ := Config.validate_eq_ok hc
  have hnames : (patchContents c ps).map (·.1) = ps.map fun e => patchFileName c.patchExtension e.1 := by
    rw [patchContents, List.map_map]
    rfl
  have hperm := h.stocked.filesAt_perm (hnames ▸ h.names) (List.forall_mem_map.mpr fun e he =>
    ((mem_filesAt_iff hv hn).mp (h.mem_filesAt he)).1.patchFileName hext hslash)
  rwa [hnames] at hperm

/-- Loading gives the patches that were made. -/
theorem Diffed.loadPatches (h : Diffed c v w baseline modified patchDir b p ps) (hv : v.Sound)
    (hn : Named v b) (hc : c.validate = .ok ()) (hd : d.beginnings = []) (hl : Loadable v)
    (hp : ∀ f ∈ filesAt v b, Header.Printable f ∧ Header.Printable (c.patchLabel ++ f)) :
    ∃ all, Disk.on w (Tree.loadPatches d patchDir) = (.ok all, w) ∧ all.Perm ps := by
  obtain ⟨qs, hqs, hperm⟩ := (congrFun₂ (List.eq_map_comp_perm fun e =>
    patchFileName c.patchExtension e.1) (filesAt w p) ps).mpr (h.files hv hn hc)
  have hstored := h.stored hv hn hc hl hp
  have hnodup : ((([] : PatchSet) ++ qs).map (·.1)).Nodup :=
    (hperm.map _).nodup_iff.mpr (h.sublist.nodup (nodup_filesAt hv hn))
  obtain ⟨all, hall, hallperm⟩ :=
    loadFiles_eq hd (fun e he => hstored e (hperm.mem_iff.mp he)) hnodup
  refine ⟨all, ?_, hallperm.trans hperm⟩
  rw [Tree.loadPatches, Disk.on_bind, on_listFiles h.stocked.find]
  simp only at hqs ⊢
  rw [hqs, hall]

end Tree

end Patchwork
