import Patchwork.Proofs.Archive.Unpacking

/-!
# The files that extracting makes

What a filter takes of an archive, and where it is found below a directory that was empty before.
-/
namespace Patchwork

open Volume
open Patchwork.Tree (Stocked Reaches restock)
open Zip (Listed)

variable {u v w : Volume} {p : Place} {h : Handle} {f : FilterSet} {archive dir : Text}
  {files : Place → Option Bytes} {named : List (Text × Except Fault Bytes)}

/-! ### What is extracted -/

namespace Handle

/-- The entries that are extracted: the regular files that a filter accepts. -/
def taken (h : Handle) (f : FilterSet) : List Listed :=
  h.opened.filter fun e => e.kind = .file && f.accepts e.path

/-- What is read of the entries that are extracted. -/
def payloads (h : Handle) (v : Volume) (f : FilterSet) : List (Text × Except Fault Bytes) :=
  (h.taken f).map fun e => (e.path, (e.content (h.bytes v)).mapError (·.fault h.path))

/-- What is to be found at a place below the directory: the content of the last entry whose path leads there. -/
def laidOut (h : Handle) (v : Volume) (f : FilterSet) (q : Place) : Option Bytes :=
  ((h.taken f).reverse.find? fun e => Path.steps e.path = q).bind fun e =>
    (e.content (h.bytes v)).toOption

theorem selected_eq (h : Handle) (f : FilterSet) : h.selected f = (h.taken f).map (·.path) := by
  rw [selected, Handle.files, entries, taken, List.filter_map, List.filter_map, List.filter_map,
    List.filter_filter, List.map_map]
  refine congrArg _ (List.filter_congr fun e _ => ?_)
  exact Bool.and_comm _ _

theorem exists_find?_reverse {p : Listed → Bool} {es : List Listed} {e : Listed} (he : e ∈ es) (hp : p e = true) :
    ∃ x ∈ es, p x = true ∧ es.reverse.find? p = some x := by
  obtain ⟨x, hx⟩ := Option.isSome_iff_exists.mp (List.find?_isSome.mpr ⟨e, List.mem_reverse.mpr he, hp⟩)
  exact ⟨x, List.mem_reverse.mp (List.mem_of_find?_eq_some hx), List.find?_some hx, hx⟩

theorem entry?_of_nodup (hnodup : (h.opened.map (·.path)).Nodup) {e : Listed} (he : e ∈ h.opened) :
    h.entry? e.path = some e := by
  obtain ⟨x, hx, hpath, hfound⟩ :=
    exists_find?_reverse (p := fun x => decide (x.path = e.path)) he (decide_eq_true rfl)
  unfold entry?
  rw [hfound, List.inj_on_of_nodup_map hnodup hx he (of_decide_eq_true hpath)]

/-- What is read at the path of a file is the content of the entry that is found there. -/
theorem read_entry {path : Text} {e : Listed} (he : h.entry? (Entry.normalize path) = some e) (hfile : e.kind = .file) :
    h.read v path = (e.content (h.bytes v)).mapError (·.fault h.path) := by
  unfold Handle.read
  simp only [he, hfile, entryOf]
  cases e.content (h.bytes v) <;> rfl

/-- If no two entries have one path, each file is read at its own. -/
theorem payloads_eq (hnodup : (h.opened.map (·.path)).Nodup) :
    (h.selected f).map (fun path => (path, h.read v path)) = h.payloads v f := by
  rw [selected_eq, payloads, List.map_map]
  refine List.map_congr_left fun e he => ?_
  obtain ⟨hmem, hkept⟩ := List.mem_filter.mp he
  rw [Bool.and_eq_true, decide_eq_true_eq] at hkept
  have hpath : Entry.normalize e.path = e.path := Entry.normalize_normalize e.name
  have hfound : h.entry? (Entry.normalize e.path) = some e := by rw [hpath, entry?_of_nodup hnodup hmem]
  exact congrArg (Prod.mk e.path) (read_entry hfound hkept.1)

end Handle

/-! ### The files that are made -/

/-- The files that are made of what was read, under the paths that are followed. -/
def laid (named : List (Text × Except Fault Bytes)) : List (Text × Bytes) :=
  named.map fun e => (Path.ofParts (Path.steps e.1), e.2.toOption.getD [])

/-- A file that could be made: it was read, and its path leads strictly below the directory. -/
structure Landed (dir : Text) (e : Text × Except Fault Bytes) : Prop where
  plain : Path.Plain (Path.ofParts (Path.steps e.1))
  parts : Path.parts (Path.ofParts (Path.steps e.1)) = Path.steps e.1
  resolves : Path.resolve? dir e.1 = some (Path.join dir (Path.ofParts (Path.steps e.1)))
  reaches : Reaches dir (Path.ofParts (Path.steps e.1))
  read : ∃ c, e.2 = .ok c

theorem Tree.Stocked.layOut (hs : Stocked u dir p files)
    (hrun : Disk.on u (Archive.layOut archive dir named) = (.ok (), w)) :
    Stocked w dir p (restock files (laid named)) ∧ ∀ e ∈ named, Landed dir e := by
  induction named generalizing u files with
  | nil =>
    cases hrun
    exact ⟨hs, nofun⟩
  | cons e named ih =>
    obtain ⟨path, data⟩ := e
    rw [Archive.layOut] at hrun
    cases htarget : Path.resolve? dir path with
    | none =>
      rw [htarget] at hrun
      cases hrun
    | some target =>
      rw [htarget] at hrun
      obtain ⟨hplain, hparts, hresolve⟩ := Path.resolve?_eq_some htarget
      have htarget' := htarget
      rw [hresolve] at htarget
      cases htarget
      obtain ⟨c, x, hgiven, hrest⟩ := Disk.on_bind_eq_ok hrun
      obtain ⟨rfl, rfl⟩ := Disk.on_ofExcept_eq_ok hgiven
      obtain ⟨⟨⟩, y, hfile, hrest⟩ := Disk.on_bind_eq_ok hrest
      obtain ⟨z, hsz, -, hwrite⟩ := hs.makeParent (fun _ _ _ => Disk.on_io_eq_ok) hfile
      obtain ⟨hsy, -, hreaches⟩ := hsz.writePlain hplain (Disk.on_io_eq_ok hwrite)
      obtain ⟨hsw, hall⟩ := ih hsy hrest
      refine ⟨hsw, List.forall_mem_cons.mpr ⟨⟨hplain, hparts, htarget', hreaches, c, rfl⟩, hall⟩⟩

theorem restock_apply (files : Place → Option Bytes) (named : List (Text × Bytes)) (q : Place) :
    restock files named q =
      ((named.reverse.find? fun e => Path.parts e.1 = q).map (·.2)).or (files q) := by
  induction named generalizing files with
  | nil => rfl
  | cons e named ih =>
    obtain ⟨name, content⟩ := e
    rw [restock, ih, List.reverse_cons, List.find?_append, Function.update_apply]
    cases named.reverse.find? fun e => decide (Path.parts e.1 = q) with
    | some later => rfl
    | none =>
      by_cases hq : Path.parts name = q
      · simp [hq]
      · simp [hq, Ne.symm hq]

theorem content_of_landed {e : Listed}
    (hl : Landed dir (e.path, (e.content (h.bytes v)).mapError (·.fault h.path))) :
    ∃ c, e.content (h.bytes v) = .ok c := by
  obtain ⟨c, hc⟩ := hl.read
  cases hcontent : e.content (h.bytes v) with
  | ok c => exact ⟨c, rfl⟩
  | error failure =>
    rw [hcontent] at hc
    cases hc

/-- The files that are made are those that were to be found. -/
theorem restock_laid (hall : ∀ e ∈ h.payloads v f, Landed dir e) (q : Place) :
    restock (fun _ => none) (laid (h.payloads v f)) q = h.laidOut v f q := by
  have htaken (e : Listed) (he : e ∈ (h.taken f).reverse) :
      Path.parts (Path.ofParts (Path.steps e.path)) = Path.steps e.path ∧
        ∃ c, e.content (h.bytes v) = .ok c := by
    have hlanded := hall _ (List.mem_map_of_mem (List.mem_reverse.mp he))
    exact ⟨hlanded.parts, content_of_landed hlanded⟩
  rw [restock_apply, Option.or_none, laid, Handle.payloads, List.map_map, ← List.map_reverse, List.find?_map,
    Handle.laidOut]
  have hcongr : (h.taken f).reverse.find? ((fun e : Text × Bytes => decide (Path.parts e.1 = q)) ∘
      ((fun e => (Path.ofParts (Path.steps e.1), e.2.toOption.getD [])) ∘
        fun e => (e.path, (e.content (h.bytes v)).mapError (·.fault h.path)))) =
      (h.taken f).reverse.find? fun e => decide (Path.steps e.path = q) := by
    refine List.find?_congr fun e he => ?_
    simp only [Function.comp_apply, (htaken e he).1]
  rw [hcongr]
  cases hfound : (h.taken f).reverse.find? fun e => decide (Path.steps e.path = q) with
  | none => rfl
  | some e =>
    obtain ⟨-, c, hc⟩ := htaken e (List.mem_of_find?_eq_some hfound)
    simp [hc]
    rfl

theorem isSome_laidOut {e : Listed} (he : e ∈ h.taken f) (hall : ∀ e ∈ h.payloads v f, Landed dir e) :
    ∃ c, h.laidOut v f (Path.steps e.path) = some c := by
  obtain ⟨x, hx, -, hfound⟩ := Handle.exists_find?_reverse
    (p := fun x => decide (Path.steps x.path = Path.steps e.path)) he (decide_eq_true rfl)
  obtain ⟨c, hc⟩ := content_of_landed (hall _ (List.mem_map_of_mem hx))
  exact ⟨c, by rw [Handle.laidOut, hfound, Option.bind_some, hc]; rfl⟩

end Patchwork
