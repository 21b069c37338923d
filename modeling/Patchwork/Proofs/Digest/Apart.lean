import Patchwork.Proofs.Digest.Gate
import Patchwork.Proofs.Tree.Linkless

/-!
# Records that keep apart

The records of several contents keep clear of one another and of the contents, whichever of the directories above them
are made.  In a directory without links they do so as soon as their names are apart.
-/
namespace Patchwork.Gate

open Volume Disk Patchwork.Tree

variable {v : Volume} {p q : Place} {dir : Text} {o : Text × Text} {pairs names : List (Text × Text)} {rs : List Text}
  {files : Place → Option Bytes}

/-- The volume once the directories above some records have been made, or some of them. -/
def made (v : Volume) (rs : List Text) : Volume := rs.foldl dirsMade v

/-- A walk along a path does not look at the place that a record has the name of. -/
def Clear (v : Volume) (record path : Text) : Prop := ∀ q, v.locate .entry record = .ok q → ¬ v.Comes path q

/-- The records have different paths, and each is a file or nothing.  Whichever of the directories above them are made,
this brings nothing to light where a content could not be read or at a record, and no content and no other record is
looked for at the place of a record, or through it. -/
structure Apart (v : Volume) (pairs : List (Text × Text)) : Prop where
  nodup : (pairs.map (·.2)).Nodup
  file : ∀ o ∈ pairs, FileOrNone v o.2
  unread : ∀ rs ⊆ pairs.map (·.2), ∀ o ∈ pairs, ∀ bytes, (made v rs).read o.1 = .ok bytes → v.read o.1 = .ok bytes
  hidden : ∀ rs ⊆ pairs.map (·.2), ∀ o ∈ pairs, (made v rs).read o.2 = v.read o.2
  contents : ∀ rs ⊆ pairs.map (·.2), ∀ t ∈ pairs, ∀ o ∈ pairs, Clear (made v rs) t.2 o.1
  records : ∀ rs ⊆ pairs.map (·.2), ∀ t ∈ pairs, ∀ o ∈ pairs, t.2 ≠ o.2 → Clear (made v rs) t.2 o.2

theorem grows_made (v : Volume) (rs : List Text) : Grows v (made v rs) := by
  induction rs generalizing v with
  | nil => exact .refl v
  | cons r rs ih => exact (grows_dirsMade v r).trans (ih _)

theorem made_concat (v : Volume) (rs : List Text) (record : Text) :
    made v (rs ++ [record]) = dirsMade (made v rs) record := List.foldl_concat ..

theorem Apart.perm {others : List (Text × Text)} (ha : Apart v pairs) (h : others.Perm pairs) : Apart v others := by
  have hrecords {rs : List Text} (hrs : rs ⊆ others.map (·.2)) : rs ⊆ pairs.map (·.2) :=
    fun r hr => (h.map _).subset (hrs hr)
  exact {
    nodup := (h.map _).nodup_iff.mpr ha.nodup
    file := fun o ho => ha.file o (h.subset ho)
    unread := fun rs hrs o ho => ha.unread rs (hrecords hrs) o (h.subset ho)
    hidden := fun rs hrs o ho => ha.hidden rs (hrecords hrs) o (h.subset ho)
    contents := fun rs hrs t ht o ho => ha.contents rs (hrecords hrs) t (h.subset ht) o (h.subset ho)
    records := fun rs hrs t ht o ho => ha.records rs (hrecords hrs) t (h.subset ht) o (h.subset ho) }

/-- Making directories changes nothing about what can be read of a content. -/
theorem Apart.digest? (ha : Apart v pairs) (hrs : rs ⊆ pairs.map (·.2)) (ho : o ∈ pairs) :
    digest? (made v rs) o.1 = digest? v o.1 := by
  unfold Gate.digest?
  cases hv : v.read o.1 with
  | ok bytes => rw [(grows_made v rs).read hv]
  | error e =>
    cases hm : (made v rs).read o.1 with
    | ok bytes =>
      rw [ha.unread rs hrs o ho bytes hm] at hv
      cases hv
    | error e' => rfl

/-! ### Names that are apart -/

/-- The records have different names, and none of these is the name of a content or of another record, or above one. -/
structure Spread (names : List (Text × Text)) : Prop where
  plain : ∀ o ∈ names, Path.Plain o.1 ∧ Path.Plain o.2
  nodup : (names.map (·.2)).Nodup
  contents : ∀ t ∈ names, ∀ o ∈ names, ¬ Path.parts t.2 <+: Path.parts o.1
  records : ∀ t ∈ names, ∀ o ∈ names, t.2 ≠ o.2 → ¬ Path.parts t.2 <+: Path.parts o.2

/-- The paths of a content and a record in a directory. -/
def inside (dir : Text) (o : Text × Text) : Text × Text := (Path.join dir o.1, Path.join dir o.2)

theorem stocked_made (hs : Stocked v dir p files) (rs : List Text) : Stocked (made v rs) dir p files := by
  induction rs generalizing v with
  | nil => exact hs
  | cons r rs ih => exact ih (hs.grow (grows_dirsMade v r) (onlyDirs_createDirAll _ v))

/-- No directory is made at a place that is not above that of a record. -/
theorem item?_made (hs : Stocked v dir p files)
    (hrs : ∀ r ∈ rs, ∃ f, Path.Plain f ∧ r = Path.join dir f ∧ ¬ q <+: (Path.parts f).dropLast) :
    (made v rs).item? (p ++ q) = v.item? (p ++ q) := by
  induction rs generalizing v with
  | nil => rfl
  | cons r rs ih =>
    obtain ⟨f, hf, rfl, hq⟩ := hrs _ List.mem_cons_self
    have honly := onlyOnWay_dirsMade hs hf (p ++ q) fun s hsf he => hq (List.append_cancel_left he ▸ hsf)
    rw [← honly]
    exact ih (stocked_made hs [_]) fun r hr => hrs r (List.mem_cons_of_mem _ hr)

section

variable (hspread : Spread names) (hs : Stocked v dir p files)
  (hreach : ∀ o ∈ names, Reaches dir o.1 ∧ Reaches dir o.2) (hfile : ∀ o ∈ names, FileOrNone v (Path.join dir o.2))
  (hrs : ∀ r ∈ rs, ∃ o ∈ names, r = Path.join dir o.2) {o t : Text × Text} {f : Text}
include hspread hs hreach

theorem Spread.unread (ho : o ∈ names) {bytes : Bytes} (h : (made v rs).read (Path.join dir o.1) = .ok bytes) :
    v.read (Path.join dir o.1) = .ok bytes := by
  have hplain := (hspread.plain o ho).1
  rw [(stocked_made hs rs).read_eq_ok_iff hplain (hreach o ho).1] at h
  exact (hs.read_eq_ok_iff hplain (hreach o ho).1).mpr h

include hfile hrs

theorem Spread.hidden (ho : o ∈ names) : (made v rs).read (Path.join dir o.2) = v.read (Path.join dir o.2) := by
  have hplain := (hspread.plain o ho).2
  rcases hfile o ho with ⟨c, hc⟩ | hnone
  · rw [hc]
    exact (grows_made v rs).read hc
  · obtain ⟨hitem, hfree⟩ := (hs.read_eq_noEntry_iff hplain (hreach o ho).2).mp hnone
    rw [hnone, (stocked_made hs rs).read_eq_noEntry_iff hplain (hreach o ho).2]
    refine ⟨?_, hfree⟩
    rw [item?_made hs fun r hr => ?_, hitem]
    obtain ⟨t, ht, rfl⟩ := hrs r hr
    refine ⟨t.2, (hspread.plain t ht).2, rfl, fun habove => ?_⟩
    by_cases hsame : o.2 = t.2
    · have hlen := habove.length_le
      have hpos := List.length_pos_iff.mpr (Path.parts_ne_nil t.2)
      rw [hsame, List.length_dropLast] at hlen
      omega
    · exact hspread.records o ho t ht hsame (habove.trans (List.dropLast_prefix _))

/-- A walk that comes to the place of a record leads through it, since neither a directory nor a link stands there. -/
theorem Spread.clear (ht : t ∈ names) (hf : Path.Plain f) (hnot : ¬ Path.parts t.2 <+: Path.parts f) :
    Clear (made v rs) (Path.join dir t.2) (Path.join dir f) := by
  intro q hq hcomes
  have hsm := stocked_made hs rs
  have hnone : FileOrNone (made v rs) (Path.join dir t.2) := by
    rw [FileOrNone, hspread.hidden hs hreach hfile hrs ht]
    exact hfile t ht
  obtain rfl := hsm.locate_plain (hspread.plain t ht).2 hq
  rcases hsm.comes hf hcomes with hdir | habove
  · exact not_dir_of_entry hnone hq hdir
  · exact hnot habove

end

/-- In a directory without links the records keep apart if their names do. -/
theorem Spread.apart (hspread : Spread names) (hs : Stocked v dir p files)
    (hreach : ∀ o ∈ names, Reaches dir o.1 ∧ Reaches dir o.2)
    (hfile : ∀ o ∈ names, FileOrNone v (Path.join dir o.2)) : Apart v (names.map (inside dir)) := by
  have hnamed {rs : List Text} (hrs : rs ⊆ (names.map (inside dir)).map (·.2)) (r : Text) (hr : r ∈ rs) :
      ∃ o ∈ names, r = Path.join dir o.2 := by
    obtain ⟨_, hmem, rfl⟩ := List.mem_map.mp (hrs hr)
    obtain ⟨o, ho, rfl⟩ := List.mem_map.mp hmem
    exact ⟨o, ho, rfl⟩
  exact {
    nodup := by
      have hrecords : (names.map (inside dir)).map (·.2) = (names.map (·.2)).map (Path.join dir) := by simp [inside]
      rw [hrecords]
      refine hspread.nodup.map_on fun f hf g hg he => ?_
      obtain ⟨o, ho, rfl⟩ := List.mem_map.mp hf
      obtain ⟨t, ht, rfl⟩ := List.mem_map.mp hg
      exact (hspread.plain o ho).2.join_injective (hspread.plain t ht).2 he
    file := List.forall_mem_map.mpr hfile
    unread := fun _ _ => List.forall_mem_map.mpr fun _ ho _ => hspread.unread hs hreach ho
    hidden := fun _ hrs => List.forall_mem_map.mpr fun _ ho => hspread.hidden hs hreach hfile (hnamed hrs) ho
    contents := fun _ hrs => List.forall_mem_map.mpr fun t ht => List.forall_mem_map.mpr fun o ho =>
      hspread.clear hs hreach hfile (hnamed hrs) ht (hspread.plain o ho).1 (hspread.contents t ht o ho)
    records := fun _ hrs => List.forall_mem_map.mpr fun t ht => List.forall_mem_map.mpr fun o ho hne =>
      hspread.clear hs hreach hfile (hnamed hrs) ht (hspread.plain o ho).2
        (hspread.records t ht o ho fun he => hne (congrArg (Path.join dir) he)) }

end Patchwork.Gate
