import Patchwork.Proofs.Patch.Groups
import Patchwork.Proofs.Patch.PrintedLines

/-!
# Patches that are made can be printed

The hunks between two texts show lines of these texts, have the counts of their lines and start within
the texts.
-/
namespace Patchwork

open Text (Line)
open Edit

variable {old new : Array Line}

namespace Hunk

/-- Where a group of edits stands in both lists. -/
def Placed (old new : Array Line) (k l : Nat) (es : List Edit) : Prop :=
  ∃ a b i j, Spans (Own old new) a b es i j ∧ StartsAt a es ∧ i ≤ k ∧ j ≤ l

/-- A kept stretch that is cut keeps its first and its last lines. -/
theorem agree_ends {n i j len : Nat} (h : Agree old new i j len) (hlen : 2 * n < len) :
    Agree old new i j n ∧ Agree old new (i + (len - n)) (j + (len - n)) (len - (len - n)) := by
  obtain ⟨r, rfl⟩ : ∃ r, len = r + n := ⟨len - n, by omega⟩
  rw [Nat.add_sub_cancel, Nat.add_sub_cancel_left]
  exact ⟨h.mono (by omega), (agree_add.mp h).2⟩

theorem placed_cut {n a b i j k l : Nat} {group es : List Edit}
    (hgroup : Spans (Own old new) a b group i j) (hes : Spans (Own old new) i j es k l)
    (hstart : StartsAt a (group ++ es)) : ∀ g ∈ cut n group es, Placed old new k l g := by
  induction es generalizing group a b i j with
  | nil =>
    obtain ⟨rfl, rfl⟩ := hes
    rw [List.append_nil] at hstart
    intro g hg
    unfold cut at hg
    split at hg
    · cases hg
    · cases hg
    · rw [List.mem_singleton.mp hg]
      exact ⟨a, b, i, j, hgroup, hstart, Nat.le_refl _, Nat.le_refl _⟩
  | cons e es ih =>
    obtain ⟨he, hes⟩ := hes
    have hjoin : ∀ g ∈ cut n (group ++ [e]) es, Placed old new k l g := by
      refine ih (spans_append.mpr ⟨i, j, hgroup, he, rfl, rfl⟩) hes ?_
      rwa [List.append_assoc]
    cases e with
    | delete | insert | replace => exact hjoin
    | keep o p len =>
      intro g hg
      rw [cut] at hg
      split at hg
      · next hlen =>
        obtain ⟨rfl, rfl, ha⟩ := he
        obtain ⟨hhead, hlast⟩ := agree_ends ha hlen
        obtain ⟨hk, hl⟩ := hes.le
        simp only [oldLen, newLen] at hk hl hes
        rcases List.mem_cons.mp hg with rfl | hg
        · refine ⟨a, b, o + n, p + n, spans_append.mpr ⟨o, p, hgroup, ⟨rfl, rfl, hhead⟩, rfl, rfl⟩,
            hstart.replace_end fun _ ho => ?_, by omega, by omega⟩
          rintro e ⟨⟩
          exact ho
        · have htail : Spans (Own old new) (o + (len - n)) (p + (len - n))
              [keep (o + (len - n)) (p + (len - n)) (len - (len - n))] (o + len) (p + len) := by
            refine ⟨⟨rfl, rfl, hlast⟩, ?_⟩
            simp only [Spans, oldLen, newLen]
            omega
          refine ih htail hes ?_ g hg
          rintro e ⟨⟩
          rfl
      · exact hjoin g hg

theorem mem_slice {ls : Array Line} {i n : Nat} {l : Line} (h : l ∈ slice ls i n) : l ∈ ls.toList := by
  rw [Edit.slice_eq] at h
  exact List.mem_of_mem_drop (List.mem_of_mem_take h)

theorem mem_linesOf {e : Edit} {l : HunkLine} (h : l ∈ linesOf old new e) :
    l.text ∈ old.toList ∨ l.text ∈ new.toList := by
  cases e with
  | keep | delete =>
    obtain ⟨t, ht, rfl⟩ := List.mem_map.mp h
    exact Or.inl (mem_slice ht)
  | insert =>
    obtain ⟨t, ht, rfl⟩ := List.mem_map.mp h
    exact Or.inr (mem_slice ht)
  | replace =>
    rcases List.mem_append.mp h with h | h
    · obtain ⟨t, ht, rfl⟩ := List.mem_map.mp h
      exact Or.inl (mem_slice ht)
    · obtain ⟨t, ht, rfl⟩ := List.mem_map.mp h
      exact Or.inr (mem_slice ht)

theorem newStart_le {i j k l : Nat} {e : Edit} {es : List Edit}
    (h : Spans (Own old new) i j (e :: es) k l) (hl : l ≤ new.size) : e.newStart ≤ new.size := by
  have hle := (Spans.le h).2
  cases e with
  | delete => exact h.1.2
  | keep =>
    obtain ⟨⟨_, rfl, _⟩, _⟩ := h
    exact Nat.le_trans hle hl
  | insert =>
    obtain ⟨rfl, _⟩ := h
    exact Nat.le_trans hle hl
  | replace =>
    obtain ⟨⟨_, rfl⟩, _⟩ := h
    exact Nat.le_trans hle hl

theorem startOf_le {index count bound : Nat} (h : index ≤ bound) : startOf index count ≤ bound + 1 := by
  unfold startOf
  split <;> omega

/-- The numbers of hunks fit into a machine word for files that fit into memory. -/
def Fits (ls : Array Line) : Prop := ls.size + 1 < UInt64.size

theorem printable_ofGroup {g : List Edit} {h : Hunk} (hold : Fits old) (hnew : Fits new)
    (hlines : ∀ l ∈ old.toList ++ new.toList, '\n' ∉ l.dropLast)
    (hg : Placed old new old.size new.size g) (hof : ofGroup? old new g = some h) : h.Printable := by
  obtain ⟨a, b, i, j, hspan, hstart, hi, hj⟩ := hg
  cases g with
  | nil => cases hof
  | cons e es =>
    obtain rfl := Option.some.inj hof
    obtain ⟨hs, hd⟩ := lines_of_spans hspan
    obtain ⟨hai, hbj⟩ := hspan.le
    have hsource := congrArg List.length hs
    have hdest := congrArg List.length hd
    rw [length_slice hai hi] at hsource
    rw [length_slice hbj hj] at hdest
    have hold : old.size + 1 < UInt64.size := hold
    have hnew : new.size + 1 < UInt64.size := hnew
    refine ⟨?_, ?_, ?_, ?_, rfl, fun l hl => ?_⟩
    · refine Nat.lt_of_le_of_lt (startOf_le ?_) hold
      rw [hstart e rfl]
      omega
    · refine Nat.lt_of_le_of_lt (Nat.le_of_eq hsource) ?_
      omega
    · exact Nat.lt_of_le_of_lt (startOf_le (newStart_le hspan hj)) hnew
    · refine Nat.lt_of_le_of_lt (Nat.le_of_eq hdest) ?_
      omega
    · obtain ⟨f, _, hf⟩ := List.mem_flatMap.mp hl
      exact hlines _ (List.mem_append.mpr (mem_linesOf hf))

theorem placed_groups_of_spans {es : List Edit} (hspan : Spans (Own old new) 0 0 es old.size new.size)
    (hstart : StartsAt 0 es) : ∀ g ∈ groups contextLines es, Placed old new old.size new.size g := by
  obtain ⟨g, _, hspan, hstart⟩ := spans_trimStart contextLines hspan hstart
  obtain ⟨k, l, r, hspan, _, hk, hl⟩ := spans_trimEnd contextLines hspan
  intro group hgroup
  have hnil : Spans (Own old new) (0 + g) (0 + g) [] (0 + g) (0 + g) := ⟨rfl, rfl⟩
  obtain ⟨a, b, i, j, hs, ha, hi, hj⟩ :=
    placed_cut hnil hspan (startsAt_trimEnd contextLines hstart) group hgroup
  exact ⟨a, b, i, j, hs, ha, by omega, by omega⟩

theorem placed_groups (old new : Array Line) :
    ∀ g ∈ groups contextLines (script old new), Placed old new old.size new.size g := by
  obtain ⟨hspan, hstart⟩ := spans_script old new
  exact placed_groups_of_spans hspan hstart

end Hunk

namespace FilePatch

theorem length_lines_le (t : Text) : (Text.lines t).length ≤ t.length := by
  induction t with
  | nil => exact Nat.le_refl _
  | cons c t ih =>
    rw [Text.lines_cons]
    split
    · exact Nat.succ_le_succ ih
    · split
      · exact Nat.succ_le_succ (Nat.zero_le _)
      · next l ls hl =>
        rw [hl] at ih
        exact Nat.le_succ_of_le ih

theorem eq_of_ofTexts {label path old new : Text} {p : FilePatch} (h : ofTexts? label path old new = some p) :
    p = ⟨path, label ++ path, hunksOf (Text.lines old).toArray (Text.lines new).toArray
      (script (Text.lines old).toArray (Text.lines new).toArray)⟩ := by
  simp only [ofTexts?] at h
  split at h
  · cases h
  · exact (Option.some.inj h).symm

theorem source_ofTexts {label path old new : Text} {p : FilePatch}
    (h : ofTexts? label path old new = some p) : p.source = path := by
  rw [eq_of_ofTexts h]

theorem destination_ofTexts {label path old new : Text} {p : FilePatch}
    (h : ofTexts? label path old new = some p) : p.destination = label ++ path := by
  rw [eq_of_ofTexts h]

theorem printable_hunks_ofTexts {label path old new : Text} {p : FilePatch}
    (hold : old.length + 1 < UInt64.size) (hnew : new.length + 1 < UInt64.size)
    (h : ofTexts? label path old new = some p) : ∀ hunk ∈ p.hunks, hunk.Printable := by
  obtain rfl := eq_of_ofTexts h
  intro hunk hmem
  obtain ⟨g, hg, hof⟩ := List.mem_filterMap.mp hmem
  have hfits {t : Text} (ht : t.length + 1 < UInt64.size) : Hunk.Fits (Text.lines t).toArray := by
    have hle := length_lines_le t
    rw [Hunk.Fits, List.size_toArray]
    omega
  refine Hunk.printable_ofGroup (hfits hold) (hfits hnew) (fun l hl => ?_)
    (Hunk.placed_groups _ _ g hg) hof
  rcases List.mem_append.mp hl with hl | hl
  · exact (Text.isLine_of_mem_lines hl).2
  · exact (Text.isLine_of_mem_lines hl).2

/-- The patch between two texts can be printed, if its paths can. -/
theorem printable_ofTexts {label path old new : Text} {p : FilePatch}
    (hold : old.length + 1 < UInt64.size) (hnew : new.length + 1 < UInt64.size)
    (hpath : Header.Printable path) (hlabel : Header.Printable (label ++ path))
    (h : ofTexts? label path old new = some p) : p.Printable where
  source := by rwa [source_ofTexts h]
  destination := by rwa [destination_ofTexts h]
  hunks := printable_hunks_ofTexts hold hnew h

end FilePatch

end Patchwork
