import Patchwork.Proofs.Tree.Making
import Patchwork.Proofs.Tree.Naming

/-!
# Where a relative path leads

A relative path is followed from a root by one name after the other.  It is refused if it has no name, or a part
that may lead out of the root, wherever that stands.  What it resolves to lies strictly below the root, and tells
the names apart.
-/
namespace Patchwork.Path

variable {root r s part rest out out' : Text} {names ps : List Text}

/-! ### Components -/

/-- The parts of a path that count. -/
def components (path : Text) : List Text :=
  ((parts path).zipIdx.filter fun q => isReal q.2 q.1).map (·.1)

/-- Behind the first part, those count that are followed. -/
theorem filter_isReal_zipIdx (ps : List Text) (k : Nat) :
    ((ps.zipIdx (k + 1)).filter fun q => isReal q.2 q.1).map (·.1) =
      ps.filter fun p => p ≠ [] && p ≠ ['.'] := by
  induction ps generalizing k with
  | nil => rfl
  | cons p ps ih =>
    have hreal : isReal (k + 1) p = (p ≠ [] && p ≠ ['.']) := by simp [isReal]
    rw [List.zipIdx_cons, List.filter_cons, List.filter_cons]
    dsimp only
    rw [hreal]
    split
    · rw [List.map_cons, ih]
    · exact ih (k + 1)

theorem components_append_slash (s t : Text) : components (s ++ '/' :: t) = components s ++ steps t := by
  obtain ⟨first, more, hparts⟩ := List.exists_cons_of_ne_nil (parts_ne_nil s)
  rw [components, components, steps, parts_append_slash, List.zipIdx_append, List.filter_append,
    List.map_append, Nat.zero_add, hparts, List.length_cons, filter_isReal_zipIdx]

theorem Name.parts (hn : Name part) : parts part = [part] := parts_of_not_mem hn.noSlash

theorem Name.components (hn : Name part) : components part = [part] := by
  rw [Path.components, hn.parts]
  simp [hn.isReal]

theorem Name.steps (hn : Name part) : steps part = [part] := by
  have hplain : Plain part := by
    rw [Plain, hn.parts]
    simpa using hn
  rw [hplain.steps, hn.parts]

theorem Name.not_isAbsolute (hn : Name part) : isAbsolute part = false := by
  have hone : ∀ name ∈ [part], Name name := by simpa using hn
  simpa [ofParts] using not_isAbsolute_ofParts hone (List.cons_ne_nil _ _)

/-! ### One name after the other -/

/-- A path that goes on from another one with some names, at least one. -/
structure Below (root : Text) (names : List Text) (path : Text) : Prop where
  proper : names ≠ []
  named : ∀ name ∈ names, Name name
  absolute : isAbsolute path = isAbsolute root
  components : components path = components root ++ names

theorem nil_join (rest : Text) : join [] rest = rest := if_pos (.inr rfl)

/-- A name that is pushed becomes the last component. -/
theorem below_join (root : Text) (hn : Name part) : Below root [part] (join root part) := by
  refine ⟨List.cons_ne_nil _ _, by simpa using hn, ?_, ?_⟩
  · by_cases hroot : root = []
    · rw [hroot, nil_join]
      exact hn.not_isAbsolute
    · obtain ⟨c, t, rfl⟩ := List.exists_cons_of_ne_nil hroot
      rw [join, if_neg (by simp [hn.not_isAbsolute])]
      split <;> rfl
  · by_cases hroot : root = []
    · rw [hroot, nil_join]
      exact hn.components
    · rw [join, if_neg (by simp [hn.not_isAbsolute, hroot])]
      split
      · next hslash =>
        obtain ⟨t, rfl⟩ := List.getLast?_eq_some_iff.mp hslash
        rw [List.append_assoc, List.singleton_append, components_append_slash, components_append_slash, hn.steps]
        simp [steps, parts_of_not_mem]
      · rw [components_append_slash, hn.steps]

theorem Below.trans {path path' : Text} {names' : List Text} (h : Below root names path)
    (h' : Below path names' path') : Below root (names ++ names') path' :=
  ⟨List.append_ne_nil_of_left_ne_nil h.proper names', List.forall_mem_append.mpr ⟨h.named, h'.named⟩,
    h'.absolute.trans h.absolute, by rw [h'.components, h.components, List.append_assoc]⟩

theorem Below.ne {path : Text} (h : Below root names path) : path ≠ root := by
  rintro rfl
  exact h.proper (List.self_eq_append_right.mp h.components)

/-- Names that are pushed in order become the last components, in order. -/
theorem below_foldl_join (root : Text) (hn : ∀ name ∈ names, Name name) (h : names ≠ []) :
    Below root names (names.foldl join root) := by
  induction names generalizing root with
  | nil => exact absurd rfl h
  | cons name names ih =>
    have hone := below_join root (hn name List.mem_cons_self)
    by_cases hnil : names = []
    · subst hnil
      exact hone
    · exact hone.trans (ih (join root name) (fun other ho => hn other (List.mem_cons_of_mem _ ho)) hnil)

/-- A path in front of a slash is pushed before the one behind it. -/
theorem join_append_slash (root : Text) (hn : Name part) (hrest : isAbsolute rest = false) :
    join root (part ++ '/' :: rest) = join (join root part) rest := by
  have hend (t : Text) : (t ++ part).getLast? ≠ some '/' := by
    rw [List.getLast?_append_of_ne_nil _ hn.ne_nil]
    exact fun hlast => hn.noSlash (List.mem_of_getLast? hlast)
  have hpush (t : Text) : join (t ++ part) rest = t ++ part ++ '/' :: rest := by
    rw [join, if_neg (by simp [hrest, hn.ne_nil]), if_neg (hend t)]
  by_cases hroot : root = []
  · rw [hroot, nil_join, nil_join]
    exact (hpush []).symm
  · obtain ⟨t, ht⟩ := exists_join hroot
    have habs : isAbsolute (part ++ '/' :: rest) = false := by
      obtain ⟨c, u, rfl⟩ := List.exists_cons_of_ne_nil hn.ne_nil
      exact hn.not_isAbsolute
    rw [ht _ habs, ht part hn.not_isAbsolute]
    simpa using (hpush (t ++ ['/'])).symm

/-- Names that are joined first are pushed in order. -/
theorem join_ofParts (root : Text) (hn : ∀ name ∈ names, Name name) (h : names ≠ []) :
    join root (ofParts names) = names.foldl join root := by
  induction names generalizing root with
  | nil => exact absurd rfl h
  | cons name names ih =>
    by_cases hnil : names = []
    · subst hnil
      simp [ofParts]
    · have hrest : ∀ other ∈ names, Name other := fun other ho => hn other (List.mem_cons_of_mem _ ho)
      rw [ofParts_cons name hnil, join_append_slash root (hn name List.mem_cons_self)
        (not_isAbsolute_ofParts hrest hnil), ih _ hrest hnil, List.foldl_cons]

/-! ### What is refused -/

/-- A part that stays where it is put. -/
def Stays (part : Text) : Prop := part ≠ ['.', '.'] ∧ '\\' ∉ part ∧ ':' ∉ part

theorem isUnsafe_eq_false_iff : isUnsafe part = false ↔ Stays part := by
  simp [isUnsafe, Stays, and_assoc]

theorem name_of_mem_steps (h : part ∈ steps r) (hs : Stays part) : Name part := by
  obtain ⟨hmem, hreal⟩ := List.mem_filter.mp h
  obtain ⟨hempty, hdot⟩ : part ≠ [] ∧ part ≠ ['.'] := by simpa using hreal
  exact ⟨by rw [Step.ofPart?, if_neg hempty, if_neg hdot, if_neg hs.1], not_mem_of_mem_parts hmem⟩

theorem resolve?_eq_some_iff : resolve? root r = some out ↔
    steps r ≠ [] ∧ (∀ part ∈ steps r, Stays part) ∧ (steps r).foldl join root = out := by
  have hany : (steps r).any isUnsafe = false ↔ ∀ part ∈ steps r, Stays part := by
    simp only [List.any_eq_false, Bool.not_eq_true, isUnsafe_eq_false_iff]
  have hpush (hne : steps r ≠ []) (hall : ∀ part ∈ steps r, Stays part) :
      join root (ofParts (steps r)) = (steps r).foldl join root :=
    join_ofParts root (fun part hpart => name_of_mem_steps hpart (hall part hpart)) hne
  unfold resolve?
  dsimp only
  split
  · next hbad =>
    refine ⟨nofun, fun ⟨hne, hall, _⟩ => ?_⟩
    rcases hbad with hnil | hunsafe
    · exact absurd hnil hne
    · rw [hany.mpr hall] at hunsafe
      cases hunsafe
  · next hgood =>
    obtain ⟨hne, hsafe⟩ := not_or.mp hgood
    have hall := hany.mp (Bool.eq_false_iff.mpr hsafe)
    rw [hpush hne hall, Option.some.injEq]
    exact ⟨fun heq => ⟨hne, hall, heq⟩, fun h => h.2.2⟩

theorem below_resolve? (h : resolve? root r = some out) : Below root (steps r) out := by
  obtain ⟨hne, hall, rfl⟩ := resolve?_eq_some_iff.mp h
  exact below_foldl_join root (fun part hpart => name_of_mem_steps hpart (hall part hpart)) hne

/-- Paths with the same components, however they are spelled. -/
def Alike (path path' : Text) : Prop :=
  isAbsolute path = isAbsolute path' ∧ components path = components path'

/-- A path resolves just if it has parts that are followed and each of them stays where it is put.  It is then the
root with these parts pushed in order: strictly below the root, on any volume without links on the way too, and
another path than the root.  Two paths resolve to the same one, letter by letter or component by component, just if
the same parts are followed. -/
theorem resolve?_strictly_below (root r : Text) :
    (∀ out, resolve? root r = some out ↔
      steps r ≠ [] ∧ (∀ part ∈ steps r, part ≠ ['.', '.'] ∧ '\\' ∉ part ∧ ':' ∉ part) ∧
        (steps r).foldl join root = out) ∧
    (∀ out, resolve? root r = some out → Below root (steps r) out ∧ out ≠ root ∧
      ∀ (v : Volume) aim p q, v.find .item root = .ok (p, .dir) → Volume.NoLinkTo v p (steps r) →
        v.locate aim out = .ok q → q = p ++ steps r) ∧
    ∀ s out out', resolve? root r = some out → resolve? root s = some out' →
      (out = out' ↔ steps r = steps s) ∧ (Alike out out' ↔ steps r = steps s) := by
  refine ⟨fun out => resolve?_eq_some_iff, fun out h => ?_, fun s out out' hr hs => ?_⟩
  · have hbelow := below_resolve? h
    refine ⟨hbelow, hbelow.ne, fun v aim p q hroot hlink hl => ?_⟩
    obtain ⟨-, -, rfl⟩ := resolve?_eq_some_iff.mp h
    rw [← join_ofParts root hbelow.named hbelow.proper] at hl
    exact (Volume.locate_join_eq_ok hroot hbelow.named hbelow.proper hlink hl).1
  · have hout := below_resolve? hr
    have hout' := below_resolve? hs
    have hsame (hcomponents : components out = components out') : steps r = steps s := by
      rw [hout.components, hout'.components] at hcomponents
      exact List.append_cancel_left hcomponents
    have heq (hsteps : steps r = steps s) : out = out' := by
      rw [← (resolve?_eq_some_iff.mp hr).2.2, ← (resolve?_eq_some_iff.mp hs).2.2, hsteps]
    exact ⟨⟨fun h => hsame (h ▸ rfl), heq⟩, fun h => hsame h.2, fun h => heq h ▸ ⟨rfl, rfl⟩⟩

/-- Slashes and dots at the ends and in between do not count, and a part that is refused may stand behind others. -/
theorem resolve?_strictly_below_crooked : ∃ out, resolve? "/w/".toList "./a//b/.".toList = some out ∧
    out = "/w/a/b".toList ∧ Below "/w/".toList [['a'], ['b']] out ∧ out ≠ "/w/".toList ∧
    resolve? "/w/".toList "a/b".toList = some out ∧ steps "./a//b/.".toList = steps "a/b".toList ∧
    resolve? "/w/".toList "a/b:/c".toList ≠ some out := by
  obtain ⟨hiff, hbelow, hsame⟩ := resolve?_strictly_below "/w/".toList "./a//b/.".toList
  have hout := (hiff "/w/a/b".toList).mpr (by decide)
  have hplain := ((resolve?_strictly_below "/w/".toList "a/b".toList).1 "/w/a/b".toList).mpr (by decide)
  refine ⟨_, hout, rfl, (hbelow _ hout).1, (hbelow _ hout).2.1, hplain, (hsame _ _ _ hout hplain).1.mp rfl,
    fun h => ?_⟩
  obtain ⟨-, hstays, -⟩ := ((resolve?_strictly_below "/w/".toList "a/b:/c".toList).1 _).mp h
  exact absurd (hstays "b:".toList (by decide)) (by decide)

end Patchwork.Path
