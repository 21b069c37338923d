import Patchwork.Proofs.Volume.Paths

/-!
# The paths above a path

Each path of the chain above a path leads down to the one below it by a single name, with steps around
it that stay where they are.
-/
namespace Patchwork

/-- The step stays where it is. -/
def Step.Idle (s : Step) : Prop := s = .stay ∨ s = .slash

namespace Path

variable {ps init junk : List Text} {x path root : Text}

/-- The paths that are made of the first parts of a path, each up to a part that counts. -/
def rungs (ps : List Text) : List Text :=
  ((List.range ps.length).reverse.filter fun i => isReal i (ps.getD i [])).map
    fun i => ofParts (ps.take (i + 1))

theorem chain_eq (path : Text) :
    chain path = rungs (parts path) ++ [if isAbsolute path then ['/'] else []] := rfl

theorem rungs_concat (init : List Text) (x : Text) : rungs (init ++ [x]) =
    if isReal init.length x then ofParts (init ++ [x]) :: rungs init else rungs init := by
  have hlower : ((List.range init.length).reverse.filter fun i =>
      isReal i ((init ++ [x]).getD i [])).map (fun i => ofParts ((init ++ [x]).take (i + 1))) =
        rungs init := by
    have hlt {i : Nat} (hi : i ∈ (List.range init.length).reverse) : i < init.length := by
      simpa using hi
    have hfilter : (List.range init.length).reverse.filter (fun i =>
        isReal i ((init ++ [x]).getD i [])) =
          (List.range init.length).reverse.filter fun i => isReal i (init.getD i []) := by
      refine List.filter_congr fun i hi => ?_
      rw [List.getD_append _ _ _ _ (hlt hi)]
    rw [hfilter, rungs]
    refine List.map_congr_left fun i hi => ?_
    rw [List.take_append_of_le_length (hlt (List.mem_of_mem_filter hi))]
  have hat : (init ++ [x]).getD init.length [] = x := by simp
  have hall : (init ++ [x]).take (init.length + 1) = init ++ [x] := by
    rw [List.take_of_length_le (by simp)]
  rw [rungs, List.length_append, List.length_singleton, List.range_succ, List.reverse_concat,
    List.filter_cons, hat]
  split
  · rw [List.map_cons, hall, hlower]
  · exact hlower

/-- None of the parts counts at its index. -/
def Junk (start : Nat) : List Text → Prop
  | [] => True
  | x :: xs => isReal start x = false ∧ Junk (start + 1) xs

theorem junk_concat {start : Nat} : Junk start (junk ++ [x]) ↔
    Junk start junk ∧ isReal (start + junk.length) x = false := by
  induction junk generalizing start with
  | nil => simp [Junk]
  | cons y junk ih =>
    rw [List.cons_append, Junk, Junk, ih, List.length_cons, and_assoc, Nat.add_assoc,
      Nat.add_comm 1]

/-- The parts up to the last one that counts, if there is one. -/
theorem rungs_cases (ps : List Text) : (Junk 0 ps ∧ rungs ps = []) ∨
    ∃ init x junk, ps = init ++ x :: junk ∧ isReal init.length x = true ∧
      Junk (init.length + 1) junk ∧ rungs ps = ofParts (init ++ [x]) :: rungs init := by
  induction ps using List.reverseRecOn with
  | nil => exact Or.inl ⟨trivial, rfl⟩
  | append_singleton ps y ih =>
    rw [rungs_concat]
    by_cases hy : isReal ps.length y = true
    · rw [if_pos hy]
      exact Or.inr ⟨ps, y, [], rfl, hy, trivial, rfl⟩
    · rw [if_neg hy]
      have hy := eq_false_of_ne_true hy
      rcases ih with ⟨hjunk, hnil⟩ | ⟨init, x, junk, rfl, hx, hjunk, hrungs⟩
      · exact Or.inl ⟨junk_concat.mpr ⟨hjunk, by rwa [Nat.zero_add]⟩, hnil⟩
      · refine Or.inr ⟨init, x, junk ++ [y], by simp, hx, junk_concat.mpr ⟨hjunk, ?_⟩, hrungs⟩
        rw [List.length_append, List.length_cons] at hy
        rwa [Nat.add_assoc, Nat.add_comm 1]

theorem idle_of_junk {start : Nat} (h : Junk start ps) :
    ∀ s ∈ ps.filterMap Step.ofPart?, s.Idle := by
  induction ps generalizing start with
  | nil => nofun
  | cons y ps ih =>
    intro s hs
    rw [Junk, isReal, Bool.and_eq_false_iff] at h
    rw [List.filterMap_cons] at hs
    rcases h.1 with hy | hy
    · have hy : y = [] := by simpa using hy
      subst hy
      exact ih h.2 s hs
    · have hy : start ≠ 0 ∧ y = ['.'] := by simpa using hy
      obtain ⟨_, rfl⟩ := hy
      rcases List.mem_cons.mp hs with rfl | hs
      · exact Or.inl rfl
      · exact ih h.2 s hs

theorem fileName?_of_parts (hp : parts path = init ++ x :: junk) (hx : isReal init.length x = true)
    (hj : Junk (init.length + 1) junk) :
    fileName? path = if x = ['.', '.'] ∨ x = ['.'] then none else some x := by
  have hfind : ((parts path).mapIdx fun i p => (i, p)).reverse.find? (fun q => isReal q.1 q.2) =
      some (init.length, x) := by
    rw [hp]
    clear hp
    induction junk using List.reverseRecOn with
    | nil =>
      rw [List.mapIdx_concat, List.reverse_concat]
      exact List.find?_cons_of_pos hx
    | append_singleton junk y ih =>
      obtain ⟨hj, hy⟩ := junk_concat.mp hj
      have hlen : (init ++ x :: junk).length = init.length + 1 + junk.length := by
        simp
        omega
      rw [← List.cons_append, ← List.append_assoc, List.mapIdx_concat, List.reverse_concat,
        List.find?_cons_of_neg, ih hj]
      rw [hlen]
      simp [hy]
  rw [fileName?, hfind]
  rfl

/-- A path leads down to another one by a name, with steps around it that stay where they are. -/
structure Above (above path name : Text) : Prop where
  isStart : above <+: path
  absolute : isAbsolute above = isAbsolute path
  steps : ∃ core tail before after, Step.ofPath above = core ++ tail ∧ (tail = [] ∨ tail = [.slash]) ∧
    Step.ofPath path = core ++ (before ++ .down name :: after) ∧
    (∀ s ∈ before, s.Idle) ∧ ∀ s ∈ after, s.Idle

/-- Each path leads down to the one before it in the list, unless that one ends in no name. -/
inductive Ladder : List Text → Prop
  | last (path : Text) : Ladder [path]
  | next {path above : Text} {rest : List Text}
      (h : ∀ name, fileName? path = some name → Above above path name)
      (hrest : Ladder (above :: rest)) : Ladder (path :: above :: rest)

theorem isReal_ne_nil {i : Nat} (h : isReal i x = true) : x ≠ [] := by
  rintro rfl
  cases h

theorem name_of_fileName? (hp : parts path = init ++ x :: junk) (hx : isReal init.length x = true)
    (hj : Junk (init.length + 1) junk) {name : Text} (h : fileName? path = some name) :
    name = x ∧ Step.ofPart? x = some (.down x) := by
  rw [fileName?_of_parts hp hx hj] at h
  split at h
  · cases h
  · next hdots =>
    obtain ⟨hup, hstay⟩ := not_or.mp hdots
    refine ⟨(Option.some.inj h).symm, ?_⟩
    rw [Step.ofPart?, if_neg (isReal_ne_nil hx), if_neg hstay, if_neg hup]

theorem idle_tail (path : Text) :
    ∀ s ∈ if path.getLast? = some '/' then [Step.slash] else [], s.Idle := by
  split
  · intro s hs
    rw [List.mem_singleton.mp hs]
    exact Or.inr rfl
  · nofun

theorem steps_of_parts (hp : parts path = init ++ x :: junk) (hj : Junk (init.length + 1) junk)
    (hx : Step.ofPart? x = some (.down x)) :
    ∃ after, Step.ofPath path = init.filterMap Step.ofPart? ++ .down x :: after ∧
      ∀ s ∈ after, s.Idle := by
  refine ⟨junk.filterMap Step.ofPart? ++ if path.getLast? = some '/' then [.slash] else [], ?_, ?_⟩
  · rw [Step.ofPath, hp, List.filterMap_append, List.filterMap_cons_some hx, List.append_assoc]
    rfl
  · intro s hs
    rcases List.mem_append.mp hs with hs | hs
    · exact idle_of_junk hj s hs
    · exact idle_tail path s hs

theorem above_root (hp : parts path = init ++ x :: junk) (hinit : Junk 0 init)
    (hj : Junk (init.length + 1) junk) (hx : Step.ofPart? x = some (.down x)) :
    Above (if isAbsolute path then ['/'] else []) path x := by
  obtain ⟨after, hsteps, hafter⟩ := steps_of_parts hp hj hx
  by_cases habs : isAbsolute path = true
  · rw [if_pos habs]
    obtain ⟨rest, hrest⟩ : ∃ rest, path = '/' :: rest := by
      cases path with
      | nil => cases habs
      | cons c rest => exact ⟨rest, by rw [Option.some.inj (of_decide_eq_true habs)]⟩
    refine ⟨⟨rest, by rw [hrest]; rfl⟩, by rw [habs]; rfl, [], [.slash], init.filterMap Step.ofPart?, after,
      by decide, Or.inr rfl, ?_, idle_of_junk hinit, hafter⟩
    rw [hsteps, List.nil_append]
  · rw [if_neg habs]
    refine ⟨List.nil_prefix, by rw [eq_false_of_ne_true habs]; rfl, [], [], init.filterMap Step.ofPart?,
      after, by decide, Or.inl rfl, ?_, idle_of_junk hinit, hafter⟩
    rw [hsteps, List.nil_append]

/-- The path that is made of the first parts of another one, up to a part that is not empty. -/
structure Rung (rung path : Text) (ps : List Text) : Prop where
  isStart : rung <+: path
  absolute : isAbsolute rung = isAbsolute path
  parts_eq : parts rung = ps
  steps : Step.ofPath rung = ps.filterMap Step.ofPart?

theorem rung_ofParts {y : Text} {more : List Text} (hp : parts path = init ++ y :: more)
    (hmore : more ≠ []) (hy : y ≠ []) : Rung (ofParts (init ++ [y])) path (init ++ [y]) := by
  have hparts : parts (ofParts (init ++ [y])) = init ++ [y] := by
    refine parts_ofParts_of_not_mem (fun part hpart => ?_) (by simp)
    have hmem : part ∈ parts path := by
      rw [hp]
      rcases List.mem_append.mp hpart with hpart | hpart
      · simp [hpart]
      · simp [List.mem_singleton.mp hpart]
    exact not_mem_of_mem_parts hmem
  have hpath : path = ofParts (init ++ [y]) ++ '/' :: ofParts more := by
    rw [← ofParts_append (by simp) hmore, ← ofParts_parts path, hp]
    simp
  have hne : ofParts (init ++ [y]) ≠ [] := by
    intro hnil
    rw [hnil] at hparts
    rcases List.append_eq_singleton_iff.mp hparts.symm with ⟨_, he⟩ | ⟨_, he⟩
    · exact hy (List.singleton_inj.mp he)
    · cases he
  have hlast : (ofParts (init ++ [y])).getLast? ≠ some '/' := by
    intro hlast
    obtain ⟨t, ht⟩ := List.getLast?_eq_some_iff.mp hlast
    rw [ht, parts_append_slash] at hparts
    exact hy (List.singleton_inj.mp (List.append_inj_right' hparts rfl)).symm
  refine ⟨⟨_, hpath.symm⟩, ?_, hparts, ?_⟩
  · obtain ⟨c, t, ht⟩ := List.exists_cons_of_ne_nil hne
    rw [ht] at hpath
    rw [ht, hpath]
    rfl
  · rw [Step.ofPath, hparts, if_neg hlast, List.append_nil]

theorem Rung.above {rung y : Text} {between : List Text} (hr : Rung rung path (init ++ [y]))
    (hp : parts path = (init ++ y :: between) ++ x :: junk) (hb : Junk (init.length + 1) between)
    (hj : Junk ((init ++ y :: between).length + 1) junk) (hx : Step.ofPart? x = some (.down x)) :
    Above rung path x := by
  obtain ⟨after, hsteps, hafter⟩ := steps_of_parts hp hj hx
  refine ⟨hr.isStart, hr.absolute, (init ++ [y]).filterMap Step.ofPart?, [],
    between.filterMap Step.ofPart?, after, ?_, Or.inl rfl, ?_, idle_of_junk hb, hafter⟩
  · rw [List.append_nil]
    exact hr.steps
  · rw [hsteps, ← List.append_assoc, ← List.filterMap_append]
    simp

theorem ladder_rungs (hp : parts path = init ++ x :: junk) (hx : isReal init.length x = true)
    (hj : Junk (init.length + 1) junk) :
    Ladder (path :: (rungs init ++ [if isAbsolute path then ['/'] else []])) := by
  induction hn : init.length using Nat.strongRecOn generalizing path init x junk with
  | ind n ih =>
    rcases rungs_cases init with ⟨hinit, hnil⟩ | ⟨init', y, between, rfl, hy, hb, hrungs⟩
    · rw [hnil]
      refine .next (fun name hname => ?_) (.last _)
      obtain ⟨rfl, hstep⟩ := name_of_fileName? hp hx hj hname
      exact above_root hp hinit hj hstep
    · have hp' : parts path = init' ++ y :: (between ++ x :: junk) := by rw [hp]; simp
      have hr := rung_ofParts hp' (by simp) (isReal_ne_nil hy)
      rw [hrungs]
      refine .next (fun name hname => ?_) ?_
      · obtain ⟨rfl, hstep⟩ := name_of_fileName? hp hx hj hname
        exact hr.above hp hb hj hstep
      · rw [← hr.absolute]
        refine ih init'.length ?_ hr.parts_eq hy trivial rfl
        rw [← hn, List.length_append, List.length_cons]
        omega

theorem ladder_chain (path : Text) : Ladder (path :: (chain path).drop 1) := by
  rw [chain_eq]
  rcases rungs_cases (parts path) with ⟨_, hnil⟩ | ⟨init, x, junk, hp, hx, hj, hrungs⟩
  · rw [hnil]
    exact .last path
  · rw [hrungs]
    exact ladder_rungs hp hx hj

end Path

end Patchwork
