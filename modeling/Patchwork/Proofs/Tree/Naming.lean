import Patchwork.Proofs.Tree.Listing
import Patchwork.Tree.Patch

/-!
# Names of files and of their patches

A path that is made of names is followed as it is written, and so is the name of its patch.
-/
namespace Patchwork

theorem splitName_append {name : Text} (h : '/' ∉ name) (above : Text) :
    splitName (above ++ '/' :: name) = (above ++ ['/'], name) := by
  rw [splitName, Text.cutLast?_append h]

theorem splitName_of_not_mem {name : Text} (h : '/' ∉ name) : splitName name = ([], name) := by
  rw [splitName, Text.cutLast?_of_not_mem h]

theorem stemOf_ne_nil {name : Text} (h : name ≠ []) : stemOf name ≠ [] := by
  unfold stemOf
  split
  · split
    · exact h
    · next hs => exact hs
  · exact h

theorem not_mem_stemOf {name : Text} (h : '/' ∉ name) : '/' ∉ stemOf name := by
  unfold stemOf
  split
  · next stem after hcut =>
    split
    · exact h
    · intro hs
      unfold Text.cutLast? at hcut
      split at hcut
      · cases hcut
        exact h (List.mem_reverse.mp (List.mem_of_mem_drop (List.mem_reverse.mp hs)))
      · cases hcut
  · exact h

namespace Path

theorem name_of_long {name : Text} (hlen : 3 ≤ name.length) (hslash : '/' ∉ name) : Name name := by
  refine ⟨?_, hslash⟩
  rw [Step.ofPart?, if_neg, if_neg, if_neg]
  all_goals
    rintro rfl
    simp at hlen

/-- A patch has a name of its own beside the name of its file. -/
theorem name_stemOf {name ext : Text} (hn : Name name) (hne : ext ≠ []) (hext : '/' ∉ ext) :
    Name (stemOf name ++ '.' :: ext) := by
  have hstem := List.length_pos_iff.mpr (stemOf_ne_nil hn.ne_nil)
  have hlen := List.length_pos_iff.mpr hne
  refine name_of_long ?_ ?_
  · rw [List.length_append, List.length_cons]
    omega
  · simp [not_mem_stemOf hn.noSlash, hext]

theorem Plain.patchFileName {ext f : Text} (hf : Plain f) (hne : ext ≠ []) (hext : '/' ∉ ext) :
    Plain (patchFileName ext f) := by
  obtain ⟨last, hlast, rfl | ⟨above, rfl⟩⟩ := exists_last_part f
  · rw [Plain, parts_of_not_mem hlast] at hf
    have hname := name_stemOf (hf f (List.mem_singleton_self _)) hne hext
    rw [Plain, Patchwork.patchFileName, splitName_of_not_mem hlast, List.nil_append,
      parts_of_not_mem hname.noSlash]
    intro part hpart
    rwa [List.mem_singleton.mp hpart]
  · rw [Plain, parts_append_slash, parts_of_not_mem hlast] at hf
    have hname := name_stemOf (hf last (by simp)) hne hext
    rw [Plain, Patchwork.patchFileName, splitName_append hlast, List.append_assoc, List.append_assoc,
      List.singleton_append, parts_append_slash, parts_of_not_mem hname.noSlash]
    intro part hpart
    rcases List.mem_append.mp hpart with hpart | hpart
    · exact hf part (List.mem_append_left _ hpart)
    · rwa [List.mem_singleton.mp hpart]

theorem Plain.steps {f : Text} (hf : Plain f) : steps f = parts f := by
  refine List.filter_eq_self.mpr fun part hpart => ?_
  have hstep := (hf part hpart).step
  have hdot : part ≠ ['.'] := by
    rintro rfl
    cases hstep
  simp [(hf part hpart).ne_nil, hdot]

theorem Plain.resolve? {f : Text} (hf : Plain f) (root : Text) :
    resolve? root f = if (parts f).any isUnsafe then none else some (join root f) := by
  simp only [Path.resolve?, hf.steps, parts_ne_nil, false_or, ofParts_parts]

/-- Where a path is followed from does not decide whether it stays below. -/
theorem Plain.resolve?_eq_some {f root path : Text} (hf : Plain f) (h : Path.resolve? root f = some path) :
    path = join root f ∧ ∀ other, Path.resolve? other f = some (join other f) := by
  rw [hf.resolve?] at h
  split at h
  · cases h
  · next hsafe =>
    cases h
    exact ⟨rfl, fun other => by rw [hf.resolve?, if_neg hsafe]⟩

/-- A path that stays strictly below is followed along names, wherever it is followed from. -/
theorem resolve?_eq_some {root t path : Text} (h : resolve? root t = some path) :
    Plain (ofParts (steps t)) ∧ parts (ofParts (steps t)) = steps t ∧
      ∀ other, resolve? other t = some (join other (ofParts (steps t))) := by
  have hresolve (other : Text) : resolve? other t =
      if steps t = [] ∨ (steps t).any isUnsafe then none else some (join other (ofParts (steps t))) := rfl
  rw [hresolve] at h
  split at h
  · cases h
  · next hsafe =>
    obtain ⟨hne, hsafe⟩ := not_or.mp hsafe
    have hname (part : Text) (hpart : part ∈ steps t) : Name part := by
      obtain ⟨hmem, hreal⟩ := List.mem_filter.mp hpart
      obtain ⟨hempty, hdot⟩ : part ≠ [] ∧ part ≠ ['.'] := by simpa using hreal
      have hup : part ≠ ['.', '.'] := by
        rintro rfl
        exact hsafe (List.any_eq_true.mpr ⟨_, hpart, rfl⟩)
      exact ⟨by rw [Step.ofPart?, if_neg hempty, if_neg hdot, if_neg hup], not_mem_of_mem_parts hmem⟩
    have hparts := parts_ofParts hname hne
    refine ⟨by rw [Plain, hparts]; exact hname, hparts, fun other => ?_⟩
    rw [hresolve, if_neg (not_or.mpr ⟨hne, hsafe⟩)]

theorem Plain.dropWhile_slash {f : Text} (hf : Plain f) : f.dropWhile (· = '/') = f := by
  have habs := not_isAbsolute_ofParts hf (parts_ne_nil f)
  rw [ofParts_parts] at habs
  cases f with
  | nil => rfl
  | cons c f =>
    have hc : c ≠ '/' := by simpa [isAbsolute] using habs
    rw [List.dropWhile_cons_of_neg (by simpa using hc)]

end Path

theorem targetPath_plain {f : Text} (hf : Path.Plain f) : targetPath [] f = f := hf.dropWhile_slash

theorem Config.validate_eq_ok {c : Config} (h : c.validate = .ok ()) :
    c.patchExtension ≠ [] ∧ '/' ∉ c.patchExtension := by
  unfold validate at h
  split at h
  · cases h
  · split at h
    · cases h
    · next hext =>
      rw [not_or, not_or] at hext
      exact ⟨hext.1, hext.2.1⟩

end Patchwork
