import Patchwork.Proofs.Volume.Clear
import Patchwork.Proofs.Volume.Growth
import Patchwork.Proofs.Volume.Programs

/-!
# Volumes that differ in the content of a file

A path leads to the same place in two volumes that are equal but for what one file holds, and a program that
does not read files cannot tell them apart.
-/
namespace Patchwork

namespace Volume

variable {v w : Volume} {aim : Aim} {p r s : Place} {path : Text} {content : Bytes}

/-- Two volumes are equal but for what the file at a place holds, if there is one. -/
structure Alike (s : Place) (v w : Volume) : Prop where
  here : w.here = v.here
  items : ∀ r, w.item? r = v.item? r ∨
    r = s ∧ ∃ c d, v.item? r = some (.file c) ∧ w.item? r = some (.file d)

theorem alike_put (hp : v.item? p = some (.file content)) (other : Bytes) :
    Alike p v (v.put p (.file other)) := by
  have hne : p ≠ [] := by
    rintro rfl
    cases hp
  refine ⟨rfl, fun r => ?_⟩
  rw [item?_put v p r _ hne]
  split
  · next hr => exact .inr ⟨hr, content, other, hr ▸ hp, rfl⟩
  · exact .inl rfl

theorem Alike.walk (h : Alike s v w) (onLink : Place → Text → List Step → Except OsError Place)
    (p : Place) (steps : List Step) : w.walk onLink aim p steps = v.walk onLink aim p steps := by
  induction steps generalizing p with
  | nil => rfl
  | cons step steps ih =>
    rcases h.items p with hp | ⟨-, c, d, hv, hw⟩
    · cases step with
      | stay | slash | up => simp only [Volume.walk, hp, ih]
      | down name =>
        simp only [Volume.walk, hp, ih]
        rcases h.items (p ++ [name]) with hn | ⟨-, c, d, hv, hw⟩
        · rw [hn]
        · rw [hv, hw]
    · simp only [Volume.walk, hv, hw]

theorem Alike.walkLinks (h : Alike s v w) (n : Nat) (p : Place) (steps : List Step) :
    w.walkLinks aim n p steps = v.walkLinks aim n p steps := by
  induction n generalizing p steps with
  | zero => exact h.walk _ p steps
  | succ n ih =>
    simp only [Volume.walkLinks, ih]
    exact h.walk _ p steps

theorem Alike.locate (h : Alike s v w) (aim : Aim) (path : Text) :
    w.locate aim path = v.locate aim path := by
  simp only [Volume.locate, h.walkLinks, h.here]

theorem Alike.dir_iff (h : Alike s v w) (r : Place) : w.item? r = some .dir ↔ v.item? r = some .dir := by
  rcases h.items r with hr | ⟨-, c, d, hv, hw⟩
  · rw [hr]
  · rw [hv, hw]
    simp

theorem Alike.isSome (h : Alike s v w) (r : Place) : (w.item? r).isSome = (v.item? r).isSome := by
  rcases h.items r with hr | ⟨-, c, d, hv, hw⟩
  · rw [hr]
  · rw [hv, hw]
    rfl

/-- A path leads to the same item in both volumes, or to the file in which they differ. -/
theorem Alike.find_cases (h : Alike s v w) (aim : Aim) (path : Text) :
    w.find aim path = v.find aim path ∨
      ∃ c d, v.find aim path = .ok (s, .file c) ∧ w.find aim path = .ok (s, .file d) := by
  unfold Volume.find
  rw [h.locate]
  cases v.locate aim path with
  | error e => exact .inl rfl
  | ok p =>
    rcases h.items p with hp | ⟨rfl, c, d, hv, hw⟩
    · simp only [hp, true_or]
    · exact .inr ⟨c, d, by simp only [hv], by simp only [hw]⟩

theorem Alike.isDir (h : Alike s v w) (path : Text) : w.isDir path = v.isDir path := by
  unfold Volume.isDir
  rcases h.find_cases .item path with hf | ⟨c, d, hv, hw⟩
  · rw [hf]
  · rw [hv, hw]

theorem Alike.put (h : Alike s v w) (hp : p ≠ []) (i : Item) : Alike s (v.put p i) (w.put p i) := by
  refine ⟨h.here, fun r => ?_⟩
  rw [item?_put w p r i hp, item?_put v p r i hp]
  split
  · exact .inl rfl
  · exact h.items r

theorem Alike.clear (h : Alike s v w) (p : Place) : Alike s (v.clear p) (w.clear p) := by
  refine ⟨h.here, fun r => ?_⟩
  rw [item?_clear, item?_clear]
  split
  · exact .inl rfl
  · exact h.items r

/-- Changes of two volumes both fail in the same way, or leave volumes that are alike. -/
def Agree (s : Place) (x y : Except IoError Volume) : Prop :=
  (∃ e, x = .error e ∧ y = .error e) ∨ ∃ v w, x = .ok v ∧ y = .ok w ∧ Alike s v w

theorem Agree.error {e : IoError} {y : Except IoError Volume} (h : Agree s (.error e) y) : y = .error e := by
  rcases h with ⟨e', hx, hy⟩ | ⟨v, w, hx, -, -⟩
  · cases hx
    exact hy
  · cases hx

theorem Agree.ok {y : Except IoError Volume} (h : Agree s (.ok v) y) : ∃ w, y = .ok w ∧ Alike s v w := by
  rcases h with ⟨e, hx, -⟩ | ⟨x, w, hx, hy, halike⟩
  · cases hx
  · cases hx
    exact ⟨w, hy, halike⟩

theorem Alike.write (h : Alike s v w) (path : Text) (content : Bytes) :
    Agree s (v.write path content) (w.write path content) := by
  unfold Volume.write
  rw [h.locate]
  cases v.locate .file path with
  | error e => exact .inl ⟨e, rfl, rfl⟩
  | ok p =>
    by_cases hdir : v.item? p = some .dir
    · simp only [hdir, (h.dir_iff p).mpr hdir, if_true]
      exact .inl ⟨_, rfl, rfl⟩
    · have hdir' : w.item? p ≠ some .dir := fun hw => hdir ((h.dir_iff p).mp hw)
      have hne : p ≠ [] := fun he => hdir (by rw [he]; rfl)
      simp only [if_neg hdir, if_neg hdir']
      exact .inr ⟨_, _, rfl, rfl, h.put hne _⟩

theorem Alike.locateName (h : Alike s v w) (path : Text) : w.locateName path = v.locateName path := by
  unfold Volume.locateName
  rw [h.locate]

theorem Alike.makeDir (h : Alike s v w) (path : Text) : Agree s (v.makeDir path) (w.makeDir path) := by
  unfold Volume.makeDir
  rw [h.locateName]
  cases v.locateName path with
  | error e => exact .inl ⟨e, rfl, rfl⟩
  | ok p =>
    simp only [h.isSome]
    split
    · exact .inl ⟨_, rfl, rfl⟩
    · next hnone =>
      have hne : p ≠ [] := by
        rintro rfl
        exact hnone rfl
      exact .inr ⟨_, _, rfl, rfl, h.put hne _⟩

/-- Whether a file can be renamed does not depend on what it holds. -/
theorem Alike.renameFile (h : Alike s v w) (path target : Text) :
    (w.renameFile path target).map (fun _ => ()) = (v.renameFile path target).map (fun _ => ()) := by
  unfold Volume.renameFile
  rw [h.locateName, h.locateName]
  split
  · rfl
  · split
    · next p q _ _ =>
      split
      · rfl
      · rcases h.items p with hp | ⟨-, c, d, hv, hw⟩
        · rw [hp]
          cases v.item? p with
          | none => rfl
          | some i =>
            cases i with
            | file content =>
              simp only [h.dir_iff]
              split
              · rfl
              · split <;> rfl
            | dir => rfl
            | link target => rfl
        · simp only [hv, hw, h.dir_iff]
          split
          · rfl
          · split <;> rfl
    · rfl
    · rfl

end Volume

namespace Disk

open Volume

variable {s : Place} {α β ε : Type}

/-- A program that does the same on two volumes that differ in what the file at a place holds. -/
def Blind (s : Place) (d : Disk ε α) : Prop :=
  ∀ v w, Alike s v w → (on w d).1 = (on v d).1 ∧ Alike s (on v d).2 (on w d).2

theorem blind_ofExcept (r : Except ε α) : Blind s (ofExcept r) := fun _ _ h => ⟨rfl, h⟩

theorem Blind.bind {d : Disk ε α} {f : α → Disk ε β} (hd : Blind s d) (hf : ∀ a, Blind s (f a)) :
    Blind s (d >>= f) := by
  intro v w h
  obtain ⟨hsame, halike⟩ := hd v w h
  rw [on_bind, on_bind]
  cases hv : on v d with
  | mk r v' =>
    cases hw : on w d with
    | mk r' w' =>
      rw [hv, hw] at hsame halike
      obtain rfl : r' = r := hsame
      cases r' with
      | ok a => exact hf a v' w' halike
      | error e => exact ⟨rfl, halike⟩

theorem Blind.io {d : Disk IoError α} (hd : Blind s d) : Blind s (Disk.io d) := by
  intro v w h
  obtain ⟨hsame, halike⟩ := hd v w h
  rw [on_io, on_io, hsame]
  exact ⟨rfl, halike⟩

theorem blind_write (path : Text) (content : Bytes) : Blind s (Disk.write path content) := by
  intro v w h
  simp only [on, ExceptT.run, Disk.write, Disk.change]
  rcases h.write path content with ⟨e, hv, hw⟩ | ⟨v', w', hv, hw, halike⟩
  · rw [hv, hw]
    exact ⟨rfl, h⟩
  · rw [hv, hw]
    exact ⟨rfl, halike⟩

theorem Makes.alike {v v' w : Volume} {dirs : List Text} {r : Except IoError Unit} (hm : Makes v dirs r v')
    (h : Alike s v w) : ∃ w', Makes w dirs r w' ∧ Alike s v' w' := by
  have herror {v w : Volume} {path : Text} {e : IoError} (h : Alike s v w) (he : v.makeDir path = .error e) :
      w.makeDir path = .error e := Agree.error (he ▸ h.makeDir path)
  have hok {v v' w : Volume} {path : Text} (h : Alike s v w) (hm : v.makeDir path = .ok v') :
      ∃ w', w.makeDir path = .ok w' ∧ Alike s v' w' := Agree.ok (hm ▸ h.makeDir path)
  induction hm with
  | none => exact ⟨w, .none, h⟩
  | empty => exact ⟨w, .empty, h⟩
  | new hne hm =>
    obtain ⟨w', hw, hmade⟩ := hok h hm
    exact ⟨w', .new hne hw, hmade⟩
  | there hne he hkind hdir => exact ⟨w, .there hne (herror h he) hkind (h.isDir _ ▸ hdir), h⟩
  | refused hne he hkind hdir => exact ⟨w, .refused hne (herror h he) hkind (h.isDir _ ▸ hdir), h⟩
  | stuck hne he hkind _ ih =>
    obtain ⟨x, hx, hup⟩ := ih
    exact ⟨x, .stuck hne (herror h he) hkind hx, hup⟩
  | lower hne he hkind _ hm ih =>
    obtain ⟨x, hx, hup⟩ := ih
    obtain ⟨w', hw, hmade⟩ := hok hup hm
    exact ⟨w', .lower hne (herror h he) hkind hx hw, hmade⟩
  | found hne he hkind _ he' hdir ih =>
    obtain ⟨x, hx, hup⟩ := ih
    exact ⟨x, .found hne (herror h he) hkind hx (herror hup he') (hup.isDir _ ▸ hdir), hup⟩
  | unmade hne he hkind _ he' hdir ih =>
    obtain ⟨x, hx, hup⟩ := ih
    exact ⟨x, .unmade hne (herror h he) hkind hx (herror hup he') (hup.isDir _ ▸ hdir), hup⟩

theorem blind_makeDirs (dirs : List Text) : Blind s (makeDirs dirs) := by
  intro v w h
  obtain ⟨w', hw, halike⟩ := (on_makeDirs dirs v).alike h
  rw [makes_iff.mp hw]
  exact ⟨rfl, halike⟩

theorem blind_createDirAll (path : Text) : Blind s (createDirAll path) := blind_makeDirs _

/-- Whether a temporary file gets its name does not depend on what is put into it. -/
theorem persist_result (v : Volume) (temp path : Text) (content : Bytes) :
    (on v (persist temp path content)).1 = (v.renameFile temp path).map fun _ => () := by
  simp only [on, ExceptT.run, persist]
  cases hf : v.find .entry temp with
  | error e =>
    dsimp only
    cases v.renameFile temp path <;> rfl
  | ok found =>
    obtain ⟨p, i⟩ := found
    cases i with
    | file c =>
      rw [← (alike_put (find_eq_ok_iff.mp hf).2 content).renameFile]
      dsimp only
      cases (v.put p (.file content)).renameFile temp path <;> rfl
    | dir | link target =>
      dsimp only
      cases v.renameFile temp path <;> rfl

theorem writeAtomic_result (v : Volume) (path : Text) (c d : Bytes) :
    (on v (writeAtomic path c)).1 = (on v (writeAtomic path d)).1 := by
  simp only [writeAtomic, on_bind]
  cases on v (io (createDirAll (Path.directory path))) with
  | mk r u =>
    cases r with
    | error e => rfl
    | ok =>
      dsimp only
      cases on u (io (createTemp (Path.directory path))) with
      | mk r x =>
        cases r with
        | error e => rfl
        | ok temp => simp only [on_io, persist_result]

end Disk

end Patchwork
