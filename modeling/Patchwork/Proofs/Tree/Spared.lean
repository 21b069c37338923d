import Patchwork.Proofs.Tree.Making

/-!
# What clearing a directory spares

Whatever comes of clearing a directory, nothing changes but below it and on the way to it.  If it cannot be
cleared, it is as it was.
-/
namespace Patchwork

namespace Volume

/-- Nothing changes but below a place and on the way to it. -/
def Spares (p : Place) (v w : Volume) : Prop :=
  ∀ r, ¬ p <+: r → ¬ r <+: p → w.item? r = v.item? r

variable {u v w : Volume} {p q b : Place}

theorem Spares.refl (p : Place) (v : Volume) : Spares p v v := fun _ _ _ => rfl

end Volume

namespace Tree

open Volume

variable {u v w : Volume} {p q b t : Place} {dir path there name above : Text} {rest found names : List Text}

theorem apart_below (h : Apart p b) (q : Place) : ¬ p <+: b ++ q ∧ ¬ b ++ q <+: p := by
  refine ⟨h q, fun hpre => ?_⟩
  obtain ⟨more, rfl⟩ := (List.prefix_append b q).trans hpre
  exact h more (List.prefix_refl _)

theorem spared_below (h : Spares p v w) (ha : Apart p b) (q : Place) :
    w.item? (b ++ q) = v.item? (b ++ q) :=
  h _ (apart_below ha q).1 (apart_below ha q).2

/-- Nothing changes but at the places that some names lead to, one after the other. -/
def Along (t names : Place) (v w : Volume) : Prop :=
  ∀ r, (∀ s, s <+: names → s ≠ [] → r ≠ t ++ s) → w.item? r = v.item? r

theorem Along.refl (t names : Place) (v : Volume) : Along t names v v := fun _ _ => rfl

theorem Along.trans (huv : Along t names u v) (hvw : Along t names v w) : Along t names u w :=
  fun r hr => (hvw r hr).trans (huv r hr)

theorem Along.concat (h : Along t names v w) (name : Text) : Along t (names ++ [name]) v w :=
  fun r hr => h r fun s hs => hr s (hs.trans (List.prefix_append names [name]))

theorem along_put (v : Volume) (t names : Place) (name : Text) :
    Along t (names ++ [name]) v (v.put (t ++ names ++ [name]) .dir) := by
  intro r hr
  rw [item?_put v _ r _ (by simp), if_neg]
  rw [List.append_assoc]
  exact hr _ (List.prefix_refl _) (by simp)

/-- The directories that are made for a path that leads nowhere, whether it succeeds or not. -/
theorem Nearest.along {r : Except IoError Unit} (h : Nearest v t path rest found) (hv : v.Sound)
    (hl : Path.Ladder (path :: rest)) (hm : Disk.Makes v (path :: rest) r w) :
    Along t found v w ∧ ∀ e, r = .error e → Along t found.dropLast v w := by
  induction h generalizing r w with
  | empty =>
    obtain ⟨rfl, rfl⟩ := hm.of_nil
    exact ⟨.refl t _ _, nofun⟩
  | present h =>
    obtain rfl := hm.of_present h
    exact ⟨.refl t _ _, fun _ _ => .refl t _ _⟩
  | @missing path above name more found e h hname hup ih =>
    cases hl with
    | next hab hlower =>
      have hab := hab name hname
      rw [List.dropLast_concat]
      cases hm with
      | empty => exact absurd rfl (ne_nil_of_fileName? hname)
      | there | refused => exact ⟨.refl t _ _, fun _ _ => .refl t _ _⟩
      | new _ hm =>
        obtain ⟨p, hin⟩ := madeIn_of_makeDir hab hm
        rw [hin.eq_put, hup.place hab hin]
        exact ⟨along_put v t found name, nofun⟩
      | lower _ _ _ hu hm =>
        obtain ⟨p, hin⟩ := madeIn_of_makeDir hab hm
        rw [hin.eq_put, hin.leads.unique (hup.built hv hlower hu).leads]
        exact ⟨((ih hlower hu).1.concat name).trans (along_put _ t found name), nofun⟩
      | found _ _ _ hu => exact ⟨(ih hlower hu).1.concat name, nofun⟩
      | stuck _ _ _ hu | unmade _ _ _ hu =>
        have halong := (ih hlower hu).1
        exact ⟨halong.concat name, fun _ _ => halong⟩

theorem Along.spares (h : Along t found v w) : Spares (t ++ found) v w := by
  refine fun r _ hr => h r fun s hs _ he => hr ?_
  rw [he]
  exact (List.prefix_append_right_inj t).mpr hs

/-- Nothing below the last of the places changes if it is not reached. -/
theorem Along.below (h : Along t found.dropLast v w) (q : Place) :
    w.item? (t ++ found ++ q) = v.item? (t ++ found ++ q) := by
  refine h _ fun s hs hne he => ?_
  rw [List.append_assoc] at he
  have hlen := congrArg List.length (List.append_cancel_left he)
  have hle := hs.length_le
  have hpos := List.length_pos_iff.mpr hne
  rw [List.length_append] at hlen
  rw [List.length_dropLast] at hle
  omega

theorem spares_clear (v : Volume) (p : Place) : Spares p v (v.clear p) := by
  intro r hr _
  rw [item?_clear, if_neg fun h => hr h.1]

/-- What clearing a directory does, whether it succeeds or not. -/
theorem spares_clearDir {r : Except Fault Unit} (hv : v.Sound) (hc : canonical v dir = .ok p)
    (hrun : Disk.on v (clearDir dir) = (r, w)) : Spares p v w ∧
      ∀ e, r = .error e → ∀ q, w.item? (p ++ q) = v.item? (p ++ q) := by
  cases hf : v.find .item dir with
  | error e =>
    obtain ⟨t, found, hnear, rfl⟩ := canonical_eq_ok hc
    rw [clearDir_of_error hf, Disk.on_io, Disk.createDirAll] at hrun
    cases hmade : Disk.on v (Disk.makeDirs (dir :: (Path.chain dir).drop 1)) with
    | mk r' u =>
      rw [hmade] at hrun
      obtain ⟨rfl, rfl⟩ := Prod.mk.inj hrun
      obtain ⟨halong, hfail⟩ := hnear.along hv (Path.ladder_chain dir) (Disk.makes_iff.mpr hmade)
      refine ⟨halong.spares, fun f hrf => ?_⟩
      cases r' with
      | ok => cases hrf
      | error e' => exact (hfail e' rfl).below
  | ok found =>
    obtain ⟨q, i⟩ := found
    rw [canonical_of_find hf] at hc
    cases hc
    cases i with
    | dir =>
      rw [clearDir_of_find hf] at hrun
      cases hrun
      exact ⟨spares_clear v p, fun e he => by cases he⟩
    | file | link =>
      simp only [Disk.on, ExceptT.run, clearDir, hf] at hrun
      cases hrun
      exact ⟨.refl p v, fun _ _ _ => rfl⟩

/-- Once a directory has been cleared, a directory is found at the path. -/
def Leaves (v : Volume) (dir path : Text) : Prop :=
  ∀ w, Disk.on v (clearDir dir) = (.ok (), w) → w.isDir path = true

theorem leaves_of_isDir (h : (Disk.on v (clearDir dir)).2.isDir path = true) : Leaves v dir path := by
  intro w hrun
  rwa [hrun] at h

theorem Leaves.undisturbed (h : Leaves v dir path) : Undisturbed v dir path := by
  intro p q hp hq
  obtain ⟨r, hr⟩ := Disk.find_of_isDir (h _ (clearDir_of_find hp))
  have hback := find_of_clear hr
  rw [hq] at hback
  cases hback
  exact hr

/-- A directory that has been cleared is found again, and nothing is in it. -/
theorem Leaves.cleared (h : Leaves v dir dir) (hv : v.Sound) (hc : canonical v dir = .ok p)
    (hrun : Disk.on v (clearDir dir) = (.ok (), w)) :
    Cleared v w dir p ∧ ∀ q, q ≠ [] → w.item? (p ++ q) = none := by
  obtain ⟨r, hr⟩ := Disk.find_of_isDir (h w hrun)
  have hcleared := (cleared_of_clearDir hv (find_ne_nil hr) h.undisturbed hc hrun).1
  refine ⟨hcleared, fun q hq => ?_⟩
  cases hf : v.find .item dir with
  | error e =>
    obtain ⟨t, found, hnear, rfl⟩ := canonical_eq_ok hc
    rw [clearDir_of_error hf] at hrun
    have hmakes := Disk.makes_iff.mpr (Disk.on_io_eq_ok hrun)
    have hladder := Path.ladder_chain dir
    have hnone := (hnear.built hv hladder hmakes).new (hnear.found_ne_nil (find_ne_nil hr) hf)
    rw [(hnear.along hv hladder hmakes).1 _ fun s hs _ he => ?_]
    · exact hv.absent_below hnone q
    · rw [List.append_assoc] at he
      have hlen := congrArg List.length (List.append_cancel_left he)
      have hle := hs.length_le
      have hpos := List.length_pos_iff.mpr hq
      rw [List.length_append] at hlen
      omega
  | ok found =>
    obtain ⟨s, i⟩ := found
    rw [canonical_of_find hf] at hc
    cases hc
    cases i with
    | dir =>
      rw [clearDir_of_find hf] at hrun
      cases hrun
      rw [item?_clear, if_pos ⟨List.prefix_append p q, fun he => hq (by simpa using he.symm)⟩]
    | file | link =>
      simp only [Disk.on, ExceptT.run, clearDir, hf] at hrun
      cases hrun

end Tree

end Patchwork
