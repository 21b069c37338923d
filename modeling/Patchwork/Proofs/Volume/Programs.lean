import Mathlib
import Patchwork.Volume.Disk

/-!
# Runs of programs

A program that is put together from others runs well just when its parts do, one after the other.
-/
namespace Patchwork.Disk

variable {ε α β : Type} {v w : Volume} {a : α} {b : β}

theorem on_bind_cases {d : Disk ε α} {f : α → Disk ε β} {r : Except ε β}
    (h : on v (d >>= f) = (r, w)) : (∃ e, on v d = (.error e, w) ∧ r = .error e) ∨
      ∃ a u, on v d = (.ok a, u) ∧ on u (f a) = (r, w) := by
  rw [on_bind] at h
  split at h
  · next a u hd => exact .inr ⟨a, u, hd, h⟩
  · next e u hd =>
    cases h
    exact .inl ⟨e, hd, rfl⟩

theorem on_bind_eq_ok {d : Disk ε α} {f : α → Disk ε β} (h : on v (d >>= f) = (.ok b, w)) :
    ∃ a u, on v d = (.ok a, u) ∧ on u (f a) = (.ok b, w) := by
  rw [on_bind] at h
  split at h
  · next a u hd => exact ⟨a, u, hd, h⟩
  · cases h

/-- What two programs answer one after the other. -/
theorem on_both_eq_ok {d : Disk ε α} {f : Disk ε β}
    (h : (on v (d >>= fun a => f >>= fun b => pure (a, b))).1 = .ok (a, b)) :
    ∃ u w, on v d = (.ok a, u) ∧ on u f = (.ok b, w) := by
  obtain ⟨a', u, hd, hf⟩ := on_bind_eq_ok (Prod.ext h rfl)
  obtain ⟨b', w, hf, hpure⟩ := on_bind_eq_ok hf
  cases hpure
  exact ⟨u, _, hd, hf⟩

theorem on_bind_of_ok {d : Disk ε α} {f : α → Disk ε β} (h : on v d = (.ok a, w)) :
    on v (d >>= f) = on w (f a) := by
  rw [on_bind, h]

/-- Programs that go on alike behind the same program do the same. -/
theorem on_bind_congr {d : Disk ε α} {f g : α → Disk ε β}
    (h : ∀ a u, on v d = (.ok a, u) → on u (f a) = on u (g a)) : on v (d >>= f) = on v (d >>= g) := by
  rw [on_bind, on_bind]
  cases hd : on v d with
  | mk r u =>
    cases r with
    | ok a => exact h a u hd
    | error e => rfl

theorem on_ask_eq_ok {f : Volume → Except ε α} (h : on v (ask f) = (.ok a, w)) : f v = .ok a ∧ v = w :=
  Prod.mk.inj h

theorem on_ofExcept_eq_ok {r : Except ε α} (h : on v (ofExcept r) = (.ok a, w)) :
    r = .ok a ∧ v = w := Prod.mk.inj h

theorem on_bind_eq_error {d : Disk ε α} {f : α → Disk ε β} {e : ε}
    (h : on v (d >>= f) = (.error e, w)) :
    on v d = (.error e, w) ∨ ∃ a u, on v d = (.ok a, u) ∧ on u (f a) = (.error e, w) := by
  rw [on_bind] at h
  split at h
  · next a u hd => exact Or.inr ⟨a, u, hd, h⟩
  · next e' u hd =>
    cases h
    exact Or.inl hd

theorem on_io (d : Disk IoError α) : on v (io d) = ((on v d).1.mapError Fault.io, (on v d).2) := by
  simp only [on, io, ExceptT.run, ExceptT.adapt, ExceptT.mk]
  rfl

theorem on_io_of_ok {d : Disk IoError α} (h : on v d = (.ok a, w)) : on v (io d) = (.ok a, w) := by
  rw [on_io, h]
  rfl

theorem on_io_eq_ok {d : Disk IoError α} (h : on v (io d) = (.ok a, w)) : on v d = (.ok a, w) := by
  rw [on_io] at h
  cases hd : on v d with
  | mk r u =>
    rw [hd] at h
    cases r with
    | ok => cases h; rfl
    | error => cases h

theorem on_naming (path : Text) (d : Disk IoError α) :
    on v (naming path d) = ((on v d).1.mapError (Fault.ofIo path), (on v d).2) := by
  simp only [on, naming, ExceptT.run, ExceptT.adapt, ExceptT.mk]
  rfl

theorem on_naming_of_ok {path : Text} {d : Disk IoError α} (h : on v d = (.ok a, w)) :
    on v (naming path d) = (.ok a, w) := by
  rw [on_naming, h]
  rfl

theorem on_naming_eq_ok {path : Text} {d : Disk IoError α} (h : on v (naming path d) = (.ok a, w)) :
    on v d = (.ok a, w) := by
  rw [on_naming] at h
  cases hd : on v d with
  | mk r u =>
    rw [hd] at h
    cases r with
    | ok => cases h; rfl
    | error => cases h

theorem on_io_eq_error {d : Disk IoError α} {f : Fault} (h : on v (io d) = (.error f, w)) :
    ∃ e, on v d = (.error e, w) := by
  rw [on_io] at h
  cases hd : on v d with
  | mk r u =>
    rw [hd] at h
    cases r with
    | ok => cases h
    | error e => cases h; exact ⟨e, rfl⟩

theorem on_outcome_ask {f : Volume → Except ε α} :
    on v (outcome (ask f)) = (.ok (f v), v) := rfl

end Patchwork.Disk
