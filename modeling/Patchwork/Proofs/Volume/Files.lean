import Patchwork.Proofs.Volume.MakeDirs

/-!
# Files by their places

What stands at a place, if it is a file.
-/
namespace Patchwork.Volume

variable {v w : Volume} {p : Place} {c : Bytes}

/-- What the file at a place holds, if there is one. -/
def file? (v : Volume) (p : Place) : Option Bytes :=
  match v.item? p with
  | some (.file content) => some content
  | _ => none

theorem file?_eq_some_iff {c : Bytes} : v.file? p = some c ↔ v.item? p = some (.file c) := by
  unfold file?
  split
  · next content hi =>
    rw [hi, Option.some.injEq, Option.some.injEq, Item.file.injEq]
  · next hne => exact ⟨nofun, fun h => absurd h (hne c)⟩

theorem file?_put (hne : p ≠ []) (q : Place) :
    (v.put p (.file c)).file? q = if q = p then some c else v.file? q := by
  by_cases hq : q = p
  · rw [if_pos hq, file?_eq_some_iff, item?_put v p q _ hne, if_pos hq]
  · rw [if_neg hq, file?, file?, item?_put v p q _ hne, if_neg hq]

theorem Grows.file? (hg : Grows v w) (hdirs : Disk.OnlyDirs v w) (p : Place) :
    w.file? p = v.file? p := by
  cases hv : v.item? p with
  | some i => rw [Volume.file?, Volume.file?, hv, hg.kept p i hv]
  | none => rcases hdirs p hv with hw | hw <;> rw [Volume.file?, Volume.file?, hv, hw]

end Patchwork.Volume
