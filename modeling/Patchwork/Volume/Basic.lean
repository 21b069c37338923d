import Patchwork.Text.Basic

/-!
# Volumes

A volume holds files, directories and symbolic links.  Each stands at a place, the list of names that
leads there from the root, and the root itself is always a directory.  A file that was opened can be
read after it is taken away: what is written to its place later belongs to another file.
-/
namespace Patchwork

inductive Item
  | file (content : Bytes)
  | dir
  | link (target : Text)
  deriving DecidableEq, Repr

abbrev Place := List Text

structure Volume where
  items : List (Place × Item)
  /-- Where relative paths start. -/
  here : Place
  /-- The files that were taken away, with what they held in the end, the latest first. -/
  lost : List (Place × Bytes)
  /-- How many names were given to temporary files. -/
  serial : Nat

/-- A file that was opened: the place where it stood, and how many files were lost by then. -/
structure Opened where
  place : Place
  lostBefore : Nat
  deriving DecidableEq, Repr

namespace Volume

def empty : Volume := ⟨[], [], [], 0⟩

/-- What stands at a place. -/
def item? (v : Volume) (p : Place) : Option Item :=
  if p = [] then some .dir else (v.items.find? (·.1 == p)).map (·.2)

/-- Puts an item at a place, instead of the one that was there. -/
def put (v : Volume) (p : Place) (i : Item) : Volume :=
  { v with items := (p, i) :: v.items.filter (·.1 != p) }

/-- Takes away what stands at some places. -/
def remove (v : Volume) (gone : Place → Bool) : Volume :=
  { v with
    items := v.items.filter fun q => !gone q.1
    lost := (v.items.filterMap fun q =>
      match q.2 with
      | .file content => if gone q.1 then some (q.1, content) else none
      | _ => none) ++ v.lost }

/-- Takes away what stands at a place or below it. -/
def erase (v : Volume) (p : Place) : Volume := v.remove fun q => p.isPrefixOf q

/-- The file that now stands at a place. -/
def opened (v : Volume) (p : Place) : Opened := ⟨p, v.lost.length⟩

/-- What a file that was opened holds: what it held in the end if it is lost since then, and else what
it holds now. -/
def contentOf (v : Volume) (o : Opened) : Bytes :=
  match (v.lost.take (v.lost.length - o.lostBefore)).reverse.find? (·.1 = o.place) with
  | some q => q.2
  | none => match v.item? o.place with
    | some (.file content) => content
    | _ => []

/-- What stands below a place, with the way there from it. -/
def below (v : Volume) (p : Place) : List (Place × Item) :=
  v.items.filterMap fun q =>
    match p.isPrefixOf? q.1 with
    | some (name :: names) => some (name :: names, q.2)
    | _ => none

/-- Order of places: directories before what they hold, and names by their bytes. -/
def placeBefore : Place → Place → Bool
  | [], _ => true
  | _ :: _, [] => false
  | a :: p, b :: q => if a = b then placeBefore p q else Text.before a b

/-- What stands below a place, each directory followed by what it holds. -/
def listing (v : Volume) (p : Place) : List (Place × Item) :=
  (v.below p).mergeSort fun a b => placeBefore a.1 b.1

/-- Every place has a directory above it, and no place is listed twice. -/
structure Sound (v : Volume) : Prop where
  nodup : (v.items.map (·.1)).Nodup
  proper : ∀ q ∈ v.items, q.1 ≠ []
  inDirectory : ∀ q ∈ v.items, v.item? q.1.dropLast = some .dir

theorem item?_put (v : Volume) (p q : Place) (i : Item) (hp : p ≠ []) :
    (v.put p i).item? q = if q = p then some i else v.item? q := by
  by_cases hq : q = []
  · subst hq
    simp [item?, hp.symm]
  · by_cases h : q = p
    · subst h
      simp [item?, put, hq]
    · have h' : (p == q) = false := beq_eq_false_iff_ne.2 fun e => h e.symm
      simp only [item?, put, hq, h, if_false, List.find?_cons, h']
      congr 1
      rw [List.find?_filter]
      congr 1
      funext a
      by_cases ha : a.1 = q
      · simp [ha, h]
      · simp [ha]

theorem item?_erase (v : Volume) (p q : Place) (hp : p ≠ []) :
    (v.erase p).item? q = if p.isPrefixOf q then none else v.item? q := by
  by_cases hq : q = []
  · subst hq
    cases p with
    | nil => exact absurd rfl hp
    | cons a p => simp [item?, List.isPrefixOf]
  · simp only [item?, erase, remove, hq, if_false, List.find?_filter]
    split
    · next h =>
      simp only [Option.map_eq_none_iff, List.find?_eq_none]
      intro a _ ha
      simp only [Bool.not_eq_true', decide_eq_true_eq, beq_iff_eq] at ha
      simp [ha.2 ▸ ha.1] at h
    · next h =>
      congr 2
      funext a
      by_cases ha : a.1 = q
      · simp [ha, h]
      · simp [ha]

end Volume

end Patchwork
