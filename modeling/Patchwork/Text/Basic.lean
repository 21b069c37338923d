/-!
# Text and bytes

Text is a list of characters and content a list of bytes, so that splitting, joining and comparing
are the list operations.
-/
namespace Patchwork

abbrev Text := List Char

abbrev Bytes := List UInt8

instance : LawfulBEq Text := List.instLawfulBEq

namespace Text

def str (t : Text) : String := String.ofList t

/-- Without the characters at the end that satisfy `p`. -/
def dropEnd (p : Char → Bool) (t : Text) : Text := (t.reverse.dropWhile p).reverse

/-- Without the characters at either end that satisfy `p`. -/
def dropBoth (p : Char → Bool) (t : Text) : Text := dropEnd p (t.dropWhile p)

/-- The text before the last `c`, and the text after it. -/
def cutLast? (c : Char) (t : Text) : Option (Text × Text) :=
  if c ∈ t then
    let after := t.reverse.takeWhile (· ≠ c)
    some ((t.reverse.drop (after.length + 1)).reverse, after.reverse)
  else none

/-- Byte order of the encoded texts, which is the order of their code points. -/
def before : Text → Text → Bool
  | [], _ => true
  | _ :: _, [] => false
  | a :: s, b :: t => if a = b then before s t else a.toNat < b.toNat

theorem before_refl (s : Text) : before s s = true := by
  induction s with
  | nil => rfl
  | cons a s ih => simp [before, ih]

theorem eq_of_before {s t : Text} (hst : before s t = true) (hts : before t s = true) : s = t := by
  induction s generalizing t with
  | nil => cases t with
    | nil => rfl
    | cons b t => simp [before] at hts
  | cons a s ih => cases t with
    | nil => simp [before] at hst
    | cons b t =>
      by_cases h : a = b
      · subst h
        simp only [before, if_true] at hst hts
        rw [ih hst hts]
      · have h' : ¬ b = a := fun e => h e.symm
        simp only [before, h, h', if_false, decide_eq_true_eq] at hst hts
        omega

/-- Sorted by bytes. -/
def sort (ts : List Text) : List Text := ts.mergeSort before

end Text

end Patchwork
