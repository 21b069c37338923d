import Patchwork.Text.Basic

/-!
# Lines

A line keeps the line feed that ends it, and only the last line of a text may lack one.  Cutting a
text into lines loses nothing (`flatten_lines`), and every line is one (`isLine_of_mem_lines`).
-/
namespace Patchwork.Text

abbrev Line := Text

/-- The lines of a text, each with its line feed. -/
def lines (t : Text) : List Line :=
  t.foldr (fun c ls => if c = '\n' then [c] :: ls else match ls with
    | [] => [[c]]
    | l :: ls => (c :: l) :: ls) []

@[simp] theorem lines_nil : lines [] = [] := rfl

theorem lines_cons (c : Char) (t : Text) :
    lines (c :: t) = if c = '\n' then [c] :: lines t else match lines t with
      | [] => [[c]]
      | l :: ls => (c :: l) :: ls := rfl

theorem flatten_lines (t : Text) : (lines t).flatten = t := by
  induction t with
  | nil => rfl
  | cons c t ih =>
    rw [lines_cons]
    split
    · simp [ih]
    · split
      · next h => simp_all
      · next h => rw [h] at ih; simp_all

/-- Not empty, and without a line feed before its last character. -/
def IsLine (l : Text) : Prop := l ≠ [] ∧ '\n' ∉ l.dropLast

theorem isLine_of_mem_lines {t : Text} {l : Line} (h : l ∈ lines t) : IsLine l := by
  induction t generalizing l with
  | nil => simp at h
  | cons c t ih =>
    rw [lines_cons] at h
    split at h
    · rcases List.mem_cons.1 h with rfl | h
      · simp [IsLine]
      · exact ih h
    · next hc =>
      split at h
      · rw [List.mem_singleton.1 h]; simp [IsLine]
      · next m ls hm =>
        rcases List.mem_cons.1 h with rfl | h
        · obtain ⟨hne, hnl⟩ := ih (by rw [hm]; exact List.mem_cons_self)
          refine ⟨by simp, ?_⟩
          rw [List.dropLast_cons_of_ne_nil hne]
          simp only [List.mem_cons, not_or]
          exact ⟨fun e => hc e.symm, hnl⟩
        · exact ih (by rw [hm]; exact List.mem_cons_of_mem _ h)

def endsLine (c : Char) : Bool := c == '\n' || c == '\r'

/-- A line without its line feeds and carriage returns at the end. -/
def body (l : Line) : Text := dropEnd endsLine l

/-- Whether the line ends with a line feed. -/
def terminated (l : Line) : Bool := l.getLast? == some '\n'

/-- A line without its line feed. -/
def unterminated (l : Line) : Text := if terminated l then l.dropLast else l

end Patchwork.Text
