import Patchwork.Proofs.Patch.PrintedLines

/-!
# Hunk headers

The four numbers that a printed hunk header holds are read back from it.
-/
namespace Patchwork

open Text (Line)

namespace Text

theorem isDecimalDigit_comma : isDecimalDigit ',' = false := by
  rw [isDecimalDigit, ← Array.any_toList]
  rfl

theorem isDecimalDigit_space : isDecimalDigit ' ' = false := by
  rw [isDecimalDigit, ← Array.any_toList]
  rfl

theorem Decimal.isDecimalDigit_of_mem_digits {n : Nat} :
    ∀ c ∈ Decimal.digits n, isDecimalDigit c = true := fun c hc =>
  isDecimalDigit_of_isDigit (List.all_eq_true.mp (Decimal.all_isDigit_digits n) c hc)

theorem Decimal.word?_digits {n : Nat} (h : n < UInt64.size) : Decimal.word? (digits n) = some n := by
  rw [word?, value?_digits, Option.filter_some, if_pos (decide_eq_true h)]

end Text

namespace Hunk

theorem Range.read?_digits (a b : Nat) {t : Text} (ht : ∀ c ∈ t.head?, Text.isDecimalDigit c = false) :
    Range.read? (Text.Decimal.digits a ++ ',' :: (Text.Decimal.digits b ++ t)) =
      some (⟨Text.Decimal.digits a, some (Text.Decimal.digits b)⟩, t) := by
  have hcomma : ∀ c ∈ (',' :: (Text.Decimal.digits b ++ t)).head?, Text.isDecimalDigit c = false := by
    rintro c ⟨⟩
    exact Text.isDecimalDigit_comma
  unfold Range.read?
  rw [Text.takeWhile_append_of_head? Text.Decimal.isDecimalDigit_of_mem_digits hcomma,
    Text.dropWhile_append_of_head? Text.Decimal.isDecimalDigit_of_mem_digits hcomma]
  simp only [Text.takeWhile_append_of_head? Text.Decimal.isDecimalDigit_of_mem_digits ht,
    Text.dropWhile_append_of_head? Text.Decimal.isDecimalDigit_of_mem_digits ht,
    Text.Decimal.digits_ne_nil, if_false]

theorem not_endsLine_headerText (h : Hunk) : ∀ c ∈ h.headerText.getLast?, Text.endsLine c = false := by
  intro c hc
  unfold headerText at hc
  rw [List.getLast?_append] at hc
  cases hc
  rfl

/-- The numbers are read whatever stands behind them in the line. -/
theorem ranges?_of_body {h : Hunk} {l : Line} {rest : Text} (hl : Text.body l = h.headerText ++ rest) :
    ranges? l =
      some (⟨Text.Decimal.digits h.sourceStart, some (Text.Decimal.digits h.sourceCount)⟩,
        ⟨Text.Decimal.digits h.destStart, some (Text.Decimal.digits h.destCount)⟩) := by
  have hdest : ∀ c ∈ (" @@".toList ++ rest).head?, Text.isDecimalDigit c = false := by
    rintro c ⟨⟩
    exact Text.isDecimalDigit_space
  have hsource (t : Text) : ∀ c ∈ (" +".toList ++ t).head?, Text.isDecimalDigit c = false := by
    rintro c ⟨⟩
    exact Text.isDecimalDigit_space
  have htext : h.headerText ++ rest = "@@ -".toList ++ (Text.Decimal.digits h.sourceStart ++ ',' ::
      (Text.Decimal.digits h.sourceCount ++ (" +".toList ++ (Text.Decimal.digits h.destStart ++ ',' ::
        (Text.Decimal.digits h.destCount ++ (" @@".toList ++ rest)))))) := by
    unfold headerText
    simp only [List.append_assoc, List.cons_append, List.nil_append]
  unfold ranges?
  rw [hl, htext, Text.isPrefixOf?_append]
  dsimp only [Option.bind_eq_bind, Option.bind_some]
  rw [Range.read?_digits _ _ (hsource _)]
  dsimp only [Option.bind_some]
  rw [Text.isPrefixOf?_append]
  dsimp only [Option.bind_some]
  rw [Range.read?_digits _ _ hdest]
  dsimp only [Option.bind_some]
  rw [Text.isPrefixOf?_append]
  rfl

theorem ranges?_headerLine (h : Hunk) :
    ranges? h.headerLine =
      some (⟨Text.Decimal.digits h.sourceStart, some (Text.Decimal.digits h.sourceCount)⟩,
        ⟨Text.Decimal.digits h.destStart, some (Text.Decimal.digits h.destCount)⟩) := by
  have hbody : Text.body h.headerLine = h.headerText ++ [] := by
    rw [headerLine_eq, Text.body_append_feed h.not_endsLine_headerText, List.append_nil]
  exact ranges?_of_body hbody

theorem ofRanges?_digits {h : Hunk} (hp : h.Printable) :
    ofRanges? ⟨Text.Decimal.digits h.sourceStart, some (Text.Decimal.digits h.sourceCount)⟩
        ⟨Text.Decimal.digits h.destStart, some (Text.Decimal.digits h.destCount)⟩ =
      some { h with lines := [] } := by
  unfold ofRanges?
  rw [Text.Decimal.word?_digits hp.sourceStart, Text.Decimal.word?_digits hp.destStart]
  dsimp only [Option.bind_eq_bind, Option.bind_some, Option.elim]
  rw [Text.Decimal.word?_digits hp.sourceCount, Text.Decimal.word?_digits hp.destCount]
  rfl

end Hunk

end Patchwork
