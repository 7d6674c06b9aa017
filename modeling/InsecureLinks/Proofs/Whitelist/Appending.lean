import Mathlib
import InsecureLinks.Proofs.Whitelist.Listing

/-!
# Adding a line to a whitelist

A whitelist that is read still is when a path with a line number is put on a new line at its end, and
then it has one more entry (`ofText_append`).  The lines before it are as they were, with their
numbers: the one thing that may stand between them and the new line is an empty line, and a carriage
return at the end of the text makes one break with the line feed that is added.
-/

namespace InsecureLinks.Whitelist

/-- A line with a path and a number adds one entry to a whitelist that is read. -/
theorem ofText_append {w : Whitelist} {source content p : Text}
    (hread : ofText source content = .ok w) (hp : WhitelistEntry.IsPlainPath p) {n : ℕ} (hn : 1 ≤ n)
    (hdigits : (Text.natural n).length ≤ Literal.maxDigits) :
    ofText source (content ++ '\n' :: (p ++ ':' :: Text.natural n)) =
      .ok (w.withEntries [⟨p, some (n : ℤ), none⟩]) := by
  have he := hp.isPlain hn hdigits
  have hspells := he.spells_text
  rw [WhitelistEntry.text_natural] at hspells
  obtain ⟨gap, hgap, hlines⟩ :=
    Text.wideLines_append (by simp) (hspells.not_isWideBreak he) content
  have hpassed : ∀ line ∈ gap, IsPassedOver line := fun line hline => .inl (by rw [hgap line hline]; rfl)
  rw [ofText, hlines, addLines_append, ← ofText, hread]
  change addLines w _ (gap ++ [_]) = _
  rw [addLines_append, addLines_of_isPassedOver hpassed]
  change addLines w _ [_] = _
  rw [addLines, addLine_of_spells he hspells]
  rfl

/-- One line that is no entry and ends in a carriage return. -/
def malformed : Text := "a:x\r".toList

/-- What is read from it. -/
def oneMalformed : Whitelist :=
  ⟨[], [], [.malformedEntry [] (WhitelistEntry.Fault.notANumber "a:x".toList).message 1]⟩

theorem ofText_malformed : ofText [] malformed = .ok oneMalformed := rfl

end InsecureLinks.Whitelist
