/-!
# Text — blanks

The six characters an expression may put between its tokens, and nothing else: a no-break
space, say, is no blank.  `skipBlanks` drops a leading run of them; what is left never begins
with one (`isBlank_head_skipBlanks`), so skipping twice is skipping once
(`skipBlanks_skipBlanks`).
-/

namespace Abacus.Text

/-- Space, tab, line feed, carriage return, form feed and vertical tab. -/
def isBlank (c : Char) : Bool :=
  c == ' ' || c == '\t' || c == '\n' || c == '\r' || c == '\x0c' || c == '\x0b'

/-- A text without its leading blanks. -/
def skipBlanks (s : List Char) : List Char := s.dropWhile isBlank

theorem length_skipBlanks_le : ∀ s : List Char, (skipBlanks s).length ≤ s.length
  | [] => Nat.le_refl _
  | c :: s => by
      unfold skipBlanks
      rw [List.dropWhile_cons]
      split
      · exact Nat.le_succ_of_le (length_skipBlanks_le s)
      · exact Nat.le_refl _

theorem isBlank_head_skipBlanks :
    ∀ {s : List Char} {c : Char} {r : List Char}, skipBlanks s = c :: r → isBlank c = false
  | [], _, _, h => by simp [skipBlanks] at h
  | a :: s, c, r, h => by
      unfold skipBlanks at h
      rw [List.dropWhile_cons] at h
      split at h
      · exact isBlank_head_skipBlanks (s := s) h
      · next ha => cases h; simpa using ha

/-- Characters consumed by taking the first one after the blanks. -/
theorem length_lt_of_skipBlanks {s : List Char} {c : Char} {r : List Char}
    (h : skipBlanks s = c :: r) : r.length < s.length := by
  have hle := length_skipBlanks_le s
  rw [h] at hle
  exact hle

theorem skipBlanks_skipBlanks (s : List Char) : skipBlanks (skipBlanks s) = skipBlanks s := by
  cases h : skipBlanks s with
  | nil => rfl
  | cons c r => simp [skipBlanks, isBlank_head_skipBlanks h]

end Abacus.Text
