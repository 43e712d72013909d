import Abacus.Proofs.Grammar.Calls

/-!
# Grammar — looking ahead commits to nothing

A cursor that is asked for the next character, for the end, or for characters that do not follow
takes nothing, but it goes on over the blanks before it.

* `readStage_skip`: that makes no difference to a reading, since whatever is read begins by looking
  at the next character or by trying to take it.
* `perform_skip`: nor does it make one to any call but `readNumeral`.
* `after_looking`: calls that only look leave a cursor where it is, or behind its blanks.
* `perform_after_looking`: hence a call answers as if nothing had been looked at before.

A numeral does not skip the blanks before it, so one that is not read before a look may be read
after it.
-/

namespace Abacus.Grammar
open Text

namespace Cursor

variable {α β : Type} {c : Cursor}

/-! ### Behind the blanks -/

@[simp] theorem skip_skip (c : Cursor) : c.skip.skip = c.skip := by
  rw [skip, rest_skip, skipBlanks_skipBlanks]
  rfl

@[simp] theorem peek_skip (c : Cursor) : c.skip.peek = c.peek := by
  rw [peek, rest_skip, skipBlanks_skipBlanks, skip_skip]
  rfl

@[simp] theorem atEnd_skip (c : Cursor) : c.skip.atEnd = c.atEnd := by
  rw [atEnd, peek_skip]
  rfl

@[simp] theorem next_skip (c : Cursor) : c.skip.next = c.next := by
  rw [next, next, rest_skip, skipBlanks_skipBlanks, skip_skip]
  rfl

@[simp] theorem takeAny_skip (chars : List Char) (c : Cursor) :
    c.skip.takeAny chars = c.takeAny chars := by
  rw [takeAny, peek_skip]
  rfl

@[simp] theorem readClose_skip (c : Cursor) : c.skip.readClose = c.readClose := by
  have hrest : skipBlanks c.skip.rest = skipBlanks c.rest := by
    rw [rest_skip, skipBlanks_skipBlanks]
  by_cases h : ∃ r, skipBlanks c.rest = ')' :: r
  · obtain ⟨r, h⟩ := h
    rw [readClose_ok h, readClose_ok (hrest.trans h)]
    rfl
  · rw [readClose_error fun r hr => h ⟨r, hr⟩,
      readClose_error fun r hr => h ⟨r, hrest.symm.trans hr⟩, hrest]
    rfl

/-! ### Readings -/

/-- The blanks before a cursor make no difference to what is done at it. -/
def SkipsFirst (x : Action α) : Prop := ∀ c, x c.skip = x c

/-- It is the first thing done that has to skip them. -/
theorem SkipsFirst.bind {x : Action α} (h : SkipsFirst x) (f : α → Action β) :
    SkipsFirst (x >>= f) := by
  intro c
  change ExceptT.bindCont f (x c.skip).1 (x c.skip).2 = ExceptT.bindCont f (x c).1 (x c).2
  rw [h c]

theorem skipsFirst_look : SkipsFirst look := by
  intro c
  rw [look, peek_skip]
  rfl

theorem skipsFirst_takeOne (chars : List Char) : SkipsFirst (takeOne chars) := by
  intro c
  rw [takeOne, takeAny_skip]
  rfl

theorem skipsFirst_primary : SkipsFirst (readStage .primary) := by
  rw [readStage_primary]
  exact skipsFirst_look.bind _

/-- A chain begins with its first operand, and goes on with an operator. -/
theorem skipsFirst_operand : ∀ l : Level, SkipsFirst (readStage l.operand)
  | .term       => skipsFirst_primary
  | .expression => by
      change SkipsFirst (readStage (.level .term))
      rw [readStage_level]
      exact skipsFirst_primary.bind _

/-- Every stage skips the blanks before it. -/
theorem readStage_skip (st : Stage) : SkipsFirst (readStage st) := by
  cases st with
  | primary => exact skipsFirst_primary
  | level l =>
      rw [readStage_level]
      exact (skipsFirst_operand l).bind _
  | further l left =>
      intro c
      rw [readStage_further, readStage_further]
      exact (skipsFirst_takeOne _).bind _ c

theorem ask_skip (c : Cursor) {k : Call} (hk : k ≠ .readNumeral) :
    c.skip.ask k = c.ask k := by
  cases k with
  | peek => simp only [ask, peek_skip]
  | atEnd => simp only [ask, atEnd_skip]
  | next => simp only [ask, next_skip]
  | takeAny chars => simp only [ask, takeAny_skip]
  | readClose => simp only [ask, readClose_skip]
  | readNumeral => exact absurd rfl hk
  | readPrimary =>
      simp only [ask, readPrimary_eq]
      exact congrArg replyTree (readStage_skip .primary c)
  | readTerm =>
      simp only [ask, readTerm_eq]
      exact congrArg replyTree (readStage_skip (.level .term) c)
  | readExpression =>
      simp only [ask, readExpression_eq]
      exact congrArg replyTree (readStage_skip (.level .expression) c)

/-- **The blanks before a cursor make no difference to a call**, unless it reads a numeral. -/
theorem perform_skip (c : Cursor) {k : Call} (hk : k ≠ .readNumeral) :
    c.skip.perform k = c.perform k := by
  rw [perform, perform, ask_skip c hk]

/-! ### Calls that only look -/

/-- A call that only looks: at the next character, for the end, or for characters none of which
follows. -/
inductive Looks (c : Cursor) : Call → Prop where
  | peek : Looks c .peek
  | atEnd : Looks c .atEnd
  | takeAny {chars : List Char} : (c.takeAny chars).1 = none → Looks c (.takeAny chars)

/-- The cursor after a row of calls. -/
def after (c : Cursor) : List Call → Cursor
  | []      => c
  | k :: ks => (c.perform k).2.after ks

/-- A row of calls each of which only looks, at the cursor that those before it leave. -/
inductive OnlyLooks : Cursor → List Call → Prop where
  | nil {c : Cursor} : OnlyLooks c []
  | cons {c : Cursor} {k : Call} {ks : List Call} :
      Looks c k → OnlyLooks (c.perform k).2 ks → OnlyLooks c (k :: ks)

theorem performAll_append (ks ks' : List Call) : ∀ c : Cursor,
    c.performAll (ks ++ ks') = c.performAll ks ++ (c.after ks).performAll ks' := by
  induction ks with
  | nil => exact fun _ => rfl
  | cons k ks ih => exact fun c => congrArg (c.perform k :: ·) (ih (c.perform k).2)

/-- A look leaves the cursor behind the blanks. -/
theorem Looks.perform_eq {k : Call} (h : Looks c k) : (c.perform k).2 = c.skip := by
  cases h with
  | peek | atEnd => rfl
  | @takeAny chars h =>
      rw [takeAny_eq] at h
      change (c.ask (.takeAny chars)).2 = c.skip
      simp only [ask, takeAny_eq]
      split at h
      · split at h
        · cases h
        · next hmark => rw [if_neg hmark]
      · rfl

/-- And so do any number of them. -/
theorem after_looking {looks : List Call} (h : OnlyLooks c looks) :
    c.after looks = c ∨ c.after looks = c.skip := by
  induction h with
  | nil => exact .inl rfl
  | @cons c k ks hk _ ih =>
      rw [hk.perform_eq, skip_skip, or_self] at ih
      exact .inr (by rw [after, hk.perform_eq, ih])

/-- **Looking ahead commits to nothing.**  After any row of calls that only look, whatever the
cursor, a call that reads no numeral gives the reply it would have given without them, error and
place included, and leaves the cursor where it would have left it, with the same count.  So the
calls behind it go on as they would have gone on. -/
theorem perform_after_looking {looks : List Call} (h : OnlyLooks c looks) {k : Call}
    (hk : k ≠ .readNumeral) :
    (c.after looks).perform k = c.perform k ∧
      ∀ ks, c.performAll (looks ++ k :: ks) = c.performAll looks ++ c.performAll (k :: ks) := by
  have hone : (c.after looks).perform k = c.perform k := by
    rcases after_looking h with h | h
    · rw [h]
    · rw [h, perform_skip c hk]
  refine ⟨hone, fun ks => ?_⟩
  rw [performAll_append, performAll, performAll, hone]

/-- The group of ` (2 ` is not closed, and the error stands at the end of the text however often the
cursor looks before it reads. -/
theorem perform_after_looking_unclosed :
    let c : Cursor := start " (2 ".toList true 100
    let looks : List Call := [.peek, .takeAny ['+', '-'], .atEnd, .peek]
    OnlyLooks c looks ∧ Call.readPrimary ≠ .readNumeral ∧
      c.perform .readPrimary =
        (.failed ⟨.expectedCloseParen, 4⟩, { c with pos := 4, depth := 1 }) ∧
      (c.after looks).perform .readPrimary = c.perform .readPrimary ∧
      c.performAll (looks ++ [.readPrimary, .atEnd]) =
        c.performAll looks ++ c.performAll [.readPrimary, .atEnd] := by
  intro c looks
  have hlooks : OnlyLooks c looks :=
    .cons .peek (.cons (.takeAny rfl) (.cons .atEnd (.cons .peek .nil)))
  have hread : Reads true 100 .primary " (2 ".toList (.error ⟨.expectedCloseParen, [], 99⟩) :=
    .unclosed (r := "2 ".toList) (u := []) rfl (by decide)
      (Reads.lone (k := [' ']) (.numeral rfl) (by rintro (_ | _) _ ⟨⟩))
      (by simp [skipBlanks])
  have hfail : c.perform .readPrimary =
      (.failed ⟨.expectedCloseParen, 4⟩, { c with pos := 4, depth := 1 }) :=
    perform_of_reads (c := c) hread
  have hcall : Call.readPrimary ≠ .readNumeral := by decide
  obtain ⟨hone, hall⟩ := perform_after_looking hlooks hcall
  exact ⟨hlooks, hcall, hfail, hone, hall [.atEnd]⟩

/-- Not so a numeral: it is read behind the blanks that a look has skipped, and not before them. -/
example :
    let c : Cursor := start " 7".toList true 100
    c.perform .readNumeral = (.failed ⟨.expectedNumber, 0⟩, c) ∧
      (c.after [.peek]).perform .readNumeral =
        (.tree (.const (Numeral.value ⟨[7], [], 0⟩)), { c with pos := 2 }) := ⟨rfl, rfl⟩

end Cursor

end Abacus.Grammar
