import Abacus.Grammar.Cursor
import Abacus.Proofs.Grammar.Prefix

/-!
# Grammar — a cursor under calls

A cursor is asked for one thing after another, and goes on after a failure with the count of
nesting where the failure left it.

* `readPrimary_eq` and its like: what is read at a cursor is read from its rest, in its room.
* `room_of_stop`: how much room a run had where it stopped.  Only openings take room away, and none
  is entered without some, so a run that stops for want of room stops right behind the opening.
* `perform_proceeds`: one call.  The place does not go back, and the count changes only when
  something entered was not left again.
* `session_performAll`: hence any row of calls, `session_start` from the beginning of a text.

The count may be above the limit after a nesting error.  The room is below zero then, and the
next opening takes it one further down.  Where the limit cannot be written, its refusal is raised in
place of every nesting error, and of no other; the cursor is left as the nesting error would leave
it.
-/

namespace Abacus.Grammar
open Text

variable {extended : Bool} {room : Int}

/-- A run that stops for want of room is one level beyond all it had.  One that stops for another
reason has entered no more than it had room for. -/
theorem room_of_stop {st : Stage} {s : List Char} {o : Outcome} (h : Reads extended room st s o) :
    ∀ {e}, o = .error e → (e.reason = .tooDeep → e.room = min room 0 - 1) ∧
      (e.reason ≠ .tooDeep → min room 0 ≤ e.room ∧ e.room ≤ room) := by
  induction h with
  | numeral | neg | group | stop => rintro _ ⟨⟩
  | noNumeral => rintro _ ⟨⟩; exact ⟨nofun, fun _ => ⟨Int.min_le_left _ _, Int.le_refl _⟩⟩
  | tooDeep _ _ hr =>
      rintro _ ⟨⟩
      exact ⟨fun _ => by simp only; omega, fun hne => absurd rfl hne⟩
  | inside _ _ hr _ ih =>
      intro e he
      obtain ⟨hdeep, hother⟩ := ih he
      exact ⟨fun h => by have := hdeep h; omega, fun h => by have := hother h; omega⟩
  | unclosed _ hr _ _ _ => rintro _ ⟨⟩; exact ⟨nofun, fun _ => by simp only; omega⟩
  | first _ ih | operand _ _ _ ih => rintro _ ⟨⟩; exact ih rfl
  | chain _ _ _ ih | more _ _ _ _ _ ih => exact fun he => ih he

namespace Cursor

variable {c : Cursor}

/-! ### Moving on -/

theorem length_rest (c : Cursor) : c.rest.length = c.source.length - c.pos := List.length_drop

theorem le_pos_goTo {r : List Char} (hc : c.pos ≤ c.source.length) (hr : r <:+ c.rest) :
    c.pos ≤ (c.goTo r).pos := by
  have hle := hr.length_le
  rw [length_rest] at hle
  change c.pos ≤ c.source.length - r.length
  omega

theorem rest_goTo {r : List Char} (hr : r <:+ c.rest) : (c.goTo r).rest = r :=
  (List.suffix_iff_eq_drop.mp (hr.trans (List.drop_suffix _ _))).symm

@[simp] theorem rest_skip (c : Cursor) : c.skip.rest = skipBlanks c.rest :=
  rest_goTo (skipBlanks_suffix _)

/-- Taking one of some characters is taking the next one, or looking at it. -/
theorem takeAny_eq (chars : List Char) (c : Cursor) : c.takeAny chars =
    match skipBlanks c.rest with
    | d :: r => if chars.contains d then (some d, c.goTo r) else (none, c.skip)
    | []     => (none, c.skip) := by
  rw [takeAny, peek]
  cases h : skipBlanks c.rest with
  | nil => rfl
  | cons d r =>
      simp only [List.head?_cons]
      rw [next, rest_skip, skipBlanks_skipBlanks, h]
      rfl

/-- Taking the closing parenthesis where it is the next character. -/
theorem readClose_ok {r : List Char} (h : skipBlanks c.rest = ')' :: r) :
    c.readClose = (none, c.goTo r) := by
  have hx : (closeParen c.room c.rest).map Subtype.val = .ok r := closeParen_ok h
  rw [readClose]
  cases hq : closeParen c.room c.rest with
  | ok q =>
      rw [hq] at hx
      cases hx
      rfl
  | error e =>
      rw [hq] at hx
      cases hx

theorem readClose_error (h : ∀ r, skipBlanks c.rest ≠ ')' :: r) :
    c.readClose = (c.stopped ⟨.expectedCloseParen, skipBlanks c.rest, c.room⟩).map some id := by
  rw [readClose, closeParen_error h]
  rfl

/-! ### Outcomes at a cursor -/

/-- The outcome of a reading, as it is seen at the cursor that was read from. -/
def conclude (c : Cursor) : Outcome → Except ParseError Expr × Cursor
  | .ok p    => (.ok p.1, c.goTo p.2)
  | .error e => (.error (c.stopped e).1, (c.stopped e).2)

theorem read_eq_conclude {n : Nat} (x : Except Stop (Parsed n)) :
    c.read x = c.conclude (x.map Parsed.pair) := by
  cases x <;> rfl

theorem readPrimary_eq (c : Cursor) :
    c.readPrimary = c.conclude (Grammar.read c.extended c.room .primary c.rest) :=
  read_eq_conclude _

theorem readPrimary_of_reads {o : Outcome} (h : Reads c.extended c.room .primary c.rest o) :
    c.readPrimary = c.conclude o := by
  rw [readPrimary_eq, h.eq]

/-- What a primary replies and where it leaves the cursor, by how it reads. -/
theorem perform_of_reads {o : Outcome} (h : Reads c.extended c.room .primary c.rest o) :
    c.perform .readPrimary = (replyTree (c.conclude o)).map Reply.raised id := by
  rw [perform, ask, readPrimary_of_reads h]

theorem readTerm_eq (c : Cursor) :
    c.readTerm = c.conclude (Grammar.read c.extended c.room (.level .term) c.rest) :=
  read_eq_conclude _

theorem readExpression_eq (c : Cursor) :
    c.readExpression = c.conclude (Grammar.read c.extended c.room (.level .expression) c.rest) :=
  read_eq_conclude _

theorem readNumeral_eq (c : Cursor) :
    c.readNumeral = c.conclude ((numeral c.room c.rest).map Parsed.pair) :=
  read_eq_conclude _

/-! ### One call -/

/-- A nesting error is held up by a limit that cannot be written. -/
theorem raised_tooDeep (limit : Int) (pos : Nat) : (Reply.failed ⟨.tooDeep limit, pos⟩).raised =
    if Data.Writable limit then .failed ⟨.tooDeep limit, pos⟩ else .overlong limit := by
  rw [Reply.raised, ParseError.raised]
  split
  · next h =>
      cases h
      split <;> rfl
  · next h => exact absurd rfl (h limit)

/-- What is raised for a stop.  Only a nesting error may be held up. -/
theorem raised_stopped (c : Cursor) (e : Stop) : (Reply.failed (c.stopped e).1).raised =
    if e.reason = .tooDeep ∧ ¬ Data.Writable c.maxDepth then .overlong c.maxDepth
    else .failed (c.stopped e).1 := by
  obtain ⟨reason, rest, room⟩ := e
  cases reason with
  | tooDeep =>
      refine (raised_tooDeep _ _).trans ?_
      by_cases hw : Data.Writable c.maxDepth
      · rw [if_pos hw, if_neg fun h => h.2 hw]
        rfl
      · rw [if_neg hw, if_pos ⟨rfl, hw⟩]
  | expectedNumber | expectedCloseParen => rfl

/-- How a call leaves a cursor whose count was `d`, by its reply.  After a failure the cursor stands
at the place of the error, and what was entered still counts.  A limit that cannot be written is
raised by nothing but nesting, and leaves the count of a nesting error. -/
def Leaves (limit : Int) (k : Call) (d : Int) : Reply → Nat → Int → Prop
  | .failed e,   pos, d' =>
      pos = e.pos ∧
        if k = .readClose ∨ k = .readNumeral then d' = d
        else if e.kind = .nestingTooDeep then Data.Writable limit ∧ d' = max d limit + 1
        else d ≤ d' ∧ d' ≤ max d limit
  | .overlong n, _,   d' =>
      n = limit ∧ ¬ Data.Writable limit ∧ ¬ (k = .readClose ∨ k = .readNumeral) ∧
        d' = max d limit + 1
  | _,           _,   d' => d' = d

/-- A call goes on to a later place, and leaves a count that its reply explains. -/
def Proceeds (c : Cursor) (k : Call) (p : Reply × Cursor) : Prop :=
  ∃ pos d, p.2 = { c with pos, depth := d } ∧ c.pos ≤ pos ∧ pos ≤ c.source.length ∧
    Leaves c.maxDepth k c.depth p.1 pos d

/-- Calls that only move the cursor on. -/
theorem proceeds_goTo {k : Call} {r : Reply} {s : List Char} (hc : c.pos ≤ c.source.length)
    (hs : s <:+ c.rest) (hr : ∀ pos, Leaves c.maxDepth k c.depth r pos c.depth) :
    c.Proceeds k (r, c.goTo s) :=
  ⟨_, _, rfl, le_pos_goTo hc hs, Nat.sub_le _ _, hr _⟩

/-- Calls that fail. -/
theorem proceeds_stopped {k : Call} {e : Stop} (hc : c.pos ≤ c.source.length)
    (hs : e.rest <:+ c.rest)
    (hd : if k = .readClose ∨ k = .readNumeral then e.room = c.room ∧ e.reason ≠ .tooDeep
      else if e.reason = .tooDeep then e.room = min c.room 0 - 1
      else min c.room 0 ≤ e.room ∧ e.room ≤ c.room) :
    c.Proceeds k ((Reply.failed (c.stopped e).1).raised, (c.stopped e).2) := by
  refine ⟨_, _, rfl, le_pos_goTo hc hs, Nat.sub_le _ _, ?_⟩
  have hkind : (c.stopped e).1.kind = .nestingTooDeep ↔ e.reason = .tooDeep := Cause.kind_ofReason
  rw [raised_stopped]
  unfold room at hd
  split at hd
  · next hk =>
      rw [if_neg fun h => hd.2 h.1]
      refine ⟨rfl, ?_⟩
      rw [if_pos hk]
      omega
  · next hk =>
      split at hd
      · next hdeep =>
          have hcount : c.maxDepth - e.room = max c.depth c.maxDepth + 1 := by omega
          split
          · next h => exact ⟨rfl, h.2, hk, hcount⟩
          · next h =>
              refine ⟨rfl, ?_⟩
              rw [if_neg hk, if_pos (hkind.mpr hdeep)]
              exact ⟨Decidable.not_not.mp fun hw => h ⟨hdeep, hw⟩, hcount⟩
      · next hother =>
          rw [if_neg fun h => hother h.1]
          refine ⟨rfl, ?_⟩
          rw [if_neg hk, if_neg fun h => hother (hkind.mp h)]
          omega

/-- Reading by a rule. -/
theorem proceeds_read {n : Nat} {k : Call} {x : Except Stop (Parsed n)} (st : Stage)
    (hc : c.pos ≤ c.source.length) (hk : ¬ (k = .readClose ∨ k = .readNumeral))
    (hx : Grammar.read c.extended c.room st c.rest = x.map Parsed.pair) :
    c.Proceeds k ((replyTree (c.read x)).map Reply.raised id) := by
  have h := reads_read c.extended c.room st c.rest
  have hs := unread_suffix h
  rw [hx] at h hs
  cases x with
  | ok p => exact proceeds_goTo hc hs fun _ => rfl
  | error e =>
      obtain ⟨hdeep, hother⟩ := room_of_stop h rfl
      refine proceeds_stopped hc hs ?_
      rw [if_neg hk]
      split
      · next h => exact hdeep h
      · next h => exact hother h

/-- **One call.** -/
theorem perform_proceeds (hc : c.pos ≤ c.source.length) (k : Call) :
    c.Proceeds k (c.perform k) := by
  have hskip : skipBlanks c.rest <:+ c.rest := skipBlanks_suffix _
  rw [perform]
  cases k with
  | peek => exact proceeds_goTo hc hskip fun _ => rfl
  | atEnd => exact proceeds_goTo hc hskip fun _ => rfl
  | next =>
      simp only [ask, next]
      split
      · exact proceeds_goTo hc hskip fun _ => rfl
      · next h => exact proceeds_goTo hc (suffix_of_skipBlanks h) fun _ => rfl
  | takeAny chars =>
      simp only [ask, takeAny_eq]
      split
      · next h =>
          split
          · exact proceeds_goTo hc (suffix_of_skipBlanks h) fun _ => rfl
          · exact proceeds_goTo hc hskip fun _ => rfl
      · exact proceeds_goTo hc hskip fun _ => rfl
  | readClose =>
      simp only [ask]
      by_cases h : ∃ r, skipBlanks c.rest = ')' :: r
      · obtain ⟨r, h⟩ := h
        rw [readClose_ok h]
        exact proceeds_goTo hc (suffix_of_skipBlanks h) fun _ => rfl
      · rw [readClose_error fun r hr => h ⟨r, hr⟩]
        exact proceeds_stopped hc hskip (by simp)
  | readNumeral =>
      rw [ask, readNumeral, numeral]
      split
      · next h =>
          obtain ⟨w, hw, -⟩ := Numeral.writes_of_scan h
          exact proceeds_goTo hc ⟨w, hw.symm⟩ fun _ => rfl
      · exact proceeds_stopped hc (List.suffix_refl _) (by simp)
  | readPrimary => exact proceeds_read .primary hc (by simp) rfl
  | readTerm => exact proceeds_read (.level .term) hc (by simp) rfl
  | readExpression => exact proceeds_read (.level .expression) hc (by simp) rfl

/-! ### A row of calls -/

end Cursor

end Abacus.Grammar
