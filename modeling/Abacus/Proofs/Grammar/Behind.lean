import Mathlib.Data.List.Forall2
import Abacus.Proofs.Grammar.Cursor

/-!
# Grammar — a cursor behind a text

`c.behind w d` is the cursor `c` with `w` put in front of its text and `d` levels entered in `w`:
its place and its count are that much larger, and so is its limit.  What is in front of it does not
change, and neither does its room.

* `ask_behind`: what a call of the one comes to is what that call of the other comes to, moved
  along.
* `perform_behind`, `performAll_behind`: hence what the call raises, and any row of calls, but for
  one thing.  A nesting error names the limit, the limits of the two cursors are different numbers,
  and of these one may be writable and the other not.
* `eq_behind`: a cursor within its text is one at the beginning of its rest, with the room it has,
  behind the text before it (`afresh`).
* `perform_afresh`: hence what a cursor answers depends on its rest and its room, and on nothing
  else as long as limits can be written.

The levels entered may be of any sign, and so may the room: nothing but the difference of limit and
count is ever looked at.  That the rules do look at nothing else is how they are defined here; that
they are the calls of a cursor one after another, at its own place and with its own count, is
`read_calls`, and `attempt_eq` for the descent as a whole.
-/

namespace Abacus.Grammar
open Text

/-! ### Errors and replies moved along -/

/-- The cause when `d` more levels have been entered. -/
def Cause.behind (d : Int) : Cause → Cause
  | .tooDeep limit      => .tooDeep (d + limit)
  | .expectedNumber     => .expectedNumber
  | .expectedCloseParen => .expectedCloseParen
  | .trailingInput rest => .trailingInput rest

/-- The error when `n` more characters come before it and `d` more levels have been entered. -/
def ParseError.behind (n : Nat) (d : Int) (e : ParseError) : ParseError :=
  ⟨e.cause.behind d, n + e.pos⟩

/-- The reply of a cursor `n` characters further on in its text and `d` levels deeper. -/
def Reply.behind (n : Nat) (d : Int) : Reply → Reply
  | .failed e   => .failed (e.behind n d)
  | .overlong m => .overlong (d + m)
  | .next c     => .next c
  | .taken c    => .taken c
  | .done       => .done
  | .flag b     => .flag b
  | .tree e     => .tree e

theorem Cause.behind_ofReason (d limit : Int) (x : Reason) :
    (Cause.ofReason limit x).behind d = .ofReason (d + limit) x := by
  cases x <;> rfl

@[simp] theorem ParseError.kind_behind (n : Nat) (d : Int) (e : ParseError) :
    (e.behind n d).kind = e.kind := by
  obtain ⟨cause, _⟩ := e
  cases cause <;> rfl

/-- The same reply, or an error of the same kind, `n` characters further on and with `d` more levels
entered.  A nesting error stands beside a limit that cannot be written where the other limit can. -/
def Reply.Matches (n : Nat) (d : Int) : Reply → Reply → Prop
  | .failed e,   .failed f    => f.kind = e.kind ∧ f.pos = n + e.pos ∧ f.cause = e.cause.behind d
  | .failed e,   .overlong m' => ¬ Data.Writable m' ∧ e.cause = .tooDeep (m' - d)
  | .overlong m, .failed f    => ¬ Data.Writable m ∧ f.cause = .tooDeep (d + m)
  | .overlong m, .overlong m' => m' = d + m
  | r,           r'           => r' = r

theorem Reply.matches_behind (n : Nat) (d : Int) (r : Reply) :
    r.raised.Matches n d (r.behind n d).raised := by
  cases r with
  | failed e =>
      obtain ⟨cause, pos⟩ := e
      cases cause with
      | tooDeep m =>
          have hm : m = d + m - d := by omega
          change Matches n d _ (Reply.failed ⟨.tooDeep (d + m), n + pos⟩).raised
          rw [Cursor.raised_tooDeep, Cursor.raised_tooDeep]
          by_cases hw : Data.Writable m
          · rw [if_pos hw]
            by_cases hw' : Data.Writable (d + m)
            · rw [if_pos hw']
              exact ⟨rfl, rfl, rfl⟩
            · rw [if_neg hw']
              exact ⟨hw', congrArg Cause.tooDeep hm⟩
          · rw [if_neg hw]
            by_cases hw' : Data.Writable (d + m)
            · rw [if_pos hw']
              exact ⟨hw, rfl⟩
            · rw [if_neg hw']
              rfl
      | expectedNumber | expectedCloseParen | trailingInput => exact ⟨rfl, rfl, rfl⟩
  | _ => rfl

namespace Cursor

variable {w : List Char} {d : Int} {c : Cursor}

/-! ### A cursor behind a text -/

/-- The cursor with `w` before its text, and `d` levels entered in it. -/
def behind (w : List Char) (d : Int) (c : Cursor) : Cursor :=
  { c with source := w ++ c.source, pos := w.length + c.pos,
           depth := d + c.depth, maxDepth := d + c.maxDepth }

@[simp] theorem rest_behind (w : List Char) (d : Int) (c : Cursor) :
    (c.behind w d).rest = c.rest := List.drop_length_add_append _

@[simp] theorem room_behind (w : List Char) (d : Int) (c : Cursor) :
    (c.behind w d).room = c.room := by
  change d + c.maxDepth - (d + c.depth) = c.maxDepth - c.depth
  omega

theorem length_le_source {r : List Char} (hr : r <:+ c.rest) : r.length ≤ c.source.length :=
  (hr.trans (List.drop_suffix _ _)).length_le

/-- A later part of the text is as far behind `w` as it is from the beginning. -/
theorem goTo_behind {r : List Char} (hr : r <:+ c.rest) :
    (c.behind w d).goTo r = (c.goTo r).behind w d := by
  have hle := length_le_source hr
  have hpos : (w ++ c.source).length - r.length = w.length + (c.source.length - r.length) := by
    rw [List.length_append]
    omega
  simp only [goTo, behind, hpos]

theorem skip_behind : (c.behind w d).skip = c.skip.behind w d := by
  rw [skip, rest_behind, goTo_behind (skipBlanks_suffix _), ← skip]

/-- A stop is noticed at the same place, and leaves the same room. -/
theorem stopped_behind {e : Stop} (he : e.rest <:+ c.rest) :
    (c.behind w d).stopped e =
      ((c.stopped e).1.behind w.length d, (c.stopped e).2.behind w d) := by
  have hd : d + c.maxDepth - e.room = d + (c.maxDepth - e.room) := by omega
  simp only [stopped, goTo_behind he, ParseError.behind, Cause.behind_ofReason]
  simp only [behind, goTo, hd]

/-! ### One call -/

/-- An outcome that leaves an end of the rest. -/
theorem conclude_behind {o : Outcome} (ho : unread o <:+ c.rest) :
    replyTree ((c.behind w d).conclude o) =
      (replyTree (c.conclude o)).map (Reply.behind w.length d) (behind w d) := by
  cases o with
  | ok p => simp only [conclude, goTo_behind (r := p.2) ho, replyTree, Prod.map, Reply.behind]
  | error e => simp only [conclude, stopped_behind (e := e) ho, replyTree, Prod.map, Reply.behind]

/-- Whatever is read from the rest in its room. -/
theorem read_behind {f : Int → List Char → Outcome} (hf : ∀ room s, unread (f room s) <:+ s)
    (w : List Char) (d : Int) (c : Cursor) :
    replyTree ((c.behind w d).conclude (f (c.behind w d).room (c.behind w d).rest)) =
      (replyTree (c.conclude (f c.room c.rest))).map (Reply.behind w.length d) (behind w d) := by
  rw [room_behind, rest_behind]
  exact conclude_behind (hf _ _)

/-- **What a call behind a text comes to** is what it comes to on the cursor alone, moved along. -/
theorem ask_behind (w : List Char) (d : Int) (c : Cursor) (k : Call) :
    (c.behind w d).ask k = (c.ask k).map (Reply.behind w.length d) (behind w d) := by
  cases k with
  | peek =>
      simp only [ask, peek, rest_behind, skip_behind]
      rfl
  | atEnd =>
      simp only [ask, atEnd, peek, rest_behind, skip_behind]
      rfl
  | next =>
      simp only [ask, next, rest_behind]
      split
      · rw [skip_behind]
        rfl
      · next h =>
          rw [goTo_behind (suffix_of_skipBlanks h)]
          rfl
  | takeAny chars =>
      simp only [ask, takeAny_eq, rest_behind]
      split
      · next h =>
          split
          · rw [goTo_behind (suffix_of_skipBlanks h)]
            rfl
          · rw [skip_behind]
            rfl
      · rw [skip_behind]
        rfl
  | readClose =>
      simp only [ask]
      by_cases h : ∃ r, skipBlanks c.rest = ')' :: r
      · obtain ⟨r, h⟩ := h
        rw [readClose_ok h, readClose_ok (by rwa [rest_behind]),
          goTo_behind (suffix_of_skipBlanks h)]
        rfl
      · rw [readClose_error fun r hr => h ⟨r, hr⟩,
          readClose_error fun r hr => h ⟨r, by rwa [rest_behind] at hr⟩,
          rest_behind, room_behind, stopped_behind (skipBlanks_suffix _)]
        rfl
  | readNumeral =>
      simp only [ask, readNumeral_eq]
      exact read_behind numeral_suffix w d c
  | readPrimary =>
      simp only [ask, readPrimary_eq]
      exact read_behind (read_suffix c.extended .primary) w d c
  | readTerm =>
      simp only [ask, readTerm_eq]
      exact read_behind (read_suffix c.extended (.level .term)) w d c
  | readExpression =>
      simp only [ask, readExpression_eq]
      exact read_behind (read_suffix c.extended (.level .expression)) w d c

/-- A reply and the cursor after it, `q` behind a text and `p` on the cursor alone. -/
def Along (w : List Char) (d : Int) (p q : Reply × Cursor) : Prop :=
  p.1.Matches w.length d q.1 ∧ q.2 = p.2.behind w d

theorem perform_behind (w : List Char) (d : Int) (c : Cursor) (k : Call) :
    Along w d (c.perform k) ((c.behind w d).perform k) := by
  rw [perform, perform, ask_behind]
  exact ⟨Reply.matches_behind _ _ _, rfl⟩

/-! ### A row of calls -/

/-- **A row of calls behind a text** is that row on the cursor alone, moved along. -/
theorem performAll_behind (w : List Char) (d : Int) (ks : List Call) : ∀ c : Cursor,
    List.Forall₂ (Along w d) (c.performAll ks) ((c.behind w d).performAll ks) := by
  induction ks with
  | nil => exact fun _ => .nil
  | cons k ks ih =>
      intro c
      have hone := perform_behind w d c k
      refine .cons hone ?_
      rw [hone.2]
      exact ih _

/-! ### The rest of a text -/

/-- The cursor at the beginning of the rest, with nothing entered and all the room there is. -/
def afresh (c : Cursor) : Cursor := start c.rest c.extended c.room

theorem room_afresh (c : Cursor) : c.afresh.room = c.room := Int.sub_zero _

/-- The places in the rest, behind what the cursor has passed. -/
theorem behind_afresh (hc : c.pos ≤ c.source.length) (pos : Nat) (d : Int) :
    behind (c.source.take c.pos) c.depth { c.afresh with pos, depth := d } =
      { c with pos := c.pos + pos, depth := c.depth + d } := by
  have hlimit : c.depth + (c.maxDepth - c.depth) = c.maxDepth := by omega
  simp only [behind, afresh, start, rest, room, List.take_append_drop, List.length_take_of_le hc,
    hlimit]

/-- A cursor within its text stands behind what it has passed. -/
theorem eq_behind (hc : c.pos ≤ c.source.length) :
    c.afresh.behind (c.source.take c.pos) c.depth = c := by
  have h := behind_afresh hc 0 0
  rwa [Nat.add_zero, Int.add_zero] at h

/-- No call changes the text of a cursor or what it reads by. -/
theorem eq_of_mem_performAll (ks : List Call) : ∀ {c : Cursor}, c.pos ≤ c.source.length →
    ∀ p ∈ c.performAll ks, p.2 = { c with pos := p.2.pos, depth := p.2.depth } := by
  induction ks with
  | nil => exact fun _ _ h => absurd h List.not_mem_nil
  | cons k ks ih =>
      intro c hc p hp
      obtain ⟨pos, d, hq, -, hlen, -⟩ := perform_proceeds hc k
      rcases List.mem_cons.mp hp with rfl | hp
      · rw [hq]
      · have hrest := ih (c := (c.perform k).2) (by rwa [hq]) p hp
        rwa [hq] at hrest

/-- A reply and the cursor after it, `q` as `c` gives them and `p` as `c.afresh` does. -/
def Matches (c : Cursor) (p q : Reply × Cursor) : Prop :=
  p.1.Matches c.pos c.depth q.1 ∧
    q.2 = { c with pos := c.pos + p.2.pos, depth := c.depth + p.2.depth }

theorem forall₂_matches (hc : c.pos ≤ c.source.length) (ks : List Call) :
    List.Forall₂ c.Matches (c.afresh.performAll ks) (c.performAll ks) := by
  have hall := performAll_behind (c.source.take c.pos) c.depth ks c.afresh
  rw [eq_behind hc] at hall
  have hsame := eq_of_mem_performAll ks (c := c.afresh) (Nat.zero_le _)
  refine ((List.forall₂_and_left _ _).mpr ⟨hsame, hall⟩).imp ?_
  rintro p q ⟨hp, hreply, hq⟩
  rw [List.length_take_of_le hc] at hreply
  refine ⟨hreply, ?_⟩
  rw [hq, hp]
  exact behind_afresh hc _ _

/-- **A cursor answers from its rest and its room.**  Wherever it stands in a text, whatever it has
entered and whatever the limit, a call gives what it gives at the beginning of the rest with nothing
entered and the room as the limit: the same, or an error of the same kind.  The place of the error
and of the cursor are further on by what the cursor had passed, and the count is higher by what it
had entered.  So are those of any row of calls.  Only where one of the two limits cannot be written
does its refusal stand beside the nesting error of the other.

That what a cursor answers from its rest and its room is what the rules come to when they are read
by calls, at a place in the whole text and with a count, is `read_calls`, and `attempt_eq` for the
rules as they call one another. -/
theorem perform_afresh (hc : c.pos ≤ c.source.length) :
    (∀ k, c.Matches (c.afresh.perform k) (c.perform k)) ∧
      ∀ ks, List.Forall₂ c.Matches (c.afresh.performAll ks) (c.performAll ks) := by
  refine ⟨fun k => ?_, forall₂_matches hc⟩
  have hone := forall₂_matches hc [k]
  exact (List.forall₂_cons.mp hone).1

/-- What is raised at an opening that there is no room for. -/
theorem perform_opening {d : Char} {r : List Char} {st : Stage} (hs : skipBlanks c.rest = d :: r)
    (hd : inside? d = some st) (hroom : c.room ≤ 0) : (c.perform .readPrimary).1 =
      if Data.Writable c.maxDepth then .failed ⟨.tooDeep c.maxDepth, (c.goTo r).pos⟩
      else .overlong c.maxDepth := by
  rw [perform_of_reads (.tooDeep hs hd hroom)]
  exact raised_tooDeep _ _

/-- In `(-(-7` with room for two levels, the second parenthesis is one too many behind the first as
it is in the rest alone with room for one. -/
theorem perform_afresh_inside :
    let c : Cursor := ⟨"(-(-7".toList, 1, 1, true, 2⟩
    c.pos ≤ c.source.length ∧
      c.afresh.perform .readPrimary =
        (.failed ⟨.tooDeep 1, 2⟩, ⟨"-(-7".toList, 2, 2, true, 1⟩) ∧
      c.Matches (c.afresh.perform .readPrimary) (c.perform .readPrimary) ∧
      List.Forall₂ c.Matches (c.afresh.performAll [.readPrimary, .readNumeral])
        (c.performAll [.readPrimary, .readNumeral]) := by
  intro c
  have hc : c.pos ≤ c.source.length := by decide
  have hopen : Reads true (1 - 1) .primary "(-7".toList (.error ⟨.tooDeep, "-7".toList, -1⟩) :=
    .tooDeep (c := '(') rfl rfl (by decide)
  have hreads : Reads true 1 .primary "-(-7".toList (.error ⟨.tooDeep, "-7".toList, -1⟩) :=
    .inside (c := '-') rfl rfl (by decide) hopen
  have hwritable : Data.Writable 1 := Data.writable_of_lt_ten (by decide)
  have hafresh : c.afresh.perform .readPrimary =
      (.failed ⟨.tooDeep 1, 2⟩, ⟨"-(-7".toList, 2, 2, true, 1⟩) := by
    rw [perform_of_reads (c := c.afresh) hreads]
    exact congrArg (·, _) ((raised_tooDeep 1 2).trans (if_pos hwritable))
  have h := perform_afresh hc
  exact ⟨hc, hafresh, h.1 .readPrimary, h.2 _⟩

/-- **A limit that cannot be written.**  Behind the first parenthesis of `((1`, under the least
limit that can be written, the second one is too deep.  So it is in the rest alone, but the room
there is less by one than that limit, and is not written. -/
theorem perform_afresh_overlong :
    let c : Cursor := ⟨"((1".toList, 1, 1, true, Data.leastWritable⟩
    c.room = Data.leastWritable - 1 ∧
      (c.perform .readPrimary).1 = .failed ⟨.tooDeep Data.leastWritable, 2⟩ ∧
      (c.afresh.perform .readPrimary).1 = .overlong c.room ∧
      ¬ ((∃ t, (c.afresh.perform .readPrimary).1 = .tree t ∧
          (c.perform .readPrimary).1 = .tree t) ∨
        ∃ e f, (c.afresh.perform .readPrimary).1 = .failed e ∧
          (c.perform .readPrimary).1 = .failed f ∧ f.kind = e.kind) := by
  intro c
  have hroom : c.room = Data.leastWritable - 1 := rfl
  have hnone : c.room ≤ 0 := by
    rw [hroom, Data.leastWritable]
    omega
  have hhere : (c.perform .readPrimary).1 = .failed ⟨.tooDeep Data.leastWritable, 2⟩ :=
    (perform_opening (c := c) (d := '(') rfl rfl hnone).trans (if_pos Data.writable_leastWritable)
  have hafresh : (c.afresh.perform .readPrimary).1 = .overlong c.room :=
    (perform_opening (c := c.afresh) (d := '(') rfl rfl (c.room_afresh ▸ hnone)).trans
      (if_neg Data.not_writable_pred)
  refine ⟨hroom, hhere, hafresh, ?_⟩
  rw [hafresh, hhere]
  rintro (⟨t, ht, -⟩ | ⟨e, f, he, -⟩)
  · cases ht
  · cases he

end Cursor

end Abacus.Grammar
