import Abacus.Proofs.Grammar.Cursor

/-!
# Grammar — the rules by calls

The descent reads from a text and hands on what is left of it; a cursor stands in its text and
counts what it has entered.  Both do the same: each rule, read at a cursor, is a few calls of that
cursor one after another, the other rules among them.

* `readStage_primary`: a primary looks at the next character, and takes it and enters a level when
  it is a sign or a parenthesis.
* `readStage_level`, `readStage_further`: a chain reads an operand, and goes on as long as it can
  take an operator.
* `read_calls`: hence the equations of the three rules.
-/

namespace Abacus.Grammar
open Text

/-- What is done at a cursor: it succeeds or fails, and leaves the cursor somewhere. -/
abbrev Action (α : Type) := ExceptT ParseError (StateM Cursor) α

/-- The characters of a level's operators. -/
def Level.marks (extended : Bool) : Level → List Char
  | .term       => if extended then ['*', '/'] else ['*']
  | .expression => if extended then ['+', '-'] else ['+']

/-- The operator of a character that was taken. -/
def Level.taken : Level → Char → Op
  | .term, d       => if d = '*' then .mul else .div
  | .expression, d => if d = '+' then .add else .sub

namespace Cursor

/-! ### Actions -/

/-- Looks at the next character. -/
def look : Action (Option Char) := fun c => (.ok c.peek.1, c.peek.2)

/-- Takes the next character. -/
def take : Action Unit := fun c => (.ok (), c.next.2)

/-- Takes the next character if it is one of `chars`. -/
def takeOne (chars : List Char) : Action (Option Char) :=
  fun c => (.ok (c.takeAny chars).1, (c.takeAny chars).2)

/-- Enters a level, which may be one too many. -/
def enter : Action Unit := fun c =>
  let c' := { c with depth := c.depth + 1 }
  (if c'.maxDepth < c'.depth then .error ⟨.tooDeep c'.maxDepth, c'.pos⟩ else .ok (), c')

/-- Leaves a level. -/
def leave : Action Unit := fun c => (.ok (), { c with depth := c.depth - 1 })

/-- Takes the parenthesis that closes a group. -/
def close : Action Unit := fun c => ((c.readClose.1.map Except.error).getD (.ok ()), c.readClose.2)

/-- Reads from a stage of the descent on. -/
def readStage (st : Stage) : Action Expr :=
  fun c => c.conclude (Grammar.read c.extended c.room st c.rest)

variable {α β : Type} {x : Action α} {f : α → Action β} {c c' : Cursor} {l : Level}

theorem bind_ok {a : α} (h : x c = (.ok a, c')) : (x >>= f) c = f a c' := by
  change (match x c with | (r, c') => ExceptT.bindCont f r c') = _
  rw [h]
  rfl

theorem bind_error {e : ParseError} (h : x c = (.error e, c')) : (x >>= f) c = (.error e, c') := by
  change (match x c with | (r, c') => ExceptT.bindCont f r c') = _
  rw [h]
  rfl

/-! ### Readings one after another -/

theorem conclude_goTo (r : List Char) (o : Outcome) : (c.goTo r).conclude o = c.conclude o := by
  cases o <;> rfl

/-- What is read further on, told from the same cursor. -/
theorem readStage_goTo {k : List Char} (st : Stage) (hk : k <:+ c.rest) :
    readStage st (c.goTo k) = c.conclude (Grammar.read c.extended c.room st k) := by
  rw [readStage, rest_goTo hk]
  exact conclude_goTo k _

/-- Going on where a reading has ended. -/
theorem conclude_bind {y : Action Expr} {f : Expr → Action Expr} {o : Outcome}
    {g : Expr × List Char → Outcome} (h : y c' = c.conclude o)
    (hf : ∀ p, o = .ok p → f p.1 (c.goTo p.2) = c.conclude (g p)) :
    (y >>= f) c' = c.conclude (o.bind g) := by
  cases o with
  | error e => exact bind_error h
  | ok p =>
      rw [bind_ok h]
      exact hf p rfl

theorem suffix_of_read {st : Stage} {s : List Char} {p : Expr × List Char}
    (h : Grammar.read c.extended c.room st s = .ok p) : p.2 <:+ s := by
  have hs := read_suffix c.extended st c.room s
  rwa [h] at hs

/-! ### Chains -/

/-- A chain begins with an operand. -/
theorem readStage_level (l : Level) : readStage (.level l) = (do
    let left ← readStage l.operand
    readStage (.further l left)) := by
  funext c
  rw [readStage, read_level]
  exact (conclude_bind rfl fun p hp => readStage_goTo _ (suffix_of_read hp)).symm

/-- A level's operators are those of its marks. -/
theorem operator_eq (extended : Bool) (l : Level) (d : Char) : l.operator extended d =
    if (l.marks extended).contains d then some (l.taken d) else none := by
  cases l with
  | term =>
      change multiplicative extended d = _
      unfold multiplicative
      split <;> cases extended <;> simp_all [Level.marks, Level.taken]
  | expression =>
      change additive extended d = _
      unfold additive
      split <;> cases extended <;> simp_all [Level.marks, Level.taken]

theorem takeOne_none (h : ∀ d ∈ (skipBlanks c.rest).head?, l.operator c.extended d = none) :
    takeOne (l.marks c.extended) c = (.ok none, c.skip) := by
  simp only [takeOne, takeAny_eq]
  split
  · next d r hskip =>
      have hd := h d (by rw [hskip]; rfl)
      rw [operator_eq] at hd
      split at hd
      · cases hd
      · next hmark => rw [if_neg hmark]
  · rfl

theorem takeOne_some {d : Char} {r : List Char} {op : Op} (h : skipBlanks c.rest = d :: r)
    (hop : l.operator c.extended d = some op) :
    takeOne (l.marks c.extended) c = (.ok (some d), c.goTo r) ∧ l.taken d = op := by
  rw [operator_eq] at hop
  split at hop
  · next hmark =>
      simp only [takeOne, takeAny_eq, h]
      rw [if_pos hmark]
      exact ⟨rfl, Option.some.inj hop⟩
  · cases hop

/-- A chain goes on as long as there is an operator to take. -/
theorem readStage_further (l : Level) (left : Expr) (c : Cursor) :
    readStage (.further l left) c = (do
      match ← takeOne (l.marks c.extended) with
      | none   => return left
      | some d =>
          let right ← readStage l.operand
          readStage (.further l (.binary (l.taken d) left right)) : Action Expr) c := by
  cases hskip : skipBlanks c.rest with
  | nil =>
      have hnone : ∀ d ∈ (skipBlanks c.rest).head?, l.operator c.extended d = none := by
        rw [hskip]
        nofun
      rw [bind_ok (takeOne_none hnone), readStage, read_stop hnone]
      rfl
  | cons d r =>
      cases hop : l.operator c.extended d with
      | none =>
          have hnone : ∀ d ∈ (skipBlanks c.rest).head?, l.operator c.extended d = none := by
            rw [hskip]
            rintro _ ⟨⟩
            exact hop
          rw [bind_ok (takeOne_none hnone), readStage, read_stop hnone]
          rfl
      | some op =>
          obtain ⟨htake, rfl⟩ := takeOne_some hskip hop
          have hr : r <:+ c.rest := suffix_of_skipBlanks hskip
          rw [bind_ok htake, readStage, read_operator hskip hop]
          refine (conclude_bind (readStage_goTo _ hr) fun p hp => ?_).symm
          exact readStage_goTo _ ((suffix_of_read hp).trans hr)

/-! ### Primaries -/

/-- A parenthesis is closed behind what was read. -/
theorem close_bind (t : Expr) (c : Cursor) : (do close; return t : Action Expr) c =
    c.conclude (((closeParen c.room c.rest).map Subtype.val).map fun k => (t, k)) := by
  cases h : closeParen c.room c.rest with
  | ok q =>
      have hclose : close c = (.ok (), c.goTo q.1) := by
        rw [close, readClose, h]
        rfl
      rw [bind_ok hclose]
      rfl
  | error e =>
      have hclose : close c = (.error (c.stopped e).1, (c.stopped e).2) := by
        rw [close, readClose, h]
        rfl
      rw [bind_error hclose]
      rfl

/-- The cursor before `r`, one level further in. -/
def entered (c : Cursor) (r : List Char) : Cursor := { c.goTo r with depth := c.depth + 1 }

theorem room_entered (c : Cursor) (r : List Char) : (c.entered r).room = c.room - 1 := by
  change c.maxDepth - (c.depth + 1) = c.maxDepth - c.depth - 1
  omega

theorem rest_entered {r : List Char} (hr : r <:+ c.rest) : (c.entered r).rest = r := rest_goTo hr

theorem enter_of_pos (r : List Char) (h : 0 < c.room) :
    enter (c.goTo r) = (.ok (), c.entered r) := by
  have hle : ¬ c.maxDepth < c.depth + 1 := by
    unfold room at h
    omega
  exact congrArg (·, c.entered r) (if_neg hle)

theorem enter_of_nonpos (r : List Char) (h : c.room ≤ 0) : enter (c.goTo r) =
    (.error (c.stopped ⟨.tooDeep, r, c.room - 1⟩).1, (c.stopped ⟨.tooDeep, r, c.room - 1⟩).2) := by
  have hlt : c.maxDepth < c.depth + 1 := by
    unfold room at h
    omega
  have hdepth : c.maxDepth - (c.room - 1) = c.depth + 1 := by
    unfold room
    omega
  have henter : enter (c.goTo r) = (.error ⟨.tooDeep c.maxDepth, (c.goTo r).pos⟩, c.entered r) :=
    congrArg (·, c.entered r) (if_pos hlt)
  rw [henter]
  simp only [stopped, hdepth]
  rfl

/-- What is read inside a level is told from outside when the level is left again. -/
theorem leave_bind {y : Action Expr} {o : Outcome} {r : List Char} (f : Expr → Expr)
    (h : y c' = (c.entered r).conclude o) :
    (do let t ← y; leave; return f t : Action Expr) c' =
      c.conclude (o.map fun p => (f p.1, p.2)) := by
  cases o with
  | error e => exact bind_error h
  | ok p =>
      have hdepth : c.depth + 1 - 1 = c.depth := Int.add_sub_cancel _ _
      rw [bind_ok h]
      change ((.ok (f p.1), _) : Except ParseError Expr × Cursor) = (.ok (f p.1), _)
      simp only [entered, goTo, hdepth]

theorem readStage_entered {r : List Char} (st : Stage) (hr : r <:+ c.rest) :
    readStage st (c.entered r) =
      (c.entered r).conclude (Grammar.read c.extended (c.room - 1) st r) := by
  rw [readStage, rest_entered hr, room_entered]
  rfl

/-- A group is read inside its level up to the parenthesis that closes it. -/
theorem close_entered {r : List Char} (hr : r <:+ c.rest) :
    (do let t ← readStage (.level .expression); close; return t : Action Expr) (c.entered r) =
      (c.entered r).conclude
        ((Grammar.read c.extended (c.room - 1) (.level .expression) r).bind fun p =>
          ((closeParen (c.room - 1) p.2).map Subtype.val).map fun k => (p.1, k)) := by
  refine conclude_bind (readStage_entered _ hr) fun p hp => ?_
  have hs := read_suffix c.extended (.level .expression) (c.room - 1) r
  rw [hp] at hs
  have hrest : ((c.entered r).goTo p.2).rest = p.2 :=
    rest_goTo ((rest_entered hr).symm ▸ hs)
  have hroom : ((c.entered r).goTo p.2).room = c.room - 1 := room_entered c r
  rw [close_bind, hrest, hroom]
  exact conclude_goTo p.2 _

theorem take_skip {d : Char} {r : List Char} (h : skipBlanks c.rest = d :: r) :
    take c.skip = (.ok (), c.goTo r) := by
  rw [take, next, rest_skip, skipBlanks_skipBlanks, h]
  rfl

/-- What stands behind a sign or a parenthesis is read inside a level, if there is room for one. -/
theorem readStage_opening {d : Char} {r : List Char} {st : Stage} {y : Action Expr} {o : Outcome}
    (f : Expr → Expr) (hs : skipBlanks c.rest = d :: r) (hd : inside? d = some st)
    (hy : y (c.entered r) = (c.entered r).conclude o)
    (ho : 0 < c.room → Grammar.read c.extended c.room .primary c.rest =
      o.map fun p => (f p.1, p.2)) :
    (do take; enter; let t ← y; leave; return f t : Action Expr) c.skip = readStage .primary c := by
  rw [bind_ok (take_skip hs)]
  rcases Int.lt_or_le 0 c.room with hpos | hnonpos
  · rw [bind_ok (enter_of_pos r hpos), readStage, ho hpos]
    exact leave_bind f hy
  · rw [bind_error (enter_of_nonpos r hnonpos), readStage, read_tooDeep hs hd hnonpos]
    rfl

theorem outcome_map_id (o : Outcome) : (o.map fun p => (id p.1, p.2)) = o := by
  cases o <;> rfl

/-- What a primary does by the next character: behind a sign and behind a parenthesis it enters a
level, and leaves it again. -/
def primaryFrom : Option Char → Action Expr
  | some '-' => do
      take
      enter
      let operand ← readStage .primary
      leave
      return .neg operand
  | some '(' => do
      take
      enter
      let inner ← readStage (.level .expression)
      close
      leave
      return inner
  | _        => readNumeral

theorem primaryFrom_of_none {d? : Option Char} (h : ∀ d ∈ d?, inside? d = none) :
    primaryFrom d? = readNumeral := by
  unfold primaryFrom
  split
  · exact absurd (h '-' rfl) (by decide)
  · exact absurd (h '(' rfl) (by decide)
  · rfl

/-- A primary looks at the next character. -/
theorem readStage_primary : readStage .primary = (do primaryFrom (← look)) := by
  funext c
  have hlook : look c = (.ok (skipBlanks c.rest).head?, c.skip) := rfl
  rw [bind_ok hlook]
  by_cases hminus : ∃ r, skipBlanks c.rest = '-' :: r
  · obtain ⟨r, hs⟩ := hminus
    rw [hs]
    exact (readStage_opening .neg hs rfl (readStage_entered _ (suffix_of_skipBlanks hs))
      (read_minus hs)).symm
  by_cases hparen : ∃ r, skipBlanks c.rest = '(' :: r
  · obtain ⟨r, hs⟩ := hparen
    rw [hs]
    have hgroup := readStage_opening id hs rfl (close_entered (suffix_of_skipBlanks hs))
      fun hpos => (read_paren hs hpos).trans (outcome_map_id _).symm
    simp only [bind_assoc, pure_bind] at hgroup
    exact hgroup.symm
  · have hnone : ∀ d ∈ (skipBlanks c.rest).head?, inside? d = none := by
      intro d hd
      obtain ⟨r, hs⟩ := List.head?_eq_some_iff.mp hd
      unfold inside?
      split
      · exact absurd ⟨r, hs⟩ hminus
      · exact absurd ⟨r, hs⟩ hparen
      · rfl
    rw [primaryFrom_of_none hnone, readNumeral_eq, numeral_map, rest_skip, readStage,
      read_operand hnone]
    exact (conclude_goTo _ _).symm

/-! ### The rules -/

/-- **The rules by calls.**  A term and an expression read an operand and go on with a chain, and a
primary does what the next character asks for; nothing else is done at the cursor. -/
theorem read_calls :
    readPrimary = (do primaryFrom (← look) : Action Expr) ∧
    readTerm = (do
      let left ← readPrimary
      readStage (.further .term left) : Action Expr) ∧
    readExpression = (do
      let left ← readTerm
      readStage (.further .expression left) : Action Expr) := by
  have hprimary : readStage .primary = readPrimary := funext fun c => c.readPrimary_eq.symm
  have hterm : readStage (.level .term) = readTerm := funext fun c => c.readTerm_eq.symm
  have hexpression : readStage (.level .expression) = readExpression :=
    funext fun c => c.readExpression_eq.symm
  refine ⟨hprimary ▸ readStage_primary, ?_, ?_⟩
  · rw [← hterm, readStage_level, ← hprimary]
    rfl
  · rw [← hexpression, readStage_level, ← hterm]
    rfl

end Cursor

end Abacus.Grammar
