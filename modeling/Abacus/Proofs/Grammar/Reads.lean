import Abacus.Grammar.Descent
import Abacus.Proofs.Numeral.Scan

/-!
# Grammar — the descent as a relation

The rules of the descent are five functions that call one another, and each result carries the
proof that its rest is short.  Statements about them are easier on a single function and a single
relation:

* `read` runs any stage of the descent and forgets the lengths; `read_primary`, `read_level` and
  `read_further` are its equations, and nothing below them unfolds a rule again;
* `Reads` has one constructor for each way a stage can go, successes and stops alike.  Every run of
  `read` is a derivation of it and the only one (`reads_iff`), so an induction on `Reads` is an
  induction on runs.

Sums and products are chains of operands under left-associative operators, so the two loops are
one stage, `further`, with a `Level` as its parameter.
-/

namespace Abacus.Grammar
open Text

/-- The two levels of binary operators. -/
inductive Level where
  | term
  | expression
  deriving Repr, DecidableEq

/-- Where the descent stands: at a primary, at the beginning of a chain of operands, or behind an
operand of a chain, `left` being the tree so far. -/
inductive Stage where
  | primary
  | level (l : Level)
  | further (l : Level) (left : Expr)

/-- The operators of a level. -/
def Level.operator (extended : Bool) : Level → Char → Option Op
  | .term       => multiplicative extended
  | .expression => additive extended

/-- What a level's operators stand between. -/
def Level.operand : Level → Stage
  | .term       => .primary
  | .expression => .level .term

/-- What stands inside the nesting that a character opens. -/
def inside? : Char → Option Stage
  | '-' => some .primary
  | '(' => some (.level .expression)
  | _   => none

/-- A tree and the text left of it, or where the reading stopped. -/
abbrev Outcome := Except Stop (Expr × List Char)

/-- What was read, without the proof that the rest is short. -/
def Parsed.pair {n : Nat} (p : Parsed n) : Expr × List Char := (p.tree, p.rest)

/-- Reads from a stage on. -/
def read (extended : Bool) (room : Int) : Stage → List Char → Outcome
  | .primary, s                   => (primary extended room s).map Parsed.pair
  | .level .term, s               => (term extended room s).map Parsed.pair
  | .level .expression, s         => (expression extended room s).map Parsed.pair
  | .further .term left, s        =>
      (factors extended room (s.length + 1) left s s.length.lt_succ_self).map Parsed.pair
  | .further .expression left, s  =>
      (summands extended room (s.length + 1) left s s.length.lt_succ_self).map Parsed.pair

variable {extended : Bool} {room : Int}

/-! ### The equations of `read` -/

/-- The bound on a rest's length is no part of what is read. -/
theorem factors_bound {n m : Nat} {left : Expr} {s : List Char} (hn : s.length < n)
    (hm : s.length < m) : (factors extended room n left s hn).map Parsed.pair =
      (factors extended room m left s hm).map Parsed.pair := by
  rw [factors, factors]
  split
  · rfl
  · next c r h =>
      have hr := length_lt_of_skipBlanks h
      cases multiplicative extended c with
      | none => rfl
      | some op =>
          simp only
          cases primary extended room r with
          | error e => rfl
          | ok p => have := p.short; exact factors_bound _ _
  termination_by s.length

theorem summands_bound {n m : Nat} {left : Expr} {s : List Char} (hn : s.length < n)
    (hm : s.length < m) : (summands extended room n left s hn).map Parsed.pair =
      (summands extended room m left s hm).map Parsed.pair := by
  rw [summands, summands]
  split
  · rfl
  · next c r h =>
      have hr := length_lt_of_skipBlanks h
      cases additive extended c with
      | none => rfl
      | some op =>
          simp only
          cases term extended room r with
          | error e => rfl
          | ok p => have := p.short; exact summands_bound _ _
  termination_by s.length

theorem numeral_map (s : List Char) : (numeral room s).map Parsed.pair =
    match Numeral.scan s with
    | some (n, r) => .ok (.const n.value, r)
    | none        => .error ⟨.expectedNumber, s, room⟩ := by
  rw [numeral]
  split
  · next h => simp only [h]; rfl
  · next h => simp only [h]; rfl

theorem closeParen_ok {s r : List Char} (h : skipBlanks s = ')' :: r) :
    (closeParen room s).map Subtype.val = .ok r := by
  rw [closeParen]
  split
  · next h' => rw [h] at h'; cases h'; rfl
  · next hn => exact absurd h (hn r)

theorem closeParen_error {s : List Char} (h : ∀ r, skipBlanks s ≠ ')' :: r) :
    closeParen room s = .error ⟨.expectedCloseParen, skipBlanks s, room⟩ := by
  rw [closeParen]
  split
  · next h' => exact absurd h' (h _)
  · rfl

/-- A group is what stands inside it, when a parenthesis closes it. -/
theorem read_paren {s r : List Char} (h : skipBlanks s = '(' :: r) (hr : 0 < room) :
    read extended room .primary s =
      (read extended (room - 1) (.level .expression) r).bind fun p =>
        ((closeParen (room - 1) p.2).map Subtype.val).map fun k => (p.1, k) := by
  rw [read, primary]
  split
  · next h' => rw [h] at h'; cases h'
  · next h' =>
      rw [h] at h'
      cases h'
      rw [if_neg (Int.not_le.mpr hr), read]
      cases expression extended (room - 1) r with
      | error e => rfl
      | ok p =>
          cases hq : closeParen (room - 1) p.rest with
          | error e => simp [Except.map, Except.bind, Parsed.pair, hq]
          | ok q => simp [Except.map, Except.bind, Parsed.pair, hq]
  · next hn => exact absurd h (hn r)

theorem read_minus {s r : List Char} (h : skipBlanks s = '-' :: r) (hr : 0 < room) :
    read extended room .primary s =
      (read extended (room - 1) .primary r).map fun p => (.neg p.1, p.2) := by
  rw [read, primary]
  split
  · next h' =>
      rw [h] at h'
      cases h'
      rw [if_neg (Int.not_le.mpr hr), read]
      cases primary extended (room - 1) r <;> rfl
  · next h' => rw [h] at h'; cases h'
  · next hn _ => exact absurd h (hn r)

/-- Nothing more can be entered when there is no room. -/
theorem read_tooDeep {s r : List Char} {c : Char} {st : Stage} (h : skipBlanks s = c :: r)
    (hc : inside? c = some st) (hr : room ≤ 0) :
    read extended room .primary s = .error ⟨.tooDeep, r, room - 1⟩ := by
  rw [read, primary]
  split
  · next h' => rw [h] at h'; cases h'; rw [if_pos hr]; rfl
  · next h' => rw [h] at h'; cases h'; rw [if_pos hr]; rfl
  · next h₁ h₂ =>
      unfold inside? at hc
      split at hc
      · exact absurd h (h₁ r)
      · exact absurd h (h₂ r)
      · cases hc

theorem read_operand {s : List Char} (h : ∀ c ∈ (skipBlanks s).head?, inside? c = none) :
    read extended room .primary s =
      match Numeral.scan (skipBlanks s) with
      | some (n, k) => .ok (.const n.value, k)
      | none        => .error ⟨.expectedNumber, skipBlanks s, room⟩ := by
  rw [read, primary, ← numeral_map]
  split
  · next h' => rw [h'] at h; cases h '-' rfl
  · next h' => rw [h'] at h; cases h '(' rfl
  · cases numeral room (skipBlanks s) <;> rfl

theorem read_level {l : Level} {s : List Char} : read extended room (.level l) s =
    (read extended room l.operand s).bind fun p => read extended room (.further l p.1) p.2 := by
  cases l with
  | term =>
      rw [read, term, Level.operand, read]
      cases primary extended room s with
      | error e => rfl
      | ok p => exact factors_bound _ _
  | expression =>
      rw [read, expression, Level.operand, read]
      cases term extended room s with
      | error e => rfl
      | ok p => exact summands_bound _ _

/-- A chain ends where no operator of its level follows. -/
theorem read_stop {l : Level} {left : Expr} {s : List Char}
    (h : ∀ c ∈ (skipBlanks s).head?, l.operator extended c = none) :
    read extended room (.further l left) s = .ok (left, skipBlanks s) := by
  cases l with
  | term =>
      rw [read, factors]
      split
      · next h' => rw [h']; rfl
      · next c r h' =>
          have hc : multiplicative extended c = none := h c (by rw [h']; rfl)
          simp only [hc, h']
          rfl
  | expression =>
      rw [read, summands]
      split
      · next h' => rw [h']; rfl
      · next c r h' =>
          have hc : additive extended c = none := h c (by rw [h']; rfl)
          simp only [hc, h']
          rfl

/-- A chain goes on with the operand behind an operator. -/
theorem read_operator {l : Level} {left : Expr} {s r : List Char} {c : Char} {op : Op}
    (h : skipBlanks s = c :: r) (hop : l.operator extended c = some op) :
    read extended room (.further l left) s = (read extended room l.operand r).bind fun p =>
      read extended room (.further l (.binary op left p.1)) p.2 := by
  cases l with
  | term =>
      rw [read, factors]
      split
      · next h' => rw [h] at h'; cases h'
      · next h' =>
          rw [h] at h'
          cases h'
          have hc : multiplicative extended c = some op := hop
          simp only [hc, Level.operand, read]
          cases primary extended room r with
          | error e => rfl
          | ok p => exact factors_bound _ _
  | expression =>
      rw [read, summands]
      split
      · next h' => rw [h] at h'; cases h'
      · next h' =>
          rw [h] at h'
          cases h'
          have hc : additive extended c = some op := hop
          simp only [hc, Level.operand, read]
          cases term extended room r with
          | error e => rfl
          | ok p => exact summands_bound _ _

/-! ### Runs -/

/-- How a stage reads a text: one constructor for each way it can go. -/
inductive Reads (extended : Bool) : Int → Stage → List Char → Outcome → Prop where
  | numeral {room : Int} {s k : List Char} {n : Numeral} :
      Numeral.scan (skipBlanks s) = some (n, k) →
        Reads extended room .primary s (.ok (.const n.value, k))
  | noNumeral {room : Int} {s : List Char} :
      (∀ c ∈ (skipBlanks s).head?, inside? c = none) → Numeral.scan (skipBlanks s) = none →
        Reads extended room .primary s (.error ⟨.expectedNumber, skipBlanks s, room⟩)
  | tooDeep {room : Int} {s r : List Char} {c : Char} {st : Stage} :
      skipBlanks s = c :: r → inside? c = some st → room ≤ 0 →
        Reads extended room .primary s (.error ⟨.tooDeep, r, room - 1⟩)
  | inside {room : Int} {s r : List Char} {c : Char} {st : Stage} {e : Stop} :
      skipBlanks s = c :: r → inside? c = some st → 0 < room →
        Reads extended (room - 1) st r (.error e) → Reads extended room .primary s (.error e)
  | neg {room : Int} {s r k : List Char} {t : Expr} :
      skipBlanks s = '-' :: r → 0 < room → Reads extended (room - 1) .primary r (.ok (t, k)) →
        Reads extended room .primary s (.ok (.neg t, k))
  | group {room : Int} {s r u k : List Char} {t : Expr} :
      skipBlanks s = '(' :: r → 0 < room →
        Reads extended (room - 1) (.level .expression) r (.ok (t, u)) → skipBlanks u = ')' :: k →
        Reads extended room .primary s (.ok (t, k))
  | unclosed {room : Int} {s r u : List Char} {t : Expr} :
      skipBlanks s = '(' :: r → 0 < room →
        Reads extended (room - 1) (.level .expression) r (.ok (t, u)) →
        (∀ k, skipBlanks u ≠ ')' :: k) →
        Reads extended room .primary s (.error ⟨.expectedCloseParen, skipBlanks u, room - 1⟩)
  | first {room : Int} {l : Level} {s : List Char} {e : Stop} :
      Reads extended room l.operand s (.error e) → Reads extended room (.level l) s (.error e)
  | chain {room : Int} {l : Level} {s r : List Char} {t : Expr} {o : Outcome} :
      Reads extended room l.operand s (.ok (t, r)) → Reads extended room (.further l t) r o →
        Reads extended room (.level l) s o
  | stop {room : Int} {l : Level} {left : Expr} {s : List Char} :
      (∀ c ∈ (skipBlanks s).head?, l.operator extended c = none) →
        Reads extended room (.further l left) s (.ok (left, skipBlanks s))
  | operand {room : Int} {l : Level} {left : Expr} {s r : List Char} {c : Char} {op : Op}
      {e : Stop} :
      skipBlanks s = c :: r → l.operator extended c = some op →
        Reads extended room l.operand r (.error e) →
        Reads extended room (.further l left) s (.error e)
  | more {room : Int} {l : Level} {left t : Expr} {s r k : List Char} {c : Char} {op : Op}
      {o : Outcome} :
      skipBlanks s = c :: r → l.operator extended c = some op →
        Reads extended room l.operand r (.ok (t, k)) →
        Reads extended room (.further l (.binary op left t)) k o →
        Reads extended room (.further l left) s o

/-- No numeral begins with a character that opens a nesting. -/
theorem inside?_of_scan {c : Char} {s k : List Char} {n : Numeral}
    (h : Numeral.scan (c :: s) = some (n, k)) : inside? c = none := by
  have key : ∀ d ∈ ['-', '('], Numeral.scan (d :: s) = none := by
    intro d hd
    simp only [List.mem_cons, List.not_mem_nil, or_false] at hd
    rcases hd with rfl | rfl <;>
      exact Numeral.scan_eq_none_of_head (Numeral.digitValue?_sign _ (by simp)) (by decide)
        (by decide) s
  unfold inside?
  split
  · rw [key '-' (by simp)] at h; cases h
  · rw [key '(' (by simp)] at h; cases h
  · rfl

/-- A run of `read` is the only one there is. -/
theorem Reads.eq {st : Stage} {s : List Char} {o : Outcome} (h : Reads extended room st s o) :
    read extended room st s = o := by
  induction h with
  | @numeral room s k n h =>
      rw [read_operand, h]
      intro c hc
      cases hs : skipBlanks s with
      | nil => rw [hs] at hc; cases hc
      | cons d r => rw [hs] at hc h; cases hc; exact inside?_of_scan h
  | noNumeral hc h => rw [read_operand hc, h]
  | tooDeep h hc hr => exact read_tooDeep h hc hr
  | @inside _ _ _ c _ _ h hc hr _ ih =>
      unfold inside? at hc
      split at hc
      · cases hc; rw [read_minus h hr, ih]; rfl
      · cases hc; rw [read_paren h hr, ih]; rfl
      · cases hc
  | neg h hr _ ih => rw [read_minus h hr, ih]; rfl
  | group h hr _ hk ih =>
      rw [read_paren h hr, ih, Except.bind]
      simp only
      rw [closeParen_ok hk]
      rfl
  | unclosed h hr _ hk ih =>
      rw [read_paren h hr, ih, Except.bind]
      simp only
      rw [closeParen_error hk]
      rfl
  | first _ ih => rw [read_level, ih]; rfl
  | chain _ _ ih ih' => rw [read_level, ih]; exact ih'
  | stop h => exact read_stop h
  | operand h hop _ ih => rw [read_operator h hop, ih]; rfl
  | more h hop _ _ ih ih' => rw [read_operator h hop, ih]; exact ih'

/-- An operand is no empty text. -/
theorem length_read_operand {l : Level} {s k : List Char} {t : Expr}
    (h : read extended room l.operand s = .ok (t, k)) : k.length < s.length := by
  have key : ∀ {n : Nat} {x : Except Stop (Parsed n)}, x.map Parsed.pair = .ok (t, k) →
      k.length < n := by
    intro n x hx
    cases x with
    | error e => cases hx
    | ok p => cases hx; exact p.short
  cases l with
  | term => rw [Level.operand, read] at h; exact key h
  | expression => rw [Level.operand, read] at h; exact key h

/-- How many stages a stage may go through before it reads a character. -/
def Stage.rank : Stage → Nat
  | .primary           => 0
  | .further _ _       => 0
  | .level .term       => 1
  | .level .expression => 2

theorem rank_operand (l : Level) : l.operand.rank < (Stage.level l).rank := by
  cases l <;> decide

/-- A primary is read as the stage inside it is, when there is one and room for it. -/
theorem reads_inside {s r : List Char} {c : Char} {st : Stage} (h : skipBlanks s = c :: r)
    (hc : inside? c = some st) (hr : 0 < room)
    (ih : Reads extended (room - 1) st r (read extended (room - 1) st r)) :
    Reads extended room .primary s (read extended room .primary s) := by
  cases ho : read extended (room - 1) st r with
  | error e =>
      have hi := Reads.inside h hc hr (ho ▸ ih)
      rw [hi.eq]
      exact hi
  | ok p =>
      rw [ho] at ih
      unfold inside? at hc
      split at hc
      · cases hc
        rw [read_minus h hr, ho]
        exact .neg h hr ih
      · cases hc
        -- a group is read only when a parenthesis closes it
        by_cases hk : ∃ k, skipBlanks p.2 = ')' :: k
        · obtain ⟨k, hk⟩ := hk
          have hg := Reads.group h hr ih hk
          rw [hg.eq]
          exact hg
        · have hu := Reads.unclosed h hr ih fun k e => hk ⟨k, e⟩
          rw [hu.eq]
          exact hu
      · cases hc

/-- Every run of `read` is a derivation. -/
theorem reads_read (extended : Bool) (room : Int) (st : Stage) (s : List Char) :
    Reads extended room st s (read extended room st s) := by
  match st with
  | .primary =>
      by_cases hs : ∀ c ∈ (skipBlanks s).head?, inside? c = none
      · rw [read_operand hs]
        cases hn : Numeral.scan (skipBlanks s) with
        | none => exact .noNumeral hs hn
        | some p => exact .numeral hn
      · cases hb : skipBlanks s with
        | nil => rw [hb] at hs; exact absurd (fun c hc => by cases hc) hs
        | cons c r =>
            have hr := length_lt_of_skipBlanks hb
            cases hc : inside? c with
            | none => rw [hb] at hs; exact absurd (fun d hd => by cases hd; exact hc) hs
            | some st =>
                by_cases h0 : room ≤ 0
                · rw [read_tooDeep hb hc h0]
                  exact .tooDeep hb hc h0
                · exact reads_inside hb hc (Int.not_le.mp h0) (reads_read extended (room - 1) st r)
  | .level l =>
      have ih := reads_read extended room l.operand s
      rw [read_level]
      cases ho : read extended room l.operand s with
      | error e => rw [ho] at ih; exact .first ih
      | ok p =>
          rw [ho] at ih
          have hk := length_read_operand ho
          exact .chain ih (reads_read extended room (.further l p.1) p.2)
  | .further l left =>
      by_cases hs : ∀ c ∈ (skipBlanks s).head?, l.operator extended c = none
      · rw [read_stop hs]
        exact .stop hs
      · cases hb : skipBlanks s with
        | nil => rw [hb] at hs; exact absurd (fun c hc => by cases hc) hs
        | cons c r =>
            have hr := length_lt_of_skipBlanks hb
            cases hop : l.operator extended c with
            | none => rw [hb] at hs; exact absurd (fun d hd => by cases hd; exact hop) hs
            | some op =>
                have ih := reads_read extended room l.operand r
                rw [read_operator hb hop]
                cases ho : read extended room l.operand r with
                | error e => rw [ho] at ih; exact .operand hb hop ih
                | ok p =>
                    rw [ho] at ih
                    have hk := length_read_operand ho
                    exact .more hb hop ih (reads_read extended room (.further l _) p.2)
  -- a stage goes on with fewer characters, or with the same ones on a lower stage
  termination_by (s.length, st.rank)
  decreasing_by
    · exact .left _ _ hr
    · exact .right _ (rank_operand l)
    · exact .left _ _ hk
    · exact .left _ _ hr
    · exact .left _ _ (Nat.lt_trans hk hr)

/-- **`Reads` says what `read` does.** -/
theorem reads_iff {st : Stage} {s : List Char} {o : Outcome} :
    Reads extended room st s o ↔ read extended room st s = o :=
  ⟨Reads.eq, fun h => h ▸ reads_read extended room st s⟩

/-- An operand that no operator follows is all of an expression. -/
theorem Reads.lone {s k : List Char} {t : Expr} (h : Reads extended room .primary s (.ok (t, k)))
    (hk : ∀ l : Level, ∀ c ∈ (skipBlanks k).head?, l.operator extended c = none) :
    Reads extended room (.level .expression) s (.ok (t, skipBlanks k)) := by
  have hs := skipBlanks_skipBlanks k
  have hterm : Reads extended room (.level .term) s (.ok (t, skipBlanks k)) :=
    .chain h (.stop (hk .term))
  have hstop : Reads extended room (.further .expression t) (skipBlanks k)
      (.ok (t, skipBlanks (skipBlanks k))) := .stop (by rw [hs]; exact hk .expression)
  rw [hs] at hstop
  exact .chain hterm hstop

end Abacus.Grammar
