import Abacus.Proofs.Grammar.Calls

/-!
# Grammar — every rule ends

The rules call one another, their chains are loops, and the limit on nesting may be as large as one
likes.  Still every reading ends, soon, and with a small tree.

* `turn`: what a stage does, with the stages it goes on to left open.  `turn_eq` says that those are
  at a shorter rest, or at the same rest on a lower stage (`weight`).
* `attempt_eq`: hence a descent that nothing bounds, but that is given up when its calls are nested
  too deep, ends as the reading does if they may be nested as deep as its weight.
* `size_of_reads`: a reading takes at least one character for each node of its tree.
* `readBy_ends`: both together, for each rule at any cursor.
-/

namespace Abacus.Grammar
open Text

/-! ### Nodes and characters -/

/-- The nodes that a stage has before it reads. -/
def Stage.held : Stage → Nat
  | .further _ left      => left.size
  | .primary | .level _  => 0

theorem held_operand (l : Level) : l.operand.held = 0 := by
  cases l <;> rfl

/-- **A reading takes a character for each node** that it adds to those held. -/
theorem size_of_reads {extended : Bool} {room : Int} {st : Stage} {s : List Char} {o : Outcome}
    (h : Reads extended room st s o) :
    ∀ {t k}, o = .ok (t, k) → t.size + k.length ≤ st.held + s.length := by
  induction h with
  | noNumeral | tooDeep | inside | unclosed | first | operand => rintro _ _ ⟨⟩
  | @numeral room s k n h =>
      rintro _ _ ⟨⟩
      have hk := Numeral.length_scan h
      have hs := length_skipBlanks_le s
      simp only [Expr.size, Stage.held]
      omega
  | neg h _ _ ih =>
      rintro _ _ ⟨⟩
      have hr := length_lt_of_skipBlanks h
      have hi := ih rfl
      simp only [Expr.size, Stage.held] at hi ⊢
      omega
  | group h _ _ hclose ih =>
      rintro _ _ ⟨⟩
      have hr := length_lt_of_skipBlanks h
      have hk := length_lt_of_skipBlanks hclose
      have hi := ih rfl
      simp only [Stage.held] at hi ⊢
      omega
  | @chain room l s r t o _ _ ih ih' =>
      rintro t' k rfl
      have hi := ih rfl
      have hf := ih' rfl
      rw [held_operand] at hi
      simp only [Stage.held] at hf ⊢
      omega
  | @stop room l left s h =>
      rintro _ _ ⟨⟩
      exact Nat.add_le_add_left (length_skipBlanks_le s) _
  | @more room l left t s r k c op o h _ _ _ ih ih' =>
      -- the operator is a character for the node that joins the two trees
      rintro t' k' rfl
      have hr := length_lt_of_skipBlanks h
      have hi := ih rfl
      have hf := ih' rfl
      rw [held_operand] at hi
      simp only [Stage.held, Expr.size] at hf ⊢
      omega

/-! ### A descent that may be given up -/

/-- What is done at a cursor, if it is not given up before it ends. -/
abbrev Trial (α : Type) := ExceptT ParseError (StateT Cursor Option) α

theorem Stage.rank_lt (st : Stage) : st.rank < 3 := by
  cases st with
  | primary => decide
  | further => exact Nat.zero_lt_succ _
  | level l => cases l <;> decide

/-- The stage of a rule. -/
def Rule.stage : Rule → Stage
  | .primary    => .primary
  | .term       => .level .term
  | .expression => .level .expression

theorem held_stage (r : Rule) : r.stage.held = 0 := by
  cases r <;> rfl

namespace Cursor

/-- Carries out an action, which is never given up. -/
def carryOut {α : Type} (x : Action α) : Trial α := fun c => some (x c)

/-- What a stage does at a cursor, `self` being what is done at the stages it goes on to. -/
def turn (self : Stage → Trial Expr) : Stage → Trial Expr
  | .primary => do
      match ← carryOut look with
      | some '-' => do
          carryOut take
          carryOut enter
          let operand ← self .primary
          carryOut leave
          return .neg operand
      | some '(' => do
          carryOut take
          carryOut enter
          let inner ← self (.level .expression)
          carryOut close
          carryOut leave
          return inner
      | _        => carryOut readNumeral
  | .level l => do
      let left ← self l.operand
      self (.further l left)
  | .further l left => fun c => (do
      match ← carryOut (takeOne (l.marks c.extended)) with
      | none   => return left
      | some d =>
          let right ← self l.operand
          self (.further l (.binary (l.taken d) left right)) : Trial Expr) c

/-- Goes on from a stage, and gives up where more than `n` stages are inside one another. -/
def attempt : Nat → Stage → Trial Expr
  | 0     => fun _ _ => none
  | n + 1 => turn (attempt n)

variable {α β : Type} {c c' : Cursor}

/-- What ends as an action does, and goes on from there as another one does. -/
theorem ends_bind {x : Trial α} {y : Action α} {f : α → Trial β} {g : α → Action β}
    (h : x c = some (y c)) (hf : ∀ a c', y c = (.ok a, c') → f a c' = some (g a c')) :
    (x >>= f) c = some ((y >>= g) c) := by
  change ((x c).bind fun p => ExceptT.bindCont f p.1 p.2) =
    some (ExceptT.bindCont g (y c).1 (y c).2)
  rw [h]
  cases hy : y c with
  | mk r c' =>
      cases r with
      | error e => rfl
      | ok a => exact hf a c' hy

/-! ### The weight of what is left to do -/

/-- How deep a stage at a cursor can go: up to three stages for each character of the rest, and
those it goes through before it reads one. -/
def weight (st : Stage) (c : Cursor) : Nat := 3 * c.rest.length + st.rank

/-- A shorter rest weighs less, whatever the stage. -/
theorem weight_lt (st st' : Stage) (h : c'.rest.length < c.rest.length) :
    weight st' c' < weight st c := by
  have hrank := st'.rank_lt
  unfold weight
  omega

theorem length_goTo {d : Char} {r : List Char} (h : skipBlanks c.rest = d :: r) :
    (c.goTo r).rest.length < c.rest.length := by
  rw [rest_goTo (suffix_of_skipBlanks h)]
  exact length_lt_of_skipBlanks h

/-- Behind the character that was seen, one level further in. -/
theorem length_entered {d : Char} {c₁ c₂ c₃ : Cursor} (hlook : look c = (.ok (some d), c₁))
    (htake : take c₁ = (.ok (), c₂)) (henter : enter c₂ = (.ok (), c₃)) :
    c₃.rest.length < c.rest.length := by
  have hd : (skipBlanks c.rest).head? = some d := Except.ok.inj (congrArg Prod.fst hlook)
  obtain rfl : c.skip = c₁ := congrArg Prod.snd hlook
  obtain ⟨r, hr⟩ := List.head?_eq_some_iff.mp hd
  rw [take_skip hr] at htake
  obtain rfl : c.goTo r = c₂ := congrArg Prod.snd htake
  obtain rfl : { c.goTo r with depth := c.depth + 1 } = c₃ := congrArg Prod.snd henter
  exact length_goTo hr

theorem length_takeOne {chars : List Char} {d : Char}
    (h : takeOne chars c = (.ok (some d), c')) : c'.rest.length < c.rest.length := by
  simp only [takeOne, takeAny_eq] at h
  split at h
  · next hr =>
      split at h
      · cases h
        exact length_goTo hr
      · cases h
  · cases h

/-- What a reading that succeeds has read, and where it leaves the cursor. -/
theorem readStage_ok {st : Stage} {t : Expr} (h : readStage st c = (.ok t, c')) :
    ∃ k, Grammar.read c.extended c.room st c.rest = .ok (t, k) ∧ k <:+ c.rest ∧ c' = c.goTo k := by
  rw [readStage] at h
  cases ho : Grammar.read c.extended c.room st c.rest with
  | error e => rw [ho] at h; cases h
  | ok p =>
      have hs := suffix_of_read ho
      rw [ho] at h
      cases h
      exact ⟨p.2, rfl, hs, rfl⟩

theorem length_readOperand {l : Level} {t : Expr} (h : readStage l.operand c = (.ok t, c')) :
    c'.rest.length < c.rest.length := by
  obtain ⟨k, hk, hs, rfl⟩ := readStage_ok h
  rw [rest_goTo hs]
  exact length_read_operand hk

/-- **A stage goes on to less weight only**: where `self` reads at every smaller weight, its turn
is a reading. -/
theorem turn_eq {self : Stage → Trial Expr} {st : Stage}
    (h : ∀ st' c', weight st' c' < weight st c → self st' c' = some (readStage st' c')) :
    turn self st c = some (readStage st c) := by
  cases st with
  | primary =>
      rw [readStage_primary]
      refine ends_bind rfl fun d? c₁ hlook => ?_
      split
      · refine ends_bind rfl fun _ c₂ htake => ends_bind rfl fun _ c₃ henter => ?_
        exact ends_bind (h _ _ (weight_lt _ _ (length_entered hlook htake henter))) fun _ _ _ => rfl
      · refine ends_bind rfl fun _ c₂ htake => ends_bind rfl fun _ c₃ henter => ?_
        refine ends_bind (h _ _ (weight_lt _ _ (length_entered hlook htake henter))) fun _ _ _ => ?_
        exact ends_bind rfl fun _ _ _ => rfl
      · next hminus hparen =>
          rw [primaryFrom]
          · rfl
          · exact hminus
          · exact hparen
  | level l =>
      rw [readStage_level]
      refine ends_bind (h _ _ (Nat.add_lt_add_left (rank_operand l) _)) fun left c' hread => ?_
      exact h _ _ (weight_lt _ _ (length_readOperand hread))
  | further l left =>
      rw [readStage_further]
      refine ends_bind rfl fun d? c₁ htake => ?_
      cases d? with
      | none => rfl
      | some d =>
          have hlt := length_takeOne htake
          refine ends_bind (h _ _ (weight_lt _ _ hlt)) fun right c₂ hread => ?_
          exact h _ _ (weight_lt _ _ (Nat.lt_trans (length_readOperand hread) hlt))

/-- **A descent ends** when its calls may be nested as deep as its weight. -/
theorem attempt_eq (n : Nat) : ∀ {st : Stage} {c : Cursor}, weight st c < n →
    attempt n st c = some (readStage st c) := by
  induction n with
  | zero => exact fun h => absurd h (Nat.not_lt_zero _)
  | succ n ih =>
      intro st c h
      exact turn_eq fun st' c' hlt => ih (Nat.lt_of_lt_of_le hlt (Nat.le_of_lt_succ h))

/-! ### The rules -/

/-- Reads by a rule. -/
def readBy : Rule → Cursor → Except ParseError Expr × Cursor
  | .primary    => readPrimary
  | .term       => readTerm
  | .expression => readExpression

theorem readBy_eq (r : Rule) (c : Cursor) : c.readBy r = readStage r.stage c := by
  cases r with
  | primary => exact c.readPrimary_eq
  | term => exact c.readTerm_eq
  | expression => exact c.readExpression_eq

/-- **Every rule ends, and reads a small tree.**  At any cursor, whatever the limit on nesting, the
descent by a rule ends as the reading does once its calls and the turns of its loops may be nested
three deep for each character left, and three more.  When a tree is read, the cursor has gone on by
a character at least, and the tree has no more nodes than characters were read. -/
theorem readBy_ends (r : Rule) (c : Cursor) :
    (∀ n, 3 * c.rest.length + 3 ≤ n → attempt n r.stage c = some (c.readBy r)) ∧
    ∀ t c', c.readBy r = (.ok t, c') →
      c.pos + 1 ≤ c'.pos ∧ c'.pos ≤ c.source.length ∧ t.size ≤ c'.pos - c.pos := by
  rw [readBy_eq]
  refine ⟨fun n hn => attempt_eq n ?_, fun t c' h => ?_⟩
  · have hrank := r.stage.rank_lt
    unfold weight
    omega
  · obtain ⟨k, hk, -, rfl⟩ := readStage_ok h
    have hsize := size_of_reads (reads_iff.mpr hk) rfl
    have hpos := t.size_pos
    have hplace : (c.goTo k).pos = c.source.length - k.length := rfl
    rw [held_stage, length_rest] at hsize
    omega

/-- Behind the parenthesis of `(-2`, with a limit of a thousand million, a sign and a digit are read
as two nodes, and calls that may be nested nine deep are enough for it. -/
theorem readBy_ends_negated :
    let c : Cursor := ⟨"(-2".toList, 1, 1, false, 1000000000⟩
    let c' : Cursor := { c with pos := 3 }
    3 * c.rest.length + 3 ≤ 9 ∧ c.readBy .primary = (.ok (.neg two), c') ∧
      attempt 9 .primary c = some (.ok (.neg two), c') ∧
      c.pos + 1 ≤ c'.pos ∧ c'.pos ≤ c.source.length ∧ (Expr.neg two).size ≤ c'.pos - c.pos := by
  intro c c'
  have hreads : Reads false 999999999 .primary "-2".toList (.ok (.neg two, [])) :=
    .neg (r := ['2']) rfl (by decide) (.numeral rfl)
  have hread : c.readBy .primary = (.ok (.neg two), c') := readPrimary_of_reads (c := c) hreads
  have hlen : 3 * c.rest.length + 3 ≤ 9 := Nat.le_refl _
  obtain ⟨hends, hsmall⟩ := readBy_ends .primary c
  exact ⟨hlen, hread, hread ▸ hends 9 hlen, hsmall _ _ hread⟩

end Cursor

end Abacus.Grammar
