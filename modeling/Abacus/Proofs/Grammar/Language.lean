import Abacus.Grammar.Derivation
import Abacus.Grammar.Parse
import Abacus.Proofs.Grammar.Reads

/-!
# Grammar — strict parsing accepts the language

`Derives` says which phrases have which trees; the descent reads greedily, one character ahead.

* `covers_of_reads` (soundness): what a stage reads is a phrase of its rule, blanks around it, with
  the tree that was read.  Behind an operand, `further` lengthens the phrase read so far.
* `read_of_derives` (completeness): a phrase is read whole wherever a text follows that does not go
  on with it.  A phrase of a chain brings the descent to the loop of its level, with the phrase's
  tree at the left, so the induction on a chain is on its left part.
* `parse_strict_iff_sentence`: a strict parse succeeds exactly on the sentences of the grammar, and
  a text is a sentence with one tree at most.

The room of a run bounds the nesting of the derivation: what is entered has one room less.
-/

namespace Abacus.Grammar
open Text

variable {extended : Bool} {room : Int}

/-! ### Blanks -/

theorem blanks_nil : Blanks [] := rfl

theorem Blanks.append {b b' : List Char} (h : Blanks b) (h' : Blanks b') : Blanks (b ++ b') := by
  unfold Blanks at h h' ⊢
  rw [List.all_append, h, h']
  rfl

theorem exists_blanks (s : List Char) : ∃ b, s = b ++ skipBlanks s ∧ Blanks b :=
  ⟨s.takeWhile isBlank, (List.takeWhile_append_dropWhile).symm, List.all_takeWhile⟩

theorem skipBlanks_append {b : List Char} (h : Blanks b) (s : List Char) :
    skipBlanks (b ++ s) = skipBlanks s :=
  List.dropWhile_append_of_pos (List.all_eq_true.mp h)

theorem skipBlanks_blanks {b : List Char} (h : Blanks b) : skipBlanks b = [] := by
  have := skipBlanks_append h []
  rwa [List.append_nil] at this

theorem skipBlanks_cons {c : Char} (h : isBlank c = false) (s : List Char) :
    skipBlanks (c :: s) = c :: s := by
  rw [skipBlanks, List.dropWhile_cons, h]
  rfl

theorem foreign_of_isBlank {c : Char} (h : isBlank c = true) : Numeral.Foreign c := by
  simp only [isBlank, Bool.or_eq_true, beq_iff_eq] at h
  rcases h with ((((rfl | rfl) | rfl) | rfl) | rfl) | rfl <;> exact ⟨by decide, by decide⟩

/-- No numeral goes on into a blank. -/
theorem ends_of_isBlank {c : Char} (h : isBlank c = true) (s : List Char) :
    Numeral.Ends (c :: s) := (foreign_of_isBlank h).ends s

theorem ends_append {b k : List Char} (h : Blanks b) (hk : Numeral.Ends k) :
    Numeral.Ends (b ++ k) := by
  cases b with
  | nil => exact hk
  | cons c b =>
      rw [Blanks] at h
      rw [List.all_cons, Bool.and_eq_true] at h
      exact ends_of_isBlank h.1 (b ++ k)

/-- A numeral begins with no blank. -/
theorem skipBlanks_of_scan {s k : List Char} {n : Numeral} (h : Numeral.scan s = some (n, k)) :
    skipBlanks s = s := by
  cases s with
  | nil => rfl
  | cons c s =>
      cases hc : isBlank c with
      | false => exact skipBlanks_cons hc s
      | true =>
          have hd := (ends_of_isBlank hc s c rfl).1
          have hs : c ≠ '+' := by rintro rfl; cases hc
          rw [Numeral.scan_eq_none_of_head hd (ends_of_isBlank hc s c rfl).2.1 hs] at h
          cases h

/-! ### Levels and their rules -/

/-- The rule of a level's chains. -/
def Level.rule : Level → Rule
  | .term       => .term
  | .expression => .expression

/-- The rule of a level's operands. -/
def Level.inner : Level → Rule
  | .term       => .primary
  | .expression => .term

/-- One operand is a chain. -/
theorem Derives.single {l : Level} {m : Nat} {w : List Char} {t : Expr}
    (h : Derives extended l.inner m w t) : Derives extended l.rule m w t := by
  cases l with
  | term => exact .factor h
  | expression => exact .summand h

/-- A chain, an operator and an operand are a chain. -/
theorem Derives.binary {l : Level} {m : Nat} {v b b' w : List Char} {c : Char} {op : Op}
    {left right : Expr} (hv : Derives extended l.rule m v left) (hb : Blanks b)
    (hop : l.operator extended c = some op) (hb' : Blanks b')
    (hw : Derives extended l.inner m w right) :
    Derives extended l.rule m (v ++ b ++ c :: (b' ++ w)) (.binary op left right) := by
  cases l with
  | term => exact .product hv hb hop hb' hw
  | expression => exact .sum hv hb hop hb' hw

theorem mem_of_operator {l : Level} {c : Char} {op : Op} (h : l.operator extended c = some op) :
    c ∈ ['+', '-', '*', '/'] := by
  cases l with
  | term =>
      change multiplicative extended c = some op at h
      unfold multiplicative at h
      split at h
      · simp
      · simp
      · cases h
  | expression =>
      change additive extended c = some op at h
      unfold additive at h
      split at h
      · simp
      · simp
      · cases h

theorem multiplicative_of_additive {c : Char} {op : Op} (h : additive extended c = some op) :
    multiplicative extended c = none := by
  unfold additive at h
  split at h
  · rfl
  · rfl
  · cases h

/-! ### Soundness -/

/-- `s` begins with a phrase of the rule `r` for `t`, blanks before and after it, and goes on with
`k`. -/
def Phrase (extended : Bool) (r : Rule) (m : Nat) (s : List Char) (t : Expr) (k : List Char) :
    Prop :=
  ∃ b w b', s = b ++ w ++ b' ++ k ∧ Blanks b ∧ Derives extended r m w t ∧ Blanks b'

/-- What the reading of a stage says about the text read. -/
def Covers (extended : Bool) (m : Nat) : Stage → List Char → Expr → List Char → Prop
  | .primary, s, t, k        => Phrase extended .primary m s t k
  | .level l, s, t, k        => Phrase extended l.rule m s t k
  | .further l left, s, t, k =>
      ∀ {v b₀ : List Char}, Derives extended l.rule m v left → Blanks b₀ →
        ∃ w b', b₀ ++ s = w ++ b' ++ k ∧ Derives extended l.rule m (v ++ w) t ∧ Blanks b'

theorem covers_operand {l : Level} {m : Nat} {s k : List Char} {t : Expr} :
    Covers extended m l.operand s t k ↔ Phrase extended l.inner m s t k := by
  cases l <;> exact Iff.rfl

/-- A run that succeeds has read a phrase. -/
theorem covers_of_reads {st : Stage} {s : List Char} {o : Outcome}
    (h : Reads extended room st s o) :
    ∀ {t k}, o = .ok (t, k) → Covers extended room.toNat st s t k := by
  induction h with
  | @numeral room s k n h =>
      rintro _ _ ⟨⟩
      obtain ⟨b, hs, hb⟩ := exists_blanks s
      obtain ⟨w, hk, hw⟩ := Numeral.writes_of_scan h
      exact ⟨b, w, [], by rw [hs, hk]; simp, hb, .numeral hw, blanks_nil⟩
  | noNumeral | tooDeep | inside | unclosed | first | operand => rintro _ _ ⟨⟩
  | @neg room s r k t h hr _ ih =>
      rintro _ _ ⟨⟩
      obtain ⟨b, hs, hb⟩ := exists_blanks s
      obtain ⟨b₁, w, b₂, rfl, hb₁, hw, hb₂⟩ := ih rfl
      have hm : room.toNat = (room - 1).toNat + 1 := by omega
      refine ⟨b, '-' :: (b₁ ++ w), b₂, by rw [hs, h]; simp, hb, ?_, hb₂⟩
      rw [hm]
      exact .neg hb₁ hw
  | @group room s r u k t h hr _ hk ih =>
      rintro _ _ ⟨⟩
      obtain ⟨b, hs, hb⟩ := exists_blanks s
      obtain ⟨b₁, w, b₂, rfl, hb₁, hw, hb₂⟩ := ih rfl
      obtain ⟨b₃, hu, hb₃⟩ := exists_blanks u
      have hm : room.toNat = (room - 1).toNat + 1 := by omega
      refine ⟨b, '(' :: (b₁ ++ w ++ (b₂ ++ b₃) ++ [')']), [], ?_, hb, ?_, blanks_nil⟩
      · rw [hs, h, hu, hk]; simp
      · rw [hm]
        exact .group hb₁ hw (hb₂.append hb₃)
  | @chain room l s r t o _ _ ih ih' =>
      -- the first operand is a chain, and the blanks behind it are the ones before what is left
      rintro t' k rfl
      obtain ⟨b, w, b', rfl, hb, hw, hb'⟩ := covers_operand.mp (ih rfl)
      obtain ⟨w', b'', hr, ht, hb''⟩ := ih' rfl hw.single hb'
      exact ⟨b, w ++ w', b'', by rw [List.append_assoc _ _ r, hr]; simp, hb, ht, hb''⟩
  | @stop room l left s h =>
      rintro _ _ ⟨⟩ v b₀ hv hb₀
      obtain ⟨b, hs, hb⟩ := exists_blanks s
      refine ⟨[], b₀ ++ b, ?_, by rwa [List.append_nil], hb₀.append hb⟩
      rw [List.nil_append, List.append_assoc, ← hs]
  | @more room l left t s r k c op o h hop _ _ ih ih' =>
      rintro t' k' rfl v b₀ hv hb₀
      obtain ⟨b, hs, hb⟩ := exists_blanks s
      obtain ⟨b₁, w, b₂, rfl, hb₁, hw, hb₂⟩ := covers_operand.mp (ih rfl)
      obtain ⟨w', b', hk, ht, hb'⟩ := ih' rfl (hv.binary (hb₀.append hb) hop hb₁ hw) hb₂
      refine ⟨b₀ ++ b ++ c :: (b₁ ++ w) ++ w', b', ?_, by simpa using ht, hb'⟩
      rw [hs, h, List.append_assoc _ b₂, hk]
      simp

/-! ### Completeness -/

/-- A text that does not go on with a phrase of the rule before it. -/
def Closes (extended : Bool) : Rule → List Char → Prop
  | .primary, k | .term, k => Numeral.Ends k
  | .expression, k         =>
      Numeral.Ends k ∧ ∀ c ∈ (skipBlanks k).head?, multiplicative extended c = none

/-- What the descent makes of a phrase and what follows it. -/
def Reaches (extended : Bool) (room : Int) : Rule → List Char → Expr → List Char → Prop
  | .primary, s, t, k    => read extended room .primary s = .ok (t, k)
  | .term, s, t, k       =>
      read extended room (.level .term) s = read extended room (.further .term t) k
  | .expression, s, t, k =>
      read extended room (.level .expression) s = read extended room (.further .expression t) k

/-- A chain skips the blanks before its operators. -/
theorem read_further_skip {l : Level} {left : Expr} (k : List Char) :
    read extended room (.further l left) (skipBlanks k) =
      read extended room (.further l left) k := by
  by_cases h : ∀ c ∈ (skipBlanks k).head?, l.operator extended c = none
  · rw [read_stop h, read_stop (by rwa [skipBlanks_skipBlanks]), skipBlanks_skipBlanks]
  · cases hk : skipBlanks k with
    | nil => rw [hk] at h; exact absurd (fun c hc => by cases hc) h
    | cons c r =>
        have hs : skipBlanks (c :: r) = c :: r := by rw [← hk, skipBlanks_skipBlanks]
        cases hop : l.operator extended c with
        | none => rw [hk] at h; exact absurd (fun d hd => by cases hd; exact hop) h
        | some op => rw [read_operator hs hop, read_operator hk hop]

/-- An operator between blanks goes on with no numeral, and is the next thing to be read. -/
theorem operator_ahead {l : Level} {b s : List Char} {c : Char} {op : Op} (hb : Blanks b)
    (hop : l.operator extended c = some op) :
    Numeral.Ends (b ++ c :: s) ∧ skipBlanks (b ++ c :: s) = c :: s := by
  have key : ∀ d ∈ ['+', '-', '*', '/'],
      (digitValue? d = none ∧ d ≠ '.' ∧ Numeral.isMark d = false) ∧ isBlank d = false := by
    simp only [List.forall_mem_cons, List.not_mem_nil, false_implies, implies_true]
    decide
  obtain ⟨he, hc⟩ := key c (mem_of_operator hop)
  refine ⟨ends_append hb fun d hd => by cases hd; exact he, ?_⟩
  rw [skipBlanks_append hb, skipBlanks_cons hc]

/-- An operator goes on with no phrase of its own level. -/
theorem closes_operator {l : Level} {b s : List Char} {c : Char} {op : Op} (hb : Blanks b)
    (hop : l.operator extended c = some op) : Closes extended l.rule (b ++ c :: s) := by
  obtain ⟨hend, hahead⟩ := operator_ahead (s := s) hb hop
  cases l with
  | term => exact hend
  | expression =>
      refine ⟨hend, fun d hd => ?_⟩
      rw [hahead] at hd
      cases hd
      exact multiplicative_of_additive hop

/-- Behind a phrase that is a chain so far, an operator asks for one more operand. -/
theorem read_chain {l : Level} {s b r : List Char} {c : Char} {op : Op} {left : Expr}
    (h : Reaches extended room l.rule (s ++ (b ++ c :: r)) left (b ++ c :: r)) (hb : Blanks b)
    (hop : l.operator extended c = some op) :
    read extended room (.level l) (s ++ (b ++ c :: r)) = (read extended room l.operand r).bind
      fun p => read extended room (.further l (.binary op left p.1)) p.2 := by
  have hl : read extended room (.level l) (s ++ (b ++ c :: r)) =
      read extended room (.further l left) (b ++ c :: r) := by
    cases l <;> exact h
  rw [hl, read_operator (operator_ahead hb hop).2 hop]

/-- A closing parenthesis goes on with no numeral either. -/
theorem paren_ahead {b s : List Char} (hb : Blanks b) :
    Numeral.Ends (b ++ ')' :: s) ∧ skipBlanks (b ++ ')' :: s) = ')' :: s := by
  refine ⟨ends_append hb fun d hd => by cases hd; decide, ?_⟩
  rw [skipBlanks_append hb, skipBlanks_cons (by decide)]

/-- A phrase is read whole before a text that does not go on with it. -/
theorem read_of_derives {r : Rule} {m : Nat} {w : List Char} {t : Expr}
    (h : Derives extended r m w t) : ∀ {room : Int} {b k : List Char}, (m : Int) ≤ room →
      Blanks b → Closes extended r k → Reaches extended room r (b ++ w ++ k) t k := by
  induction h with
  | @numeral m w n hw =>
      intro room b k _ hb hk
      have hs := Numeral.scan_append hw hk
      refine (Reads.numeral ?_).eq
      rw [List.append_assoc, skipBlanks_append hb, skipBlanks_of_scan hs, hs]
  | @neg m b₁ w e hb₁ _ ih =>
      intro room b k hm hb hk
      have hs : skipBlanks (b ++ '-' :: (b₁ ++ w) ++ k) = '-' :: (b₁ ++ w ++ k) := by
        rw [List.append_assoc, skipBlanks_append hb]
        exact skipBlanks_cons (by decide) _
      have he : read extended (room - 1) .primary (b₁ ++ w ++ k) = .ok (e, k) :=
        ih (by omega) hb₁ hk
      show read extended room .primary _ = _
      rw [read_minus hs (by omega), he]
      rfl
  | @group m b₁ w b₂ e hb₁ _ hb₂ ih =>
      intro room b k hm hb hk
      have hs : skipBlanks (b ++ '(' :: (b₁ ++ w ++ b₂ ++ [')']) ++ k) =
          '(' :: (b₁ ++ w ++ (b₂ ++ ')' :: k)) := by
        rw [List.append_assoc, skipBlanks_append hb, List.cons_append,
          skipBlanks_cons (by decide)]
        simp
      -- no chain goes on behind the phrase, for the next token is the parenthesis
      obtain ⟨hend, hahead⟩ := paren_ahead (s := k) hb₂
      have hstop : ∀ l : Level,
          ∀ c ∈ (skipBlanks (b₂ ++ ')' :: k)).head?, l.operator extended c = none := by
        intro l c hc
        rw [hahead] at hc
        cases hc
        cases l <;> rfl
      have he : read extended (room - 1) (.level .expression) (b₁ ++ w ++ (b₂ ++ ')' :: k)) =
          read extended (room - 1) (.further .expression e) (b₂ ++ ')' :: k) :=
        ih (by omega) hb₁ ⟨hend, hstop .term⟩
      rw [read_stop (hstop .expression), hahead] at he
      show read extended room .primary _ = _
      rw [read_paren hs (by omega), he, Except.bind]
      simp only
      rw [closeParen_ok (skipBlanks_cons (by decide) k)]
      rfl
  | @factor m w e _ ih =>
      intro room b k hm hb hk
      have he : read extended room .primary (b ++ w ++ k) = .ok (e, k) := ih hm hb hk
      show read extended room (.level .term) _ = _
      rw [read_level, Level.operand, he]
      rfl
  | @product m v b₁ b₂ w c op left right _ hb₁ hop hb₂ _ ih ih' =>
      intro room b k hm hb hk
      replace hop : Level.operator extended .term c = some op := hop
      have hl := ih (k := b₁ ++ c :: (b₂ ++ w ++ k)) hm hb (closes_operator hb₁ hop)
      have hr : read extended room .primary (b₂ ++ w ++ k) = .ok (right, k) := ih' hm hb₂ hk
      show read extended room (.level .term) _ = _
      rw [show b ++ (v ++ b₁ ++ c :: (b₂ ++ w)) ++ k = b ++ v ++ (b₁ ++ c :: (b₂ ++ w ++ k)) by
        simp, read_chain (l := .term) hl hb₁ hop, Level.operand, hr]
      rfl
  | @summand m w e _ ih =>
      intro room b k hm hb hk
      have he : read extended room (.level .term) (b ++ w ++ k) =
          read extended room (.further .term e) k := ih hm hb hk.1
      -- the term's chain stops at `k`, and the expression's goes on from there
      show read extended room (.level .expression) _ = _
      rw [read_level, Level.operand, he, read_stop hk.2, Except.bind]
      exact read_further_skip k
  | @sum m v b₁ b₂ w c op left right _ hb₁ hop hb₂ _ ih ih' =>
      intro room b k hm hb hk
      replace hop : Level.operator extended .expression c = some op := hop
      have hl := ih (k := b₁ ++ c :: (b₂ ++ w ++ k)) hm hb (closes_operator hb₁ hop)
      have hr : read extended room (.level .term) (b₂ ++ w ++ k) =
          read extended room (.further .term right) k := ih' hm hb₂ hk.1
      show read extended room (.level .expression) _ = _
      rw [show b ++ (v ++ b₁ ++ c :: (b₂ ++ w)) ++ k = b ++ v ++ (b₁ ++ c :: (b₂ ++ w ++ k)) by
        simp, read_chain (l := .expression) hl hb₁ hop, Level.operand, hr, read_stop hk.2,
        Except.bind]
      exact read_further_skip k

/-- A phrase of an expression is all that is read before a text that begins with no operator. -/
theorem read_expression_of_derives {m : Nat} {b w k : List Char} {t : Expr}
    (h : Derives extended .expression m w t) (hm : (m : Int) ≤ room) (hb : Blanks b)
    (hk : Closes extended .expression k)
    (hstop : ∀ c ∈ (skipBlanks k).head?, additive extended c = none) :
    read extended room (.level .expression) (b ++ w ++ k) = .ok (t, skipBlanks k) := by
  have he : read extended room (.level .expression) (b ++ w ++ k) =
      read extended room (.further .expression t) k := read_of_derives h hm hb hk
  rw [he, read_stop hstop]

/-! ### Parsing -/

/-- A chain leaves no blanks before what it leaves. -/
theorem skipBlanks_of_reads {st : Stage} {s : List Char} {o : Outcome}
    (h : Reads extended room st s o) :
    ∀ {t k}, o = .ok (t, k) → st ≠ .primary → skipBlanks k = k := by
  induction h with
  | numeral | noNumeral | tooDeep | inside | neg | group | unclosed =>
      intro _ _ _ hst
      exact absurd rfl hst
  | first | operand => rintro _ _ ⟨⟩
  | chain _ _ _ ih | more _ _ _ _ _ ih => exact fun ho _ => ih ho (by simp)
  | stop => rintro _ _ ⟨⟩ _; exact skipBlanks_skipBlanks _

theorem parseChars_of_error {o : Options} {s : List Char} {e : Stop}
    (h : read o.extended o.maxDepth (.level .expression) s = .error e) :
    parseChars o s = .error ⟨.ofReason o.maxDepth e.reason, s.length - e.rest.length⟩ := by
  rw [read] at h
  unfold parseChars parsePrefix
  cases he : expression o.extended o.maxDepth s with
  | error e' => rw [he] at h; cases h; rfl
  | ok p => rw [he] at h; cases h

/-- What is left of the text is an error in strict mode, and nothing otherwise. -/
theorem parseChars_of_ok {o : Options} {s k : List Char} {t : Expr}
    (h : read o.extended o.maxDepth (.level .expression) s = .ok (t, k)) :
    parseChars o s = if o.strict = true ∧ k ≠ [] then
      .error ⟨.trailingInput k, s.length - k.length⟩ else .ok t := by
  have hk := skipBlanks_of_reads (reads_iff.mpr h) rfl (by simp)
  rw [read] at h
  unfold parseChars parsePrefix
  cases he : expression o.extended o.maxDepth s with
  | error e => rw [he] at h; cases h
  | ok p =>
      rw [he] at h
      cases h
      simp only [hk]
      cases p.rest with
      | nil => simp
      | cons c r => simp

/-- A text parses as what is read from it; in strict mode nothing is left of it. -/
theorem read_of_parse_ok {source : String} {o : Options} {t : Expr} (h : parse source o = .ok t) :
    ∃ k, read o.extended o.maxDepth (.level .expression) source.toList = .ok (t, k) ∧
      (o.strict = true → k = []) := by
  rw [parse] at h
  cases hr : read o.extended o.maxDepth (.level .expression) source.toList with
  | error e => rw [parseChars_of_error hr] at h; cases h
  | ok p =>
      rw [parseChars_of_ok hr] at h
      split at h
      · cases h
      · next hk =>
          cases h
          exact ⟨p.2, rfl, fun hs => Decidable.not_not.mp fun hne => hk ⟨hs, hne⟩⟩

/-- A tree that a text parses as is derived by some part of it. -/
theorem derives_of_parse {source : String} {o : Options} {t : Expr} (h : parse source o = .ok t) :
    ∃ w, Derives o.extended .expression o.maxDepth.toNat w t := by
  obtain ⟨k, hr, -⟩ := read_of_parse_ok h
  obtain ⟨_, w, _, -, -, hw, -⟩ := covers_of_reads (reads_iff.mpr hr) rfl
  exact ⟨w, hw⟩

/-- An error is where the reading stopped, or what it left of the text in strict mode. -/
theorem read_of_parse_error {source : String} {o : Options} {e : ParseError}
    (h : parse source o = .error e) :
    (∃ f, read o.extended o.maxDepth (.level .expression) source.toList = .error f ∧
        e = ⟨.ofReason o.maxDepth f.reason, source.toList.length - f.rest.length⟩) ∨
      o.strict = true ∧ ∃ t k,
        read o.extended o.maxDepth (.level .expression) source.toList = .ok (t, k) ∧ k ≠ [] ∧
          e = ⟨.trailingInput k, source.toList.length - k.length⟩ := by
  rw [parse] at h
  cases hr : read o.extended o.maxDepth (.level .expression) source.toList with
  | error f => rw [parseChars_of_error hr] at h; cases h; exact .inl ⟨f, rfl, rfl⟩
  | ok p =>
      rw [parseChars_of_ok hr] at h
      split at h
      · next hk => cases h; exact .inr ⟨hk.1, p.1, p.2, rfl, hk.2, rfl⟩
      · cases h

theorem read_of_sentence {m : Nat} {s : List Char} {t : Expr} (h : Sentence extended m s t)
    (hm : (m : Int) ≤ room) : read extended room (.level .expression) s = .ok (t, []) := by
  obtain ⟨b, w, b', rfl, hb, hw, hb'⟩ := h
  have hnil := skipBlanks_blanks hb'
  have hend : Numeral.Ends b' := by
    rw [← List.append_nil b']
    exact ends_append hb' Numeral.ends_nil
  rw [read_expression_of_derives hw hm hb ⟨hend, ?_⟩ ?_, hnil]
  · rw [hnil]; intro c hc; cases hc
  · rw [hnil]; intro c hc; cases hc

theorem sentence_of_read {m : Nat} {s k : List Char} {t : Expr}
    (h : read extended m (.level .expression) s = .ok (t, k)) (hk : skipBlanks k = []) :
    Sentence extended m s t := by
  have hc := covers_of_reads (reads_iff.mpr h) rfl
  rw [Int.toNat_natCast] at hc
  obtain ⟨b, w, b', rfl, hb, hw, hb'⟩ := hc
  obtain ⟨b'', hs, hb''⟩ := exists_blanks k
  rw [hk, List.append_nil] at hs
  subst hs
  exact ⟨b, w, b' ++ k, by rw [List.append_assoc _ b' k], hb, hw, hb'.append hb''⟩

/-- **Strict parsing accepts exactly the language of the grammar**, with the tree of the grammar,
and no text is a sentence with two trees. -/
theorem parse_strict_iff_sentence (source : String) (extended : Bool) (m : Nat) (t : Expr) :
    (parse source { strict := true, extended, maxDepth := m } = .ok t ↔
      Sentence extended m source.toList t) ∧
    ∀ m' t', Sentence extended m source.toList t → Sentence extended m' source.toList t' →
      t = t' := by
  refine ⟨⟨fun h => ?_, fun h => ?_⟩, fun m' t' h h' => ?_⟩
  · rw [parse] at h
    cases hr : read extended m (.level .expression) source.toList with
    | error e => rw [parseChars_of_error hr] at h; cases h
    | ok p =>
        rw [parseChars_of_ok hr] at h
        split at h
        · cases h
        · next hk =>
            cases h
            refine sentence_of_read hr ?_
            cases hn : p.2 with
            | nil => rfl
            | cons c r => exact absurd ⟨rfl, by simp [hn]⟩ hk
  · rw [parse]
    rw [parseChars_of_ok (read_of_sentence h (Int.le_refl _))]
    simp
  · have hr := read_of_sentence h (Int.ofNat_le.mpr (Nat.le_max_left m m'))
    rw [read_of_sentence h' (Int.ofNat_le.mpr (Nat.le_max_right m m'))] at hr
    cases hr
    rfl

/-- The tree of `2 * -.5`. -/
def scaledNegation : Expr :=
  .binary .mul (.const (Numeral.value ⟨[2], [], 0⟩)) (.neg (.const (Numeral.value ⟨[], [5], 0⟩)))

theorem sentence_scaledNegation (m : Nat) :
    Sentence true (m + 1) "2 * -.5".toList scaledNegation := by
  have two : Numeral.Writes ['2'] ⟨[2], [], 0⟩ :=
    .unsigned (.whole (.cons rfl .nil) (by simp)) .none
  have half : Numeral.Writes ['.', '5'] ⟨[], [5], 0⟩ :=
    .unsigned (.pointed .nil (.cons rfl .nil) (by simp)) .none
  have factor : Derives true .primary (m + 1) ['-', '.', '5']
      (.neg (.const (Numeral.value ⟨[], [5], 0⟩))) := .neg (b := []) blanks_nil (.numeral half)
  have product : Derives true .term (m + 1) (['2'] ++ [' '] ++ '*' :: ([' '] ++ ['-', '.', '5']))
      scaledNegation := .product (.factor (.numeral two)) rfl rfl rfl factor
  exact ⟨[], "2 * -.5".toList, [], by simp, blanks_nil, .summand product, blanks_nil⟩

/-- The tree of `2 * -.5` within a nesting of one is its tree within a nesting of three. -/
theorem parse_strict_scaledNegation :
    parse "2 * -.5" { strict := true, extended := true, maxDepth := (1 : Nat) } =
        .ok scaledNegation ∧
      Sentence true 1 "2 * -.5".toList scaledNegation ∧
      Sentence true 3 "2 * -.5".toList scaledNegation ∧ scaledNegation = scaledNegation :=
  have h := parse_strict_iff_sentence "2 * -.5" true 1 scaledNegation
  ⟨h.1.mpr (sentence_scaledNegation 0), sentence_scaledNegation 0, sentence_scaledNegation 2,
    h.2 3 scaledNegation (sentence_scaledNegation 0) (sentence_scaledNegation 2)⟩

end Abacus.Grammar
