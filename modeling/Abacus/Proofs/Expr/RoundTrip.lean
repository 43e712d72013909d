import Abacus.Expr.Unsigned
import Abacus.Proofs.Binary64.Equality
import Abacus.Proofs.Decimal.Layout
import Abacus.Proofs.Expr.Loops
import Abacus.Proofs.Grammar.Language

/-!
# Expr — a text and the tree it is read as

The text of a tree is a phrase of the grammar, and its tree is the one without signed constants
(`derives_text`).  Each operator opens a group and each sign a nesting, so the text is read exactly
when the height leaves it room; with less room, and at a constant that is not finite, the reading
stops (`read_text_error`).

* `parse_render`: which tree the text of a tree parses as, and when it is refused.
-/

namespace Abacus
open Grammar Text

/-! ### Trees -/

namespace Expr

/-- Every constant of the tree is finite. -/
def IsFinite : Expr → Prop
  | .const v      => v.isFinite = true
  | .neg e        => e.IsFinite
  | .binary _ l r => l.IsFinite ∧ r.IsFinite

theorem unsigned_of_isUnsigned {t : Expr} (h : t.IsUnsigned) : t.unsigned = t := by
  induction t with
  | const v =>
      have hv : Binary64.isNegative v = false := h
      rw [unsigned, hv]
      rfl
  | neg e ih => rw [unsigned, ih h]
  | binary op l r ihl ihr => rw [unsigned, ihl h.1, ihr h.2]

/-- A finite constant's text is a numeral, with a minus sign where its unsigned tree has one. -/
theorem const_text {v : Float} (h : v.isFinite = true) : ∃ w, ∃ n : Numeral, n.Writes w ∧
    (Binary64.isNegative v = false ∧ (const v).textChars = w ∧
        (const v).unsigned = .const n.value ∨
      Binary64.isNegative v = true ∧ (const v).textChars = '-' :: w ∧
        (const v).unsigned = .neg (.const n.value)) := by
  have hr := Binary64.isFinite_iff.mp h
  have hv := Binary64.ofRank_rank hr.le
  obtain ⟨w, n, htext, hw, hn⟩ := number_of_finite hr
  refine ⟨w, n, hw, ?_⟩
  rw [textChars, unsigned, htext, hn]
  cases hs : Binary64.isNegative v with
  | false =>
      rw [hs] at hv
      rw [hv]
      exact .inl ⟨rfl, rfl, rfl⟩
  | true =>
      rw [Binary64.neg_eq_ofRank hs]
      exact .inr ⟨rfl, rfl, rfl⟩

end Expr

/-! ### Texts that are read -/

namespace Grammar

/-- Two operands with an operator between them are an expression. -/
theorem derives_operation {m : Nat} {v w : List Char} {l r : Expr} (op : Op)
    (hl : Derives true .primary m v l) (hr : Derives true .primary m w r) :
    Derives true .expression m (v ++ [' '] ++ op.symbol :: ([' '] ++ w)) (.binary op l r) := by
  cases op with
  | add => exact .sum (.summand (.factor hl)) rfl rfl rfl (.factor hr)
  | sub => exact .sum (.summand (.factor hl)) rfl rfl rfl (.factor hr)
  | mul => exact .summand (.product (.factor hl) rfl rfl rfl hr)
  | div => exact .summand (.product (.factor hl) rfl rfl rfl hr)

/-- The text of a finite tree derives the tree without signed constants, within a nesting of one
less than its height. -/
theorem derives_text {t : Expr} (hf : t.IsFinite) :
    ∀ {m : Nat}, t.unsigned.height ≤ m + 1 → Derives true .primary m t.textChars t.unsigned := by
  induction t with
  | const v =>
      intro m hm
      obtain ⟨w, n, hw, ⟨-, htext, hu⟩ | ⟨-, htext, hu⟩⟩ := Expr.const_text hf
      · rw [htext, hu]
        exact .numeral hw
      · rw [hu, Expr.height, Expr.height] at hm
        obtain ⟨m, rfl⟩ : ∃ m', m = m' + 1 := ⟨m - 1, by omega⟩
        rw [htext, hu]
        exact .neg (b := []) blanks_nil (.numeral hw)
  | neg e ih =>
      intro m hm
      have he := e.unsigned.height_pos
      rw [Expr.unsigned, Expr.height] at hm
      obtain ⟨m, rfl⟩ : ∃ m', m = m' + 1 := ⟨m - 1, by omega⟩
      exact .neg (b := []) blanks_nil (ih hf (by omega))
  | binary op l r ihl ihr =>
      intro m hm
      have hl := l.unsigned.height_pos
      rw [Expr.unsigned, Expr.height] at hm
      obtain ⟨m, rfl⟩ : ∃ m', m = m' + 1 := ⟨m - 1, by omega⟩
      have h := Derives.group (b := []) blanks_nil
        (derives_operation (m := m) op (ihl hf.1 (by omega)) (ihr hf.2 (by omega))) blanks_nil
      simpa [Expr.textChars, Expr.unsigned] using h

/-- What is read has no signed constant. -/
theorem isUnsigned_of_derives {extended : Bool} {r : Rule} {m : Nat} {w : List Char} {t : Expr}
    (h : Derives extended r m w t) : t.IsUnsigned := by
  induction h with
  | numeral => exact Binary64.isNegative_ofRank false _
  | neg _ _ ih => exact ih
  | group _ _ _ ih => exact ih
  | factor _ ih => exact ih
  | summand _ ih => exact ih
  | product _ _ _ _ _ ihl ihr => exact ⟨ihl, ihr⟩
  | sum _ _ _ _ _ ihl ihr => exact ⟨ihl, ihr⟩

/-! ### Texts that are refused -/

/-- Why the text of a tree may be refused: there is no room for it, or a constant is not finite. -/
def Refuses (t : Expr) (x : Reason) : Prop := x = .tooDeep ∨ ¬ t.IsFinite ∧ x = .expectedNumber

/-- Where a nesting opens, the reading stops for want of room or for what it finds inside. -/
theorem read_opening_error {s r : List Char} {c : Char} {st : Stage} {m : Nat}
    {p : Reason → Prop} (hs : skipBlanks s = c :: r) (hc : inside? c = some st) (hp : p .tooDeep)
    (h : ∀ m', m = m' + 1 → ∃ e, read true m' st r = .error e ∧ p e.reason) :
    ∃ e, read true m .primary s = .error e ∧ p e.reason := by
  cases m with
  | zero => exact ⟨_, read_tooDeep hs hc (by decide), hp⟩
  | succ m =>
      obtain ⟨e, he, hpe⟩ := h m rfl
      have hroom : ((m + 1 : Nat) : Int) - 1 = m := by omega
      refine ⟨e, (Reads.inside hs hc (by omega) ?_).eq, hpe⟩
      rw [hroom]
      exact reads_iff.mpr he

/-- A chain stops where its first operand does. -/
theorem read_level_error {l : Level} {room : Int} {s : List Char} {e : Stop}
    (h : read true room l.operand s = .error e) : read true room (.level l) s = .error e := by
  rw [read_level, h]
  rfl

theorem read_expression_error {room : Int} {s : List Char} {e : Stop}
    (h : read true room .primary s = .error e) :
    read true room (.level .expression) s = .error e :=
  read_level_error (l := .expression) (read_level_error (l := .term) h)

/-- Behind an operand that is read, a chain stops where the next operand does. -/
theorem read_operation_error {room : Int} {m : Nat} {v s : List Char} {l : Expr} {e : Stop}
    (op : Op) (hl : Derives true .primary m v l) (hm : (m : Int) ≤ room)
    (h : read true room .primary (' ' :: s) = .error e) :
    read true room (.level .expression) (v ++ ' ' :: op.symbol :: ' ' :: s) = .error e := by
  have key : ∀ lv : Level, lv.operator true op.symbol = some op →
      read true room (.level .expression) (v ++ ' ' :: op.symbol :: ' ' :: s) = .error e := by
    intro lv hop
    have hclose : Closes true lv.rule ([' '] ++ op.symbol :: ' ' :: s) := closes_operator rfl hop
    cases lv with
    | term =>
        have hl := read_of_derives (b := []) (.factor hl) hm blanks_nil hclose
        have hchain := read_chain (l := .term) hl rfl hop
        rw [List.nil_append, Level.operand, h] at hchain
        exact read_level_error (l := .expression) hchain
    | expression =>
        have hl := read_of_derives (b := []) (.summand (.factor hl)) hm blanks_nil hclose
        have hchain := read_chain (l := .expression) hl rfl hop
        rwa [List.nil_append, Level.operand, read_level_error (l := .term) h] at hchain
  cases op with
  | add => exact key .expression rfl
  | sub => exact key .expression rfl
  | mul => exact key .term rfl
  | div => exact key .term rfl

/-- A letter that begins no numeral stops the reading. -/
theorem read_letter_error {room : Int} {b s : List Char} {c : Char} (hb : Blanks b)
    (hc : c ∈ ['n', 'i']) :
    read true room .primary (b ++ c :: s) = .error ⟨.expectedNumber, c :: s, room⟩ := by
  have key : ∀ d ∈ ['n', 'i'], isBlank d = false ∧ inside? d = none ∧ digitValue? d = none ∧
      d ≠ '.' ∧ d ≠ '+' := by
    simp only [List.forall_mem_cons, List.not_mem_nil, false_implies, implies_true]
    decide
  obtain ⟨hblank, hin, hdigit, hpoint, hplus⟩ := key c hc
  have hs : skipBlanks (b ++ c :: s) = c :: s := by
    rw [skipBlanks_append hb, skipBlanks_cons hblank]
  rw [read_operand, hs, Numeral.scan_eq_none_of_head hdigit hpoint hplus]
  intro d hd
  rw [hs] at hd
  cases hd
  exact hin

theorem skipBlanks_opening {b w k : List Char} {c : Char} (hb : Blanks b)
    (hc : isBlank c = false) : skipBlanks (b ++ c :: w ++ k) = c :: (w ++ k) := by
  rw [List.append_assoc, skipBlanks_append hb, List.cons_append, skipBlanks_cons hc]

/-- The text of a tree that is not finite, or too high for the room there is, is not read. -/
theorem read_text_error (t : Expr) : ∀ {m : Nat} {b : List Char} (k : List Char), Blanks b →
    ¬ (t.IsFinite ∧ t.unsigned.height ≤ m + 1) →
      ∃ e, read true m .primary (b ++ t.textChars ++ k) = .error e ∧ Refuses t e.reason := by
  induction t with
  | const v =>
      intro m b k hb hno
      by_cases hf : v.isFinite = true
      · obtain ⟨w, n, -, ⟨-, -, hu⟩ | ⟨-, htext, hu⟩⟩ := Expr.const_text hf
        · rw [hu, Expr.height] at hno
          exact (hno ⟨hf, Nat.le_add_left 1 m⟩).elim
        · rw [hu, Expr.height, Expr.height] at hno
          rw [htext]
          refine read_opening_error (skipBlanks_opening hb rfl) rfl (.inl rfl) fun m' hm => ?_
          exact (hno ⟨hf, by omega⟩).elim
      · -- a letter stands where a numeral should, perhaps behind a sign there is no room for
        have hr := mt Binary64.isFinite_iff.mpr hf
        obtain ⟨c, w, hc, htext | htext⟩ := number_of_infinite (Nat.le_of_not_lt hr)
        · rw [Expr.textChars, htext, List.append_assoc, List.cons_append]
          exact ⟨_, read_letter_error hb hc, .inr ⟨hf, rfl⟩⟩
        · rw [Expr.textChars, htext]
          refine read_opening_error (skipBlanks_opening hb rfl) rfl (.inl rfl) fun m' hm => ?_
          exact ⟨_, read_letter_error blanks_nil hc, .inr ⟨hf, rfl⟩⟩
  | neg e ih =>
      intro m b k hb hno
      rw [Expr.unsigned, Expr.height] at hno
      refine read_opening_error (skipBlanks_opening hb rfl) rfl (.inl rfl) fun m' hm => ?_
      have he : ¬ (e.IsFinite ∧ e.unsigned.height ≤ m' + 1) := by
        rintro ⟨hf, hle⟩
        exact hno ⟨hf, by omega⟩
      exact ih k blanks_nil he
  | binary op l r ihl ihr =>
      intro m b k hb hno
      rw [Expr.unsigned, Expr.height] at hno
      refine read_opening_error (skipBlanks_opening hb rfl) rfl (.inl rfl) fun m' hm => ?_
      rw [List.append_assoc, List.cons_append]
      by_cases hl : l.IsFinite ∧ l.unsigned.height ≤ m' + 1
      · -- the left operand is read, so the right one is to blame
        have hr : ¬ (r.IsFinite ∧ r.unsigned.height ≤ m' + 1) := by
          rintro ⟨hf, hle⟩
          exact hno ⟨⟨hl.1, hf⟩, by omega⟩
        obtain ⟨e, he, hp⟩ := ihr (b := [' ']) (')' :: k) rfl hr
        refine ⟨e, ?_, hp.imp_right fun h => ⟨fun hf => h.1 hf.2, h.2⟩⟩
        have h := read_operation_error op (derives_text hl.1 hl.2) le_rfl he
        simpa using h
      · obtain ⟨e, he, hp⟩ := ihl (' ' :: op.symbol :: ' ' :: (r.textChars ++ [')'] ++ k))
          blanks_nil hl
        refine ⟨e, read_expression_error he, hp.imp_right fun h => ⟨fun hf => h.1 hf.1, h.2⟩⟩

/-! ### Rendering and parsing -/

theorem parse_fits {t : Expr} {m : Nat} (strict : Bool) (hf : t.IsFinite)
    (hm : t.unsigned.height ≤ m + 1) :
    parse t.render { strict, extended := true, maxDepth := m } = .ok t.unsigned := by
  have hs : Sentence true m t.render.toList t.unsigned := by
    rw [Expr.toList_render]
    exact ⟨[], t.textChars, [], by simp, blanks_nil, .summand (.factor (derives_text hf hm)),
      blanks_nil⟩
  rw [parse, parseChars_of_ok (o := { strict, extended := true, maxDepth := m })
    (read_of_sentence hs le_rfl), if_neg (by simp)]

theorem parse_refuses {t : Expr} {m : Nat} (strict : Bool)
    (h : ¬ (t.IsFinite ∧ t.unsigned.height ≤ m + 1)) :
    ∃ x pos, parse t.render { strict, extended := true, maxDepth := m } =
      .error ⟨.ofReason m x, pos⟩ ∧ Refuses t x := by
  obtain ⟨e, he, hp⟩ := read_text_error t (b := []) [] blanks_nil h
  rw [List.nil_append, List.append_nil, ← Expr.toList_render] at he
  exact ⟨e.reason, _, parseChars_of_error (o := { strict, extended := true, maxDepth := m })
    (read_expression_error he), hp⟩

/-- A tree that a text parses as has no signed constant. -/
theorem isUnsigned_of_parse {source : String} {o : Options} {t : Expr}
    (h : parse source o = .ok t) : t.IsUnsigned := by
  obtain ⟨w, hw⟩ := derives_of_parse h
  exact isUnsigned_of_derives hw

/-- **The text of a tree parses as the tree without signed constants**, when all its constants are
finite and the nesting allowed is at least one less than that tree's depth.  With less it is too
deep; and a text with a constant that is not finite is never a tree's. -/
theorem parse_render (t : Expr) (m : Nat) (strict : Bool) :
    (t.IsFinite → t.unsigned.depth ≤ m + 1 →
      parse t.render { strict, extended := true, maxDepth := m } = .ok t.unsigned) ∧
    (t.IsFinite → m + 1 < t.unsigned.depth → ∃ pos,
      parse t.render { strict, extended := true, maxDepth := m } = .error ⟨.tooDeep m, pos⟩) ∧
    (¬ t.IsFinite → ∃ pos,
      parse t.render { strict, extended := true, maxDepth := m } = .error ⟨.expectedNumber, pos⟩ ∨
      parse t.render { strict, extended := true, maxDepth := m } = .error ⟨.tooDeep m, pos⟩) ∧
    (t.IsFinite → t.IsUnsigned → t.depth ≤ 101 → parse t.render = .ok t) ∧
    ∀ source o, parse source o = .ok t → t.IsFinite → t.depth ≤ 101 → parse t.render = .ok t := by
  have hdefault : t.IsFinite → t.IsUnsigned → t.depth ≤ 101 → parse t.render = .ok t := by
    intro hf hu hd
    have h := parse_fits (t := t) (m := 100) false hf
    rw [Expr.unsigned_of_isUnsigned hu, ← Expr.depth_eq_height] at h
    exact h hd
  rw [Expr.depth_eq_height]
  refine ⟨parse_fits strict, fun hf hm => ?_, fun hf => ?_, hdefault, fun source o h hf => ?_⟩
  · obtain ⟨x, pos, h, rfl | ⟨hno, -⟩⟩ := parse_refuses strict fun hfit => hm.not_ge hfit.2
    · exact ⟨pos, h⟩
    · exact (hno hf).elim
  · obtain ⟨x, pos, h, rfl | ⟨-, rfl⟩⟩ := parse_refuses (m := m) strict fun hfit => hf hfit.1
    · exact ⟨pos, .inr h⟩
    · exact ⟨pos, .inl h⟩
  · exact hdefault hf (isUnsigned_of_parse h)

/-- One half less the zero that has a sign. -/
def difference : Expr := .binary .sub (.const 0.5) (.const (-0.0))

/-- The difference parses within a nesting of two, and not within one of one; the text of infinity
is refused; one half parses as itself, and so does the tree the difference parses as. -/
theorem parse_render_difference :
    difference.unsigned = .binary .sub (.const 0.5) (.neg (.const 0.0)) ∧
    parse difference.render { strict := true, extended := true, maxDepth := (2 : Nat) } =
      .ok difference.unsigned ∧
    (∃ pos, parse difference.render { strict := true, extended := true, maxDepth := (1 : Nat) } =
      .error ⟨.tooDeep (1 : Nat), pos⟩) ∧
    (∃ pos, parse (Expr.const (Binary64.infinity true)).render
        { strict := false, extended := true, maxDepth := (0 : Nat) } =
          .error ⟨.expectedNumber, pos⟩ ∨
      parse (Expr.const (Binary64.infinity true)).render
        { strict := false, extended := true, maxDepth := (0 : Nat) } =
          .error ⟨.tooDeep (0 : Nat), pos⟩) ∧
    parse (Expr.const 0.5).render = .ok (.const 0.5) ∧
    parse difference.unsigned.render = .ok difference.unsigned := by
  have hu : difference.unsigned = .binary .sub (.const 0.5) (.neg (.const 0.0)) := by decide
  have hf : difference.IsFinite := ⟨rfl, rfl⟩
  have hf' : difference.unsigned.IsFinite := by
    rw [hu]
    exact ⟨rfl, rfl⟩
  have hdepth : difference.unsigned.depth = 3 := by
    rw [Expr.depth_eq_height, hu]
    rfl
  have hinf : ¬ (Expr.const (Binary64.infinity true)).IsFinite := by
    show ¬ (Binary64.infinity true).isFinite = true
    decide
  have hread : parse difference.render { strict := true, extended := true, maxDepth := (2 : Nat) } =
      .ok difference.unsigned :=
    (parse_render difference 2 true).1 hf hdepth.le
  refine ⟨hu, hread, ?_, ?_, ?_, ?_⟩
  · exact (parse_render difference 1 true).2.1 hf (hdepth ▸ Nat.lt_succ_self 2)
  · exact (parse_render (.const (Binary64.infinity true)) 0 false).2.2.1 hinf
  · exact (parse_render (.const 0.5) 0 false).2.2.2.1 rfl rfl
      (by rw [Expr.depth_eq_height, Expr.height]; decide)
  · exact (parse_render difference.unsigned 0 false).2.2.2.2 difference.render _ hread hf'
      (by rw [hdepth]; decide)

end Grammar

end Abacus
