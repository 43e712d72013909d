import Abacus.Calculation
import Abacus.Settings.Basic
import Abacus.Proofs.Expr.RoundTrip
import Abacus.Proofs.Grammar.Extension

/-!
# Calculation — what a record says

The record of a text is that of its refusal, of a division by zero in its tree, or of its value
(`ofText_cases`), and nothing else ever happens to a text.

* `reports_ofText`: the parts of the record fit together and say what was calculated, or what went
  wrong.
* `eval_unsigned`: a tree and the tree without signed constants have one value, and fail alike.
* `ofText_render`: the text of a tree calculates to what the tree calculates to.
-/

namespace Abacus
open Failure Grammar

/-! ### Errors -/

/-- The kinds of failure of parsing. -/
def Grammar.refusals : List Kind :=
  [.expectedNumber, .expectedCloseParen, .nestingTooDeep, .unexpectedTrailingInput]

/-- Parsing fails in one of four ways, the last of them in strict mode only. -/
theorem Grammar.kind_of_parse_error {source : String} {o : Options} {e : ParseError}
    (h : parse source o = .error e) :
    e.kind ∈ refusals ∧ (e.kind = .unexpectedTrailingInput → o.strict = true) := by
  rcases read_of_parse_error h with ⟨f, -, rfl⟩ | ⟨hs, t, k, -, -, rfl⟩
  · cases f.reason with
    | expectedNumber => exact ⟨.head _, nofun⟩
    | expectedCloseParen => exact ⟨.tail _ (.head _), nofun⟩
    | tooDeep => exact ⟨.tail _ (.tail _ (.head _)), nofun⟩
  · exact ⟨.tail _ (.tail _ (.tail _ (.head _))), fun _ => hs⟩

/-- A tree that a text parses as has no quotient in the basic grammar. -/
theorem Grammar.extended_of_quotient {source : String} {o : Options} {t l r : Expr}
    (h : parse source o = .ok t) (hq : .binary .div l r ∈ t.preorder) : o.extended = true := by
  obtain ⟨w, hw⟩ := derives_of_parse h
  cases hx : o.extended with
  | true => rfl
  | false =>
      rw [hx] at hw
      exact absurd hq (Expr.isBasic_iff.mp hw.extend.2 l r).2

namespace Calculation

theorem ofText_of_ok {source : String} {o : Options} {t : Expr} (h : parse source o = .ok t) :
    ofText source o = ofTree t (some source) := by
  rw [ofText, h]

theorem ofText_of_error {source : String} {o : Options} {e : ParseError}
    (h : parse source o = .error e) :
    ofText source o = { source, error := some e.kind, message := some e.message } := by
  rw [ofText, h]

theorem ofTree_of_ok {t : Expr} {label : Option String} {v : Float} (h : t.eval = .ok v) :
    ofTree t label =
      { source := label.getD t.render, expression := some t, value := some v } := by
  rw [ofTree, evaluate_eq_eval, h]

theorem ofTree_of_error {t : Expr} {label : Option String} {f : EvalError}
    (h : t.eval = .error f) :
    ofTree t label =
      { source := label.getD t.render, expression := some t, error := some f.kind
        message := some f.message } := by
  rw [ofTree, evaluate_eq_eval, h]

/-- A text is refused, or its tree divides by zero, or its tree has a value. -/
theorem ofText_cases (source : String) (o : Options) :
    (∃ e, parse source o = .error e ∧
      ofText source o = { source, error := some e.kind, message := some e.message }) ∨
    (∃ t l r, parse source o = .ok t ∧ .binary .div l r ∈ t.preorder ∧
      evaluate t = .error (.divisionByZero (.binary .div l r)) ∧
      ofText source o = { source, expression := some t, error := some .divisionByZero
                          message := some "Division by zero" }) ∨
    ∃ t v, parse source o = .ok t ∧ evaluate t = .ok v ∧
      ofText source o = { source, expression := some t, value := some v } := by
  cases hp : parse source o with
  | error e => exact .inl ⟨e, rfl, ofText_of_error hp⟩
  | ok t =>
      have hv := evaluate_eq_eval t
      rw [ofText_of_ok hp]
      cases he : t.eval with
      | error f =>
          obtain ⟨l, r, -, rfl, hq, -⟩ := Expr.eval_error_quotient he
          exact .inr (.inl ⟨t, l, r, rfl, hq, hv.trans he, ofTree_of_error he⟩)
      | ok v => exact .inr (.inr ⟨t, v, rfl, hv.trans he, ofTree_of_ok he⟩)

/-- What a record says about the calculation of a text. -/
structure Reports (source : String) (s : Settings) (c : Calculation) : Prop where
  source_eq : c.source = source
  /-- There is a value, and no error and no message, exactly when the calculation succeeded. -/
  value_iff : c.ok = true ↔ c.value ≠ none
  error_iff : c.ok = true ↔ c.error = none
  message_iff : c.ok = true ↔ c.message = none
  /-- The tree is what the text parses as, and the value is the tree's. -/
  success : c.ok = true → ∃ t v, parse source s.parsing = .ok t ∧ c.expression = some t ∧
    evaluate t = .ok v ∧ c.value = some v
  /-- There is no tree exactly when the text is refused. -/
  refused : c.ok = false → (c.expression = none ↔ ∃ e, parse source s.parsing = .error e)
  /-- The error is that of the text, or of its tree, which can only divide by zero. -/
  failure : c.ok = false →
    (∃ e, parse source s.parsing = .error e ∧
      c.error = some e.kind ∧ c.message = some e.message) ∨
    ∃ t f, parse source s.parsing = .ok t ∧ c.expression = some t ∧ evaluate t = .error f ∧
      (∃ q, f = .divisionByZero q) ∧ c.error = some f.kind ∧ c.message = some f.message
  kind_ne : ∀ k, c.error = some k → k ∉ [Kind.unknownNode, .config, .parse, .generic]
  strict_of_trailing : c.error = some .unexpectedTrailingInput → s.strict = true
  /-- Only the extended grammar divides, and the tree shows where. -/
  extended_of_division : c.error = some .divisionByZero → s.extended = true ∧
    ∃ t l r, c.expression = some t ∧ .binary .div l r ∈ t.preorder

/-- **The record of a text reports its calculation**, whatever the text and the settings. -/
theorem reports_ofText (source : String) (s : Settings) :
    Reports source s (ofText source s.parsing) := by
  rcases ofText_cases source s.parsing with
    ⟨e, he, hc⟩ | ⟨t, l, r, ht, hq, hv, hc⟩ | ⟨t, v, ht, hv, hc⟩
  · obtain ⟨hkind, hstrict⟩ := kind_of_parse_error he
    have hother : ∀ k ∈ refusals, k ∉ [Kind.unknownNode, .config, .parse, .generic] := by decide
    rw [hc]
    exact {
      source_eq := rfl
      value_iff := by simp [ok]
      error_iff := by simp [ok]
      message_iff := by simp [ok]
      success := nofun
      refused := fun _ => ⟨fun _ => ⟨e, he⟩, fun _ => rfl⟩
      failure := fun _ => .inl ⟨e, he, rfl, rfl⟩
      kind_ne := by rintro k ⟨⟩; exact hother _ hkind
      strict_of_trailing := fun hk => hstrict (Option.some.inj hk)
      extended_of_division := by
        intro hk
        rw [Option.some.inj hk] at hkind
        exact absurd hkind (by decide) }
  · rw [hc]
    exact {
      source_eq := rfl
      value_iff := by simp [ok]
      error_iff := by simp [ok]
      message_iff := by simp [ok]
      success := nofun
      refused := fun _ => ⟨nofun, by rintro ⟨e, he⟩; rw [ht] at he; cases he⟩
      failure := fun _ => .inr ⟨t, _, ht, rfl, hv, ⟨_, rfl⟩, rfl, rfl⟩
      kind_ne := by rintro k ⟨⟩; decide
      strict_of_trailing := nofun
      extended_of_division := fun _ => ⟨extended_of_quotient ht hq, t, l, r, rfl, hq⟩ }
  · rw [hc]
    exact {
      source_eq := rfl
      value_iff := by simp [ok]
      error_iff := by simp [ok]
      message_iff := by simp [ok]
      success := fun _ => ⟨t, v, ht, rfl, hv, rfl⟩
      refused := nofun
      failure := nofun
      kind_ne := nofun
      strict_of_trailing := nofun
      extended_of_division := nofun }

/-- `1/0` is read and divides by zero, and lenient parsing of `1)` has a value. -/
theorem reports_ofText_quotient :
    (ofText "1/0" ({} : Settings).parsing).error = some .divisionByZero ∧
      Reports "1/0" {} (ofText "1/0" ({} : Settings).parsing) ∧
    (ofText "1)" ({} : Settings).parsing).ok = true ∧
      Reports "1)" {} (ofText "1)" ({} : Settings).parsing) := by
  have hzero : Reads true 100 Level.term.operand ['0']
      (.ok (.const (Numeral.value ⟨[0], [], 0⟩), [])) :=
    .numeral (k := []) rfl
  have hquotient : Reads true 100 (.level .expression) "1/0".toList
      (.ok (.binary .div (.const (Numeral.value ⟨[1], [], 0⟩))
        (.const (Numeral.value ⟨[0], [], 0⟩)), [])) :=
    .chain (.chain (.numeral (k := "/0".toList) rfl)
      (.more (r := ['0']) (k := []) rfl rfl hzero (.stop nofun))) (.stop nofun)
  have hone : Reads true 100 (.level .expression) "1)".toList
      (.ok (.const (Numeral.value ⟨[1], [], 0⟩), [')'])) :=
    .chain (.chain (.numeral (k := [')']) rfl) (.stop (by rintro _ ⟨⟩; rfl)))
      (.stop (by rintro _ ⟨⟩; rfl))
  have hlenient : ∀ k : List Char, ¬ (({} : Settings).parsing.strict = true ∧ k ≠ []) := by
    rintro k ⟨⟨⟩, -⟩
  refine ⟨?_, reports_ofText "1/0" {}, ?_, reports_ofText "1)" {}⟩
  · have hparse := parseChars_of_ok (o := ({} : Settings).parsing) hquotient.eq
    rw [if_neg (hlenient _)] at hparse
    rw [ofText_of_ok hparse, ofTree_of_error rfl]
    rfl
  · have hparse := parseChars_of_ok (o := ({} : Settings).parsing) hone.eq
    rw [if_neg (hlenient _)] at hparse
    rw [ofText_of_ok hparse, ofTree_of_ok rfl]
    rfl

end Calculation

/-! ### Trees and their texts -/

/-- The same error about the tree without signed constants. -/
def EvalError.unsigned : EvalError → EvalError
  | .divisionByZero q => .divisionByZero q.unsigned
  | f                 => f

theorem mapError_bind {α β : Type} (x : Except EvalError α) (g : α → Except EvalError β) :
    (x.bind g).mapError EvalError.unsigned =
      (x.mapError EvalError.unsigned).bind fun a => (g a).mapError EvalError.unsigned := by
  cases x <;> rfl

/-- A finite tree has the value of the tree without signed constants, or fails as it does. -/
theorem Expr.eval_unsigned {t : Expr} (hf : t.IsFinite) :
    t.unsigned.eval = t.eval.mapError EvalError.unsigned := by
  induction t with
  | const v =>
      rw [unsigned]
      split
      · show Except.ok (- -v) = _
        rw [Binary64.neg_neg_of_isFinite hf]
        rfl
      · rfl
  | neg e ih =>
      show e.unsigned.eval.bind _ = (e.eval.bind _).mapError _
      rw [ih hf, mapError_bind]
      rfl
  | binary op l r ihl ihr =>
      by_cases hop : op = .div
      · subst hop
        rw [unsigned, eval_div, eval_div, ihl hf.1, ihr hf.2, mapError_bind]
        congr 1
        funext y
        split
        · rfl
        · rw [mapError_bind]
          rfl
      · rw [unsigned, eval_binary hop, eval_binary hop, ihl hf.1, ihr hf.2, mapError_bind]
        congr 1
        funext x
        rw [mapError_bind]
        rfl

namespace Calculation

/-- **The text of a tree calculates to what the tree does.**  Under the default settings the record
of the text is that of the tree, but for signs of constants that the text writes as negations; so
both have the same value, or both divide by zero. -/
theorem ofText_render (t : Expr) (hf : t.IsFinite) (hd : t.unsigned.depth ≤ 101) :
    ofText t.render ({} : Settings).parsing =
        { ofTree t with expression := some t.unsigned } ∧
      ((∃ v, (ofText t.render ({} : Settings).parsing).value = some v ∧
          (ofTree t).value = some v ∧
          (ofText t.render ({} : Settings).parsing).ok = true ∧ (ofTree t).ok = true) ∨
        (ofText t.render ({} : Settings).parsing).error = some .divisionByZero ∧
          (ofTree t).error = some .divisionByZero ∧
          (ofText t.render ({} : Settings).parsing).value = none ∧ (ofTree t).value = none) := by
  have hparse : parse t.render ({} : Settings).parsing = .ok t.unsigned :=
    parse_fits (m := 100) false hf (Expr.depth_eq_height t.unsigned ▸ hd)
  have hvalue := Expr.eval_unsigned hf
  cases he : t.eval with
  | error f =>
      obtain ⟨q, rfl⟩ := Expr.eval_error he
      rw [he] at hvalue
      rw [ofText_of_ok hparse, ofTree_of_error hvalue, ofTree_of_error he]
      exact ⟨rfl, .inr ⟨rfl, rfl, rfl, rfl⟩⟩
  | ok v =>
      rw [he] at hvalue
      rw [ofText_of_ok hparse, ofTree_of_ok hvalue, ofTree_of_ok he]
      exact ⟨rfl, .inl ⟨v, rfl, rfl, rfl, rfl⟩⟩

/-- Minus three by negative zero. -/
def negativeQuotient : Expr := .binary .div (.const (-3)) (.const (-0.0))

/-- One half less negative zero is one half, as a tree and as a text; minus three by negative zero
has no value as either. -/
theorem ofText_render_signed :
    (difference.IsFinite ∧ difference.unsigned.depth ≤ 101 ∧
      (ofTree difference).value = some 0.5 ∧
      (ofText difference.render ({} : Settings).parsing).value = some 0.5) ∧
    negativeQuotient.IsFinite ∧ negativeQuotient.unsigned.depth ≤ 101 ∧
      (ofTree negativeQuotient).error = some .divisionByZero ∧
      (ofText negativeQuotient.render ({} : Settings).parsing).error = some .divisionByZero := by
  have hd : difference.unsigned.depth ≤ 101 := by
    rw [Expr.depth_eq_height]
    decide
  have hq : negativeQuotient.unsigned.depth ≤ 101 := by
    rw [Expr.depth_eq_height]
    decide
  have hfinite : negativeQuotient.IsFinite := ⟨rfl, rfl⟩
  have hvalue : (ofTree difference).value = some 0.5 := by
    rw [ofTree_of_ok rfl]
    rfl
  have herror : (ofTree negativeQuotient).error = some .divisionByZero := by
    rw [ofTree_of_error rfl]
    rfl
  refine ⟨⟨⟨rfl, rfl⟩, hd, hvalue, ?_⟩, hfinite, hq, herror, ?_⟩
  · rw [(ofText_render difference ⟨rfl, rfl⟩ hd).1]
    exact hvalue
  · rw [(ofText_render negativeQuotient hfinite hq).1]
    exact herror

end Calculation

end Abacus
