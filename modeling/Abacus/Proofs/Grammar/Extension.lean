import Abacus.Proofs.Expr.Loops
import Abacus.Proofs.Grammar.Limit
import Abacus.Proofs.Value.Simulation

/-!
# Grammar — the extended grammar is conservative

The extended grammar adds differences and quotients, and says nothing new about texts without
them.

* `derives_basic_iff`: the basic derivations are the extended ones of basic trees.  A minus sign in
  front of an operand is in both grammars, so it is the tree that tells them apart and not the
  characters of the text.
* `parse_strict_iff`: strict parsing within any limit accepts the language, a limit below zero
  being no different from zero.
* `parse_basic`: hence a strict parse in the basic grammar is one in the extended grammar whose
  tree has no difference and no quotient.  What the basic grammar reads, in either mode, always has
  a value.
-/

namespace Abacus

namespace Expr

/-- Every operator of the tree is one of the basic grammar. -/
def IsBasic : Expr → Prop
  | .const _       => True
  | .neg e         => e.IsBasic
  | .binary op l r => (op = .add ∨ op = .mul) ∧ l.IsBasic ∧ r.IsBasic

/-- A basic tree is one without differences and quotients. -/
theorem isBasic_iff {e : Expr} :
    e.IsBasic ↔ ∀ l r, binary .sub l r ∉ e.preorder ∧ binary .div l r ∉ e.preorder := by
  induction e with
  | const v => simp [IsBasic, preorder]
  | neg e ih => simp [IsBasic, preorder, ih]
  | binary op l r ihl ihr =>
      rw [IsBasic, ihl, ihr, preorder]
      cases op with
      | add | mul => simpa [forall_and] using and_and_and_comm
      | sub | div => simp [forall_and]

/-- The nodes of a basic tree. -/
theorem IsBasic.cases_mem {e n : Expr} (h : e.IsBasic) (hn : n ∈ e.preorder) :
    (∃ v, n = const v) ∨ (∃ a, n = neg a) ∨ (∃ l r, n = binary .add l r) ∨
      ∃ l r, n = binary .mul l r := by
  cases n with
  | const v => exact .inl ⟨v, rfl⟩
  | neg a => exact .inr (.inl ⟨a, rfl⟩)
  | binary op l r =>
      cases op with
      | add => exact .inr (.inr (.inl ⟨l, r, rfl⟩))
      | mul => exact .inr (.inr (.inr ⟨l, r, rfl⟩))
      | sub => exact absurd hn (isBasic_iff.mp h l r).1
      | div => exact absurd hn (isBasic_iff.mp h l r).2

/-- A tree without quotients has a value. -/
theorem IsBasic.exists_eval {e : Expr} (h : e.IsBasic) : ∃ v, e.eval = .ok v := by
  cases he : e.eval with
  | ok v => exact ⟨v, rfl⟩
  | error f =>
      obtain ⟨l, r, -, -, hmem, -⟩ := eval_error_quotient he
      exact absurd hmem (isBasic_iff.mp h l r).2

end Expr

namespace Grammar
open Text

/-! ### Derivations in the two grammars -/

theorem operator_false_iff {l : Level} {c : Char} {op : Op} :
    l.operator false c = some op ↔ l.operator true c = some op ∧ (op = .add ∨ op = .mul) := by
  cases l with
  | term =>
      change multiplicative false c = some op ↔ multiplicative true c = some op ∧ _
      unfold multiplicative
      split <;> cases op <;> simp
  | expression =>
      change additive false c = some op ↔ additive true c = some op ∧ _
      unfold additive
      split <;> cases op <;> simp

theorem Derives.extend {r : Rule} {m : Nat} {w : List Char} {t : Expr}
    (h : Derives false r m w t) : Derives true r m w t ∧ t.IsBasic := by
  induction h with
  | numeral hw => exact ⟨.numeral hw, trivial⟩
  | neg hb _ ih => exact ⟨.neg hb ih.1, ih.2⟩
  | group hb _ hb' ih => exact ⟨.group hb ih.1 hb', ih.2⟩
  | factor _ ih => exact ⟨.factor ih.1, ih.2⟩
  | product _ hb hop hb' _ ihl ihr =>
      obtain ⟨hop, hbasic⟩ := operator_false_iff (l := .term).mp hop
      exact ⟨.product ihl.1 hb hop hb' ihr.1, hbasic, ihl.2, ihr.2⟩
  | summand _ ih => exact ⟨.summand ih.1, ih.2⟩
  | sum _ hb hop hb' _ ihl ihr =>
      obtain ⟨hop, hbasic⟩ := operator_false_iff (l := .expression).mp hop
      exact ⟨.sum ihl.1 hb hop hb' ihr.1, hbasic, ihl.2, ihr.2⟩

theorem Derives.restrict {r : Rule} {m : Nat} {w : List Char} {t : Expr}
    (h : Derives true r m w t) (ht : t.IsBasic) : Derives false r m w t := by
  induction h with
  | numeral hw => exact .numeral hw
  | neg hb _ ih => exact .neg hb (ih ht)
  | group hb _ hb' ih => exact .group hb (ih ht) hb'
  | factor _ ih => exact .factor (ih ht)
  | product _ hb hop hb' _ ihl ihr =>
      exact .product (ihl ht.2.1) hb (operator_false_iff (l := .term).mpr ⟨hop, ht.1⟩) hb'
        (ihr ht.2.2)
  | summand _ ih => exact .summand (ih ht)
  | sum _ hb hop hb' _ ihl ihr =>
      exact .sum (ihl ht.2.1) hb (operator_false_iff (l := .expression).mpr ⟨hop, ht.1⟩) hb'
        (ihr ht.2.2)

/-- The basic derivations are the extended ones of basic trees. -/
theorem derives_basic_iff {r : Rule} {m : Nat} {w : List Char} {t : Expr} :
    Derives false r m w t ↔ Derives true r m w t ∧ t.IsBasic :=
  ⟨Derives.extend, fun h => h.1.restrict h.2⟩

theorem sentence_basic_iff {m : Nat} {s : List Char} {t : Expr} :
    Sentence false m s t ↔ Sentence true m s t ∧ t.IsBasic := by
  simp only [Sentence, derives_basic_iff]
  constructor
  · rintro ⟨b, w, b', hs, hb, ⟨hw, ht⟩, hb'⟩
    exact ⟨⟨b, w, b', hs, hb, hw, hb'⟩, ht⟩
  · rintro ⟨⟨b, w, b', hs, hb, hw, hb'⟩, ht⟩
    exact ⟨b, w, b', hs, hb, ⟨hw, ht⟩, hb'⟩

/-! ### Strict parsing within any limit -/

variable {extended : Bool}

/-- A limit below zero gives the same trees as zero. -/
theorem read_toNat {m : Int} {st : Stage} {s : List Char} :
    read extended m.toNat st s = widen (m.toNat - m) (read extended m st s) := by
  by_cases hm : 0 ≤ m
  · rw [Int.toNat_of_nonneg hm, Int.sub_self]
    cases read extended m st s with
    | ok p => rfl
    | error e => simp [widen]
  · have h0 : m.toNat = 0 := by omega
    exact read_widen (by omega) fun _ => by omega

theorem read_toNat_ok_iff {m : Int} {st : Stage} {s : List Char} {p : Expr × List Char} :
    read extended m.toNat st s = .ok p ↔ read extended m st s = .ok p := by
  rw [read_toNat]
  cases read extended m st s with
  | ok q => exact Iff.rfl
  | error e => exact ⟨nofun, nofun⟩

/-- Strict parsing within any limit accepts the language of the grammar. -/
theorem parse_strict_iff {source : String} {m : Int} {t : Expr} :
    parse source { strict := true, extended, maxDepth := m } = .ok t ↔
      Sentence extended m.toNat source.toList t := by
  constructor
  · intro h
    obtain ⟨k, hr, hk⟩ := read_of_parse_ok h
    exact sentence_of_read (read_toNat_ok_iff.mpr hr) (by rw [hk rfl]; rfl)
  · intro h
    have hr := read_toNat_ok_iff.mp (read_of_sentence h (Int.le_refl _))
    rw [parse, parseChars_of_ok (o := { strict := true, extended, maxDepth := m }) hr]
    simp

/-- What the basic grammar reads is a basic tree. -/
theorem isBasic_of_parse {source : String} {strict : Bool} {m : Int} {t : Expr}
    (h : parse source { strict, extended := false, maxDepth := m } = .ok t) : t.IsBasic := by
  obtain ⟨w, hw⟩ := derives_of_parse h
  exact hw.extend.2

/-- **The extended grammar is a conservative extension of the basic one.**  Within any limit on
nesting, a strict parse in the basic grammar is a strict parse in the extended one whose tree has
no difference and no quotient.  What is read in the basic grammar, in either mode, has constants,
sums, products and negations for nodes, and evaluates. -/
theorem parse_basic (source : String) (m : Int) :
    (∀ t, parse source { strict := true, extended := false, maxDepth := m } = .ok t ↔
      parse source { strict := true, extended := true, maxDepth := m } = .ok t ∧
        ∀ l r, .binary .sub l r ∉ t.walk ∧ .binary .div l r ∉ t.walk) ∧
    ∀ strict t, parse source { strict, extended := false, maxDepth := m } = .ok t →
      (∀ n ∈ t.walk, (∃ v, n = .const v) ∨ (∃ e, n = .neg e) ∨ (∃ l r, n = .binary .add l r) ∨
        ∃ l r, n = .binary .mul l r) ∧
      ∃ v, evaluate t = .ok v := by
  refine ⟨fun t => ?_, fun strict t h => ?_⟩
  · rw [parse_strict_iff, parse_strict_iff, sentence_basic_iff, Expr.walk_eq_preorder,
      Expr.isBasic_iff]
  · have ht := isBasic_of_parse h
    rw [Expr.walk_eq_preorder, evaluate_eq_eval]
    exact ⟨fun n hn => ht.cases_mem hn, ht.exists_eval⟩

/-- The tree of `-2`. -/
def negatedTwo : Expr := .neg two

/-- The basic grammar reads no further than `-2` in `-2 / 3`, and that only in lenient mode; the
minus sign of `-2` is no difference, so both grammars accept it. -/
theorem parse_basic_negatedTwo :
    (parse "-2 / 3" { strict := false, extended := false, maxDepth := 100 } = .ok negatedTwo ∧
      (∀ n ∈ negatedTwo.walk, (∃ v, n = .const v) ∨ (∃ e, n = .neg e) ∨
        (∃ l r, n = .binary .add l r) ∨ ∃ l r, n = .binary .mul l r) ∧
      ∃ v, evaluate negatedTwo = .ok v) ∧
    (parse "-2" { strict := true, extended := true, maxDepth := 100 } = .ok negatedTwo ∧
      (∀ l r, .binary .sub l r ∉ negatedTwo.walk ∧ .binary .div l r ∉ negatedTwo.walk) ∧
      parse "-2" { strict := true, extended := false, maxDepth := 100 } = .ok negatedTwo) := by
  have hneg : Reads false 100 .primary "-2 / 3".toList (.ok (negatedTwo, " / 3".toList)) :=
    .neg rfl (by decide) (.numeral rfl)
  have hprefix : Reads false 100 (.level .expression) "-2 / 3".toList
      (.ok (negatedTwo, "/ 3".toList)) := hneg.lone (by rintro (_ | _) _ ⟨⟩ <;> rfl)
  have hlenient : parse "-2 / 3" { strict := false, extended := false, maxDepth := 100 } =
      .ok negatedTwo := by
    rw [parse, parseChars_of_ok (o := { strict := false, extended := false }) hprefix.eq]
    rfl
  have hwhole : Reads true 100 (.level .expression) "-2".toList (.ok (negatedTwo, [])) :=
    Reads.lone (k := []) (.neg rfl (by decide) (.numeral rfl)) (by simp [skipBlanks])
  have hstrict : parse "-2" { strict := true, extended := true, maxDepth := 100 } =
      .ok negatedTwo := by
    rw [parse, parseChars_of_ok (o := { strict := true }) hwhole.eq]
    rfl
  have hnodes : ∀ l r, .binary .sub l r ∉ negatedTwo.walk ∧ .binary .div l r ∉ negatedTwo.walk := by
    simp [Expr.walk_eq_preorder, negatedTwo, two, Expr.preorder]
  exact ⟨⟨hlenient, (parse_basic "-2 / 3" 100).2 false negatedTwo hlenient⟩,
    hstrict, hnodes, ((parse_basic "-2" 100).1 negatedTwo).mpr ⟨hstrict, hnodes⟩⟩

end Grammar

end Abacus
