import Abacus.Proofs.Grammar.Prefix

/-!
# Grammar — an error stands at the obstacle

The descent stops at the first character that no sentence has at its place: the text before it can
still be completed, and an operand and closing parentheses are enough for that.

* `Awaits`: a text that breaks off where an operand is due, inside so many openings.
  `derives_of_awaits` completes it, and `opened_of_awaits` counts the parentheses that takes.
* `Obstacle`: what stands where an operand is due when the descent stops there.
* `breaks_of_reads`: every run that stops has come to such a place, with such an obstacle.  Like
  soundness it goes by induction on the run, a chain lengthening the phrase before it.
* `parse_error_place`: what an error of each cause says about the text before and behind it.
-/

namespace Abacus.Grammar
open Text

variable {extended : Bool} {room : Int}

/-! ### More room -/

/-- A derivation within a nesting is one within any wider nesting. -/
theorem Derives.mono {r : Rule} {m : Nat} {w : List Char} {t : Expr}
    (h : Derives extended r m w t) : ∀ {m' : Nat}, m ≤ m' → Derives extended r m' w t := by
  induction h with
  | numeral hw => exact fun _ => .numeral hw
  | neg hb _ ih =>
      intro m' hm
      obtain ⟨m', rfl⟩ := Nat.exists_eq_add_of_le' hm
      exact .neg hb (ih (Nat.le_add_left _ m'))
  | group hb _ hb' ih =>
      intro m' hm
      obtain ⟨m', rfl⟩ := Nat.exists_eq_add_of_le' hm
      exact .group hb (ih (Nat.le_add_left _ m')) hb'
  | factor _ ih => exact fun hm => .factor (ih hm)
  | product _ hb hop hb' _ ihl ihr => exact fun hm => .product (ihl hm) hb hop hb' (ihr hm)
  | summand _ ih => exact fun hm => .summand (ih hm)
  | sum _ hb hop hb' _ ihl ihr => exact fun hm => .sum (ihl hm) hb hop hb' (ihr hm)

/-! ### Open groups -/

/-- The parentheses that a text opens, less those that it closes. -/
def opened (w : List Char) : Int := w.count '(' - w.count ')'

theorem opened_append (v w : List Char) : opened (v ++ w) = opened v + opened w := by
  simp only [opened, List.count_append]
  omega

theorem opened_cons (c : Char) (w : List Char) : opened (c :: w) = opened [c] + opened w :=
  opened_append [c] w

theorem opened_of_notMem {w : List Char} (h : '(' ∉ w) (h' : ')' ∉ w) : opened w = 0 := by
  rw [opened, List.count_eq_zero.mpr h, List.count_eq_zero.mpr h']
  rfl

theorem opened_blanks {b : List Char} (h : Blanks b) : opened b = 0 := by
  have hb := List.all_eq_true.mp h
  exact opened_of_notMem (fun hc => by cases hb _ hc) (fun hc => by cases hb _ hc)

theorem opened_numeral {w : List Char} {n : Numeral} (h : n.Writes w) : opened w = 0 :=
  opened_of_notMem (h.notMem (Numeral.foreign_delimiter _ (by simp)))
    (h.notMem (Numeral.foreign_delimiter _ (by simp)))

/-- An operator and the blanks around it open and close nothing. -/
theorem opened_binary {l : Level} {v b b' w : List Char} {c : Char} {op : Op} (hb : Blanks b)
    (hop : l.operator extended c = some op) (hb' : Blanks b') :
    opened (v ++ b ++ c :: (b' ++ w)) = opened v + opened w := by
  have hnot : ∀ p, p ∉ ['+', '-', '*', '/'] → p ∉ [c] := fun p hp hin =>
    hp (List.mem_singleton.1 hin ▸ mem_of_operator hop)
  have hc : opened [c] = 0 :=
    opened_of_notMem (hnot '(' (by decide)) (hnot ')' (by decide))
  rw [opened_append, opened_append, opened_cons, opened_append, opened_blanks hb, hc,
    opened_blanks hb']
  omega

/-- A phrase closes what it opens. -/
theorem opened_of_derives {r : Rule} {m : Nat} {w : List Char} {t : Expr}
    (h : Derives extended r m w t) : opened w = 0 := by
  induction h with
  | numeral hw => exact opened_numeral hw
  | neg hb _ ih =>
      rw [opened_cons, opened_append, opened_blanks hb, ih]
      rfl
  | group hb _ hb' ih =>
      rw [opened_cons, opened_append, opened_append, opened_append, opened_blanks hb, ih,
        opened_blanks hb']
      rfl
  | factor _ ih | summand _ ih => exact ih
  | product _ hb hop hb' _ ihl ihr => rw [opened_binary (l := .term) hb hop hb', ihl, ihr]; rfl
  | sum _ hb hop hb' _ ihl ihr => rw [opened_binary (l := .expression) hb hop hb', ihl, ihr]; rfl

/-! ### Texts that break off -/

/-- `u` begins a phrase of a rule and breaks off where an operand is due, inside `n` minus signs
and groups, `k` of which are groups; no part of it nests deeper than `n + j`. -/
inductive Awaits (extended : Bool) (j : Nat) : Rule → Nat → Nat → List Char → Prop where
  | here : Awaits extended j .primary 0 0 []
  | neg {n k : Nat} {b u : List Char} :
      Blanks b → Awaits extended j .primary n k u →
        Awaits extended j .primary (n + 1) k ('-' :: (b ++ u))
  | group {n k : Nat} {b u : List Char} :
      Blanks b → Awaits extended j .expression n k u →
        Awaits extended j .primary (n + 1) (k + 1) ('(' :: (b ++ u))
  | first {l : Level} {n k : Nat} {u : List Char} :
      Awaits extended j l.inner n k u → Awaits extended j l.rule n k u
  | operand {l : Level} {n k : Nat} {v b b' u : List Char} {c : Char} {op : Op} {left : Expr} :
      Derives extended l.rule (n + j) v left → Blanks b → l.operator extended c = some op →
        Blanks b' → Awaits extended j l.inner n k u →
        Awaits extended j l.rule n k (v ++ b ++ c :: (b' ++ u))

theorem Awaits.mono {j j' : Nat} {r : Rule} {n k : Nat} {u : List Char}
    (h : Awaits extended j r n k u) (hj : j ≤ j') : Awaits extended j' r n k u := by
  induction h with
  | here => exact .here
  | neg hb _ ih => exact .neg hb ih
  | group hb _ ih => exact .group hb ih
  | first _ ih => exact .first ih
  | operand hv hb hop hb' _ ih =>
      exact .operand (hv.mono (Nat.add_le_add_left hj _)) hb hop hb' ih

/-- The groups around the place are those that the text opens and does not close. -/
theorem opened_of_awaits {j : Nat} {r : Rule} {n k : Nat} {u : List Char}
    (h : Awaits extended j r n k u) : opened u = k := by
  induction h with
  | here => rfl
  | neg hb _ ih =>
      rw [opened_cons, opened_append, opened_blanks hb, ih, show opened ['-'] = 0 from rfl]
      omega
  | group hb _ ih =>
      rw [opened_cons, opened_append, opened_blanks hb, ih, show opened ['('] = 1 from rfl]
      omega
  | first _ ih => exact ih
  | operand hv hb hop hb' _ ih =>
      rw [opened_binary hb hop hb', opened_of_derives hv, ih]
      omega

/-- An operand and the parentheses that close the groups around it complete the phrase. -/
theorem derives_of_awaits {j : Nat} {r : Rule} {n k : Nat} {u : List Char}
    (h : Awaits extended j r n k u) {w : List Char} {t : Expr}
    (hw : Derives extended .primary j w t) :
    ∃ t', Derives extended r (n + j) (u ++ w ++ List.replicate k ')') t' := by
  induction h with
  | here => exact ⟨t, by simpa using hw⟩
  | @neg n k b u hb _ ih =>
      obtain ⟨t', ht⟩ := ih
      rw [Nat.add_right_comm]
      exact ⟨.neg t', by simpa using Derives.neg hb ht⟩
  | @group n k b u hb _ ih =>
      obtain ⟨t', ht⟩ := ih
      rw [Nat.add_right_comm, List.replicate_succ']
      exact ⟨t', by simpa using Derives.group hb ht blanks_nil⟩
  | first _ ih =>
      obtain ⟨t', ht⟩ := ih
      exact ⟨t', ht.single⟩
  | operand hv hb hop hb' _ ih =>
      obtain ⟨t', ht⟩ := ih
      exact ⟨_, by simpa using hv.binary hb hop hb' ht⟩

/-! ### What stops a chain -/

/-- The binary operators of the grammar. -/
def isOperator (extended : Bool) (c : Char) : Bool :=
  (additive extended c).isSome || (multiplicative extended c).isSome

/-- The level of a chain. -/
def Stage.level? : Stage → Option Level
  | .primary     => none
  | .level l     => some l
  | .further l _ => some l

/-- A chain ends where no operator of its level follows. -/
theorem operator_of_reads {st : Stage} {s : List Char} {o : Outcome}
    (h : Reads extended room st s o) :
    ∀ {t k l}, o = .ok (t, k) → st.level? = some l →
      ∀ c ∈ (skipBlanks k).head?, l.operator extended c = none := by
  induction h with
  | numeral | noNumeral | tooDeep | inside | neg | group | unclosed => rintro _ _ _ _ ⟨⟩
  | first | operand => rintro _ _ _ ⟨⟩
  | chain _ _ _ ih => exact fun ho hl => ih ho hl
  | stop h =>
      rintro _ _ _ ⟨⟩ ⟨⟩
      rwa [skipBlanks_skipBlanks]
  | more _ _ _ _ _ ih => exact fun ho hl => ih ho hl

/-- Where a sum goes on no factor follows, and none does where it ends. -/
theorem no_factor_of_reads {st : Stage} {s : List Char} {o : Outcome}
    (h : Reads extended room st s o) :
    ∀ {t k left}, o = .ok (t, k) → st = .further .expression left →
      (∀ c ∈ (skipBlanks s).head?, multiplicative extended c = none) →
      ∀ c ∈ (skipBlanks k).head?, multiplicative extended c = none := by
  induction h with
  | numeral | noNumeral | tooDeep | inside | neg | group | unclosed | first | chain =>
      rintro _ _ _ _ ⟨⟩
  | operand => rintro _ _ _ ⟨⟩
  | stop =>
      rintro _ _ _ ⟨⟩ ⟨⟩ hs
      rwa [skipBlanks_skipBlanks]
  | more _ _ hi _ _ ih =>
      rintro _ _ _ ho ⟨⟩ -
      exact ih ho rfl (operator_of_reads hi rfl rfl)

/-- Behind an expression stands neither a blank nor an operator. -/
theorem behind_expression {s k : List Char} {t : Expr}
    (h : Reads extended room (.level .expression) s (.ok (t, k))) :
    ∀ c ∈ k.head?, isBlank c = false ∧ isOperator extended c = false := by
  have hk := skipBlanks_of_reads h rfl (by simp)
  have hsum := operator_of_reads h rfl rfl
  have hfactor : ∀ c ∈ (skipBlanks k).head?, multiplicative extended c = none := by
    cases h with
    | chain hi hf => exact no_factor_of_reads hf rfl rfl (operator_of_reads hi rfl rfl)
  intro c hc
  rw [hk] at hsum hfactor
  have hadd : additive extended c = none := hsum c hc
  refine ⟨?_, by rw [isOperator, hadd, hfactor c hc]; rfl⟩
  obtain ⟨r, rfl⟩ := List.head?_eq_some_iff.mp hc
  exact isBlank_head_skipBlanks hk

/-! ### Obstacles -/

/-- What stands where an operand is due and can be inside `j` further openings at most, and how
the descent stops there. -/
inductive Obstacle (extended : Bool) : Nat → List Char → Stop → Prop where
  | noNumeral {j : Nat} {x : List Char} {room : Int} :
      (∀ c ∈ x.head?, isBlank c = false ∧ inside? c = none) → Numeral.scan x = none →
        Obstacle extended j x ⟨.expectedNumber, x, room⟩
  | tooDeep {r : List Char} {c : Char} {st : Stage} {room : Int} :
      inside? c = some st → Obstacle extended 0 (c :: r) ⟨.tooDeep, r, room⟩
  | unclosed {j : Nat} {w k : List Char} {t : Expr} {room : Int} :
      Sentence extended j w t →
        (∀ c ∈ k.head?, isBlank c = false ∧ c ≠ ')' ∧ isOperator extended c = false) →
        Obstacle extended (j + 1) ('(' :: (w ++ k)) ⟨.expectedCloseParen, k, room⟩

/-- `s` begins a phrase of a rule, which breaks off before an obstacle. -/
def Stuck (extended : Bool) (room : Int) (r : Rule) (s : List Char) (e : Stop) : Prop :=
  ∃ b u x n j k, s = b ++ u ++ x ∧ Blanks b ∧ Awaits extended j r n k u ∧ room = (n + j : Nat) ∧
    Obstacle extended j x e

/-- What the stop of a stage says about the text given to it. -/
def Breaks (extended : Bool) (room : Int) : Stage → List Char → Stop → Prop
  | .primary, s, e        => Stuck extended room .primary s e
  | .level l, s, e        => Stuck extended room l.rule s e
  | .further l left, s, e =>
      ∀ {v b₀ : List Char}, Derives extended l.rule room.toNat v left → Blanks b₀ →
        ∃ u x n j k, b₀ ++ s = u ++ x ∧ Awaits extended j l.rule n k (v ++ u) ∧
          room = (n + j : Nat) ∧ Obstacle extended j x e

theorem breaks_operand {l : Level} {s : List Char} {e : Stop} :
    Breaks extended room l.operand s e ↔ Stuck extended room l.inner s e := by
  cases l <;> exact Iff.rfl

/-- An obstacle inside an opening is one behind it. -/
theorem stuck_inside {s r : List Char} {c : Char} {st : Stage} {e : Stop}
    (h : skipBlanks s = c :: r) (hc : inside? c = some st)
    (ih : Breaks extended (room - 1) st r e) : Stuck extended room .primary s e := by
  obtain ⟨b, hs, hb⟩ := exists_blanks s
  unfold inside? at hc
  split at hc
  · cases hc
    obtain ⟨b', u, x, n, j, k, rfl, hb', hu, hn, hx⟩ := ih
    exact ⟨b, '-' :: (b' ++ u), x, n + 1, j, k, by rw [hs, h]; simp, hb, .neg hb' hu, by omega, hx⟩
  · cases hc
    obtain ⟨b', u, x, n, j, k, rfl, hb', hu, hn, hx⟩ := ih
    exact ⟨b, '(' :: (b' ++ u), x, n + 1, j, k + 1, by rw [hs, h]; simp, hb, .group hb' hu,
      by omega, hx⟩
  · cases hc

/-- A run that stops has come to an obstacle. -/
theorem breaks_of_reads {st : Stage} {s : List Char} {o : Outcome}
    (h : Reads extended room st s o) :
    ∀ {e}, o = .error e → 0 ≤ room → Breaks extended room st s e := by
  induction h with
  | numeral | neg | group | stop => rintro _ ⟨⟩
  | @noNumeral room s hc hn =>
      rintro _ ⟨⟩ hr
      obtain ⟨b, hs, hb⟩ := exists_blanks s
      refine ⟨b, [], skipBlanks s, 0, room.toNat, 0, by rwa [List.append_nil], hb, .here,
        by omega, .noNumeral (fun c hd => ⟨?_, hc c hd⟩) hn⟩
      obtain ⟨r, hr⟩ := List.head?_eq_some_iff.mp hd
      exact isBlank_head_skipBlanks hr
  | @tooDeep room s r c st h hc h0 =>
      rintro _ ⟨⟩ hr
      obtain ⟨b, hs, hb⟩ := exists_blanks s
      exact ⟨b, [], c :: r, 0, 0, 0, by rw [hs, h]; simp, hb, .here, by omega, .tooDeep hc⟩
  | inside h hc hr _ ih => exact fun he _ => stuck_inside h hc (ih he (by omega))
  | @unclosed room s r u t h hr hi hk _ =>
      rintro _ ⟨⟩ _
      obtain ⟨b, hs, hb⟩ := exists_blanks s
      obtain ⟨b₁, w, b₂, rfl, hb₁, hw, hb₂⟩ := covers_of_reads hi rfl
      have hu := skipBlanks_of_reads hi rfl (by simp)
      rw [hu] at hk ⊢
      refine ⟨b, [], '(' :: (b₁ ++ w ++ b₂ ++ u), 0, (room - 1).toNat + 1, 0,
        by rw [hs, h]; simp, hb, .here, by omega,
        .unclosed ⟨b₁, w, b₂, rfl, hb₁, hw, hb₂⟩ fun c hc => ?_⟩
      obtain ⟨hblank, hop⟩ := behind_expression hi c hc
      obtain ⟨r, rfl⟩ := List.head?_eq_some_iff.mp hc
      exact ⟨hblank, by rintro rfl; exact hk r rfl, hop⟩
  | first _ ih =>
      intro e he hr
      obtain ⟨b, u, x, n, j, k, hs, hb, hu, hn, hx⟩ := breaks_operand.mp (ih he hr)
      exact ⟨b, u, x, n, j, k, hs, hb, .first hu, hn, hx⟩
  | @chain room l s r t o hi _ _ ih =>
      rintro e rfl hr
      obtain ⟨b, w, b', rfl, hb, hw, hb'⟩ := covers_operand.mp (covers_of_reads hi rfl)
      obtain ⟨u, x, n, j, k, hs, hu, hn, hx⟩ := ih rfl hr hw.single hb'
      exact ⟨b, w ++ u, x, n, j, k, by rw [List.append_assoc _ b', hs]; simp, hb, hu, hn, hx⟩
  | @operand room l left s r c op e h hop _ ih =>
      rintro _ ⟨⟩ hr v b₀ hv hb₀
      obtain ⟨b, hs, hb⟩ := exists_blanks s
      obtain ⟨b', u, x, n, j, k, rfl, hb', hu, hn, hx⟩ := breaks_operand.mp (ih rfl hr)
      have hroom : room.toNat = n + j := by omega
      rw [hroom] at hv
      refine ⟨b₀ ++ b ++ c :: (b' ++ u), x, n, j, k, by rw [hs, h]; simp, ?_, hn, hx⟩
      simpa using Awaits.operand hv (hb₀.append hb) hop hb' hu
  | @more room l left t s r k' c op o h hop hi _ _ ih =>
      rintro e rfl hr v b₀ hv hb₀
      obtain ⟨b, hs, hb⟩ := exists_blanks s
      obtain ⟨b₁, w, b₂, rfl, hb₁, hw, hb₂⟩ := covers_operand.mp (covers_of_reads hi rfl)
      obtain ⟨u, x, n, j, k, hk, hu, hn, hx⟩ := ih rfl hr (hv.binary (hb₀.append hb) hop hb₁ hw) hb₂
      refine ⟨b₀ ++ b ++ c :: (b₁ ++ w) ++ u, x, n, j, k, ?_, by simpa using hu, hn, hx⟩
      rw [hs, h, List.append_assoc _ b₂, hk]
      simp

/-! ### Errors -/

/-- Strict parsing within a limit accepts a text. -/
def Accepts (extended : Bool) (limit : Int) (s : List Char) : Prop :=
  ∃ t, parse (String.ofList s) { strict := true, extended, maxDepth := limit } = .ok t

theorem accepts_of_sentence {m : Nat} {s : List Char} {t : Expr}
    (h : Sentence extended m s t) : Accepts extended m s := by
  refine ⟨t, ?_⟩
  rw [parse, String.toList_ofList,
    parseChars_of_ok (o := { strict := true, extended, maxDepth := m })
      (read_of_sentence h (Int.le_refl _)), if_neg (by simp)]

theorem opened_of_sentence {m : Nat} {s : List Char} {t : Expr} (h : Sentence extended m s t) :
    opened s = 0 := by
  obtain ⟨b, w, b', rfl, hb, hw, hb'⟩ := h
  rw [opened_append, opened_append, opened_blanks hb, opened_of_derives hw, opened_blanks hb']
  rfl

/-- An operand and closing parentheses make a sentence of a text that awaits the operand. -/
theorem accepts_of_awaits {j n k : Nat} {b u w : List Char} {t : Expr} (hb : Blanks b)
    (hu : Awaits extended j .expression n k u) (hw : Derives extended .primary j w t) :
    Accepts extended (n + j : Nat) (b ++ u ++ w ++ List.replicate k ')') := by
  obtain ⟨t', ht⟩ := derives_of_awaits hu hw
  exact accepts_of_sentence ⟨b, u ++ w ++ List.replicate k ')', [], by simp, hb, ht, blanks_nil⟩

theorem derives_one (extended : Bool) (j : Nat) :
    Derives extended .primary j ['1'] (.const (Numeral.value ⟨[1], [], 0⟩)) :=
  .numeral (.unsigned (w := ['1']) (v := []) (.whole (.cons rfl .nil) (by simp)) .none)

/-- The last character of the text is the minus sign or parenthesis that opens a level of
nesting: an operand is due at its place, one level further out. -/
inductive Opens (extended : Bool) : Nat → List Char → Prop where
  | intro {n k : Nat} {b u : List Char} {c : Char} :
      Blanks b → Awaits extended 0 .expression n k u → c ∈ ['-', '('] →
        Opens extended (n + 1) (b ++ u ++ [c])

/-- What an error says of the text before its place and of the text behind it, `k` groups being
open there, by its cause.  The text before is completed by a digit where an operand is missing and
by the parentheses that close the groups. -/
def Explains (strict extended : Bool) (m : Nat) (before behind : List Char) (k : Nat) :
    Cause → Prop
  | .expectedNumber =>
      (∀ c ∈ behind.head?, isBlank c = false ∧ c ≠ '-' ∧ c ≠ '(') ∧
        (∀ w, Numeral.Word w → ¬ w <+: behind) ∧
        Accepts extended m (before ++ '1' :: List.replicate k ')')
  | .expectedCloseParen =>
      1 ≤ k ∧ (∀ c ∈ behind.head?, isBlank c = false ∧ c ≠ ')' ∧ isOperator extended c = false) ∧
        Accepts extended m (before ++ List.replicate k ')')
  | .trailingInput rest =>
      strict = true ∧ rest = behind ∧ k = 0 ∧ behind ≠ [] ∧
        (∀ c ∈ behind.head?, isBlank c = false ∧ isOperator extended c = false) ∧
        Accepts extended m before
  | .tooDeep limit =>
      limit = m ∧ Opens extended (m + 1) before ∧
        Accepts extended (m + 1 : Nat) (before ++ '1' :: List.replicate k ')')

/-- An obstacle explains the error it leads to. -/
theorem explains_of_obstacle (strict : Bool) {m n j k : Nat} {b u x : List Char} {e : Stop}
    (hb : Blanks b) (hu : Awaits extended j .expression n k u) (hm : m = n + j)
    (hx : Obstacle extended j x e) :
    ∃ before, b ++ u ++ x = before ++ e.rest ∧ ∃ k' : Nat, opened before = k' ∧
      Explains strict extended m before e.rest k' (.ofReason m e.reason) := by
  have hk : opened (b ++ u) = k := by
    rw [opened_append, opened_blanks hb, opened_of_awaits hu]
    omega
  subst hm
  cases hx with
  | noNumeral hc hs =>
      refine ⟨b ++ u, rfl, k, hk, fun c hx => ⟨(hc c hx).1, ?_⟩, Numeral.scan_eq_none_iff.mp hs, ?_⟩
      · have hin := (hc c hx).2
        exact ⟨(by rintro rfl; cases hin), (by rintro rfl; cases hin)⟩
      · simpa using accepts_of_awaits hb hu (derives_one extended j)
  | @tooDeep r c st _ hc =>
      -- one level further the sign or the parenthesis is an operand's beginning
      have hdeep := hu.mono (Nat.zero_le 1)
      unfold inside? at hc
      split at hc
      · refine ⟨b ++ u ++ ['-'], by simp, k, ?_, rfl, .intro hb hu (by simp), ?_⟩
        · rw [opened_append, hk]
          rfl
        · have hw := Derives.neg (b := []) blanks_nil (derives_one extended 0)
          simpa using accepts_of_awaits hb hdeep hw
      · refine ⟨b ++ u ++ ['('], by simp, k + 1, ?_, rfl, .intro hb hu (by simp), ?_⟩
        · rw [opened_append, hk]
          rfl
        · have hw := Derives.group (b := []) blanks_nil
            (.summand (.factor (derives_one extended 0))) blanks_nil
          simpa [List.replicate_succ] using accepts_of_awaits hb hdeep hw
      · cases hc
  | @unclosed j w r t _ hw hc =>
      refine ⟨b ++ u ++ '(' :: w, by simp, k + 1, ?_, Nat.le_add_left 1 k, hc, ?_⟩
      · rw [opened_append, hk, opened_cons, opened_of_sentence hw]
        rfl
      · obtain ⟨b₁, v, b₂, rfl, hb₁, hv, hb₂⟩ := hw
        simpa [List.replicate_succ] using accepts_of_awaits hb hu (.group hb₁ hv hb₂)

/-- **An error stands at the obstacle.**  Its place is in the text or at its end, and its cause
tells what is missing there: an operand, a closing parenthesis, the end of the text, or room for
one more level.  The text before the place is the beginning of a sentence. -/
theorem parse_error_place (source : String) (strict extended : Bool) (m : Nat) (e : ParseError)
    (h : parse source { strict, extended, maxDepth := m } = .error e) :
    e.pos ≤ source.length ∧ ∃ k : Nat, opened (source.toList.take e.pos) = k ∧
      Explains strict extended m (source.toList.take e.pos) (source.toList.drop e.pos) k
        e.cause := by
  -- it is enough to find the text before the place
  have key : ∀ {before rest : List Char} {c : Cause}, source.toList = before ++ rest →
      e = ⟨c, source.toList.length - rest.length⟩ →
      (∃ k : Nat, opened before = k ∧ Explains strict extended m before rest k c) →
      e.pos ≤ source.length ∧ ∃ k : Nat, opened (source.toList.take e.pos) = k ∧
        Explains strict extended m (source.toList.take e.pos) (source.toList.drop e.pos) k
          e.cause := by
    intro before rest c hs he hk
    rw [hs, List.length_append, Nat.add_sub_cancel] at he
    rw [← String.length_toList, hs, he, List.take_left, List.drop_left, List.length_append]
    exact ⟨Nat.le_add_right _ _, hk⟩
  rcases read_of_parse_error h with ⟨f, hf, he⟩ | ⟨hstrict, t, k, hr, hk, he⟩
  · obtain ⟨b, u, x, n, j, k, hs, hb, hu, hm, hx⟩ :=
      breaks_of_reads (reads_iff.mpr hf) rfl (Int.natCast_nonneg m)
    obtain ⟨before, hbefore, hk⟩ :=
      explains_of_obstacle strict hb hu (Int.ofNat_inj.mp hm) hx
    exact key (hs.trans hbefore) he hk
  · have hreads := reads_iff.mpr hr
    obtain ⟨b, w, b', hs, hb, hw, hb'⟩ := covers_of_reads hreads rfl
    rw [Int.toNat_natCast] at hw
    have hsentence : Sentence extended m (b ++ w ++ b') t := ⟨b, w, b', rfl, hb, hw, hb'⟩
    refine key hs he ⟨0, opened_of_sentence hsentence, hstrict, rfl, rfl, hk, ?_, ?_⟩
    · exact behind_expression hreads
    · exact accepts_of_sentence hsentence

/-- In `2*(x` an operand is missing in the group, and in `-(1)` the parenthesis is one level too
deep when there may be one level only. -/
theorem parse_error_place_group :
    (parse "2*(x" { strict := false, extended := true, maxDepth := (1 : Nat) } =
        .error ⟨.expectedNumber, 3⟩ ∧
      3 ≤ "2*(x".length ∧ ∃ k : Nat, opened ("2*(x".toList.take 3) = k ∧
        Explains false true 1 ("2*(x".toList.take 3) ("2*(x".toList.drop 3) k .expectedNumber) ∧
    parse "-(1)" { strict := true, extended := false, maxDepth := (1 : Nat) } =
        .error ⟨.tooDeep (1 : Nat), 2⟩ ∧
      2 ≤ "-(1)".length ∧ ∃ k : Nat, opened ("-(1)".toList.take 2) = k ∧
        Explains true false 1 ("-(1)".toList.take 2) ("-(1)".toList.drop 2) k
          (.tooDeep (1 : Nat)) := by
  have hmissing : Reads true (1 : Nat) (.level .expression) "2*(x".toList
      (.error ⟨.expectedNumber, ['x'], 0⟩) := by
    refine .first (.chain (l := .term) (.numeral (k := "*(x".toList) rfl) ?_)
    refine .operand (r := "(x".toList) rfl rfl (.inside rfl rfl (by decide) ?_)
    exact .first (.first (.noNumeral (by rintro _ ⟨⟩; rfl) rfl))
  have hdeep : Reads false (1 : Nat) (.level .expression) "-(1)".toList
      (.error ⟨.tooDeep, "1)".toList, -1⟩) :=
    .first (.first (.inside rfl rfl (by decide) (.tooDeep rfl rfl (by decide))))
  have h : parse "2*(x" { strict := false, extended := true, maxDepth := (1 : Nat) } =
      .error ⟨.expectedNumber, 3⟩ := by
    rw [parse, parseChars_of_error (o := { strict := false, maxDepth := (1 : Nat) }) hmissing.eq]
    rfl
  have h' : parse "-(1)" { strict := true, extended := false, maxDepth := (1 : Nat) } =
      .error ⟨.tooDeep (1 : Nat), 2⟩ := by
    rw [parse, parseChars_of_error
      (o := { strict := true, extended := false, maxDepth := (1 : Nat) }) hdeep.eq]
    rfl
  exact ⟨⟨h, parse_error_place _ _ _ _ _ h⟩, h', parse_error_place _ _ _ _ _ h'⟩

end Abacus.Grammar
