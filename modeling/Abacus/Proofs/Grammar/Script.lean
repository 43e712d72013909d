import Abacus.Proofs.Grammar.Language

/-!
# Grammar — digits of other scripts

A digit counts by its value alone, whatever its script, so a text parses as it does with all its
digits written from `0` to `9`.

* `plainChar`: a character, or the digit from `0` to `9` in place of a digit.  It changes digits
  into digits of the same value and nothing else, so whatever tells blanks, signs, operators or
  parentheses from the rest tells them alike (`plain_congr`).
* `writes_plain_iff`: the same numeral is written, and so the same one is read (`scan_plain`).
* `Reads.plain`: a run on a text is carried to the run on the plain text.
* `parse_plain`: hence both parse as the same tree, or fail alike and at the same place.
-/

namespace Abacus.Text

/-- A character, a digit of any script as the one from `0` to `9` with its value. -/
def plainChar (c : Char) : Char :=
  match digitValue? c with
  | some d => Nat.digitChar d
  | none   => c

theorem plain_of_none {c : Char} (h : digitValue? c = none) : plainChar c = c := by
  rw [plainChar, h]

theorem digitValue?_digitChar : ∀ {d : Nat}, d < 10 → digitValue? (Nat.digitChar d) = some d := by
  decide

/-- The value of a digit stays. -/
theorem digitValue?_plain (c : Char) : digitValue? (plainChar c) = digitValue? c := by
  cases h : digitValue? c with
  | none => rw [plain_of_none h, h]
  | some d =>
      rw [plainChar, h]
      exact digitValue?_digitChar (digitValue?_lt h)

/-- Whatever is the same for all digits is the same for a character and its plain form. -/
theorem plain_congr {α : Type} {f : Char → α} {a : α}
    (h : ∀ c, f c ≠ a → digitValue? c = none) (c : Char) : f (plainChar c) = f c := by
  by_cases hc : digitValue? c = none
  · rw [plain_of_none hc]
  · have hdigit : ∀ d, digitValue? d ≠ none → f d = a := fun d hd =>
      Classical.byContradiction fun hne => hd (h d hne)
    rw [hdigit c hc, hdigit (plainChar c) (by rwa [digitValue?_plain])]

/-- A character that is no digit is the plain form of itself alone. -/
theorem plain_eq_iff {c d : Char} (h : digitValue? d = none) : plainChar c = d ↔ c = d := by
  have hplain : (plainChar c == d) = (c == d) := by
    refine plain_congr (f := (· == d)) (a := false) (fun e he => ?_) c
    rw [ne_eq, Bool.not_eq_false, beq_iff_eq] at he
    rwa [he]
  rw [← beq_iff_eq, hplain, beq_iff_eq]

theorem isBlank_plain (c : Char) : isBlank (plainChar c) = isBlank c := by
  refine plain_congr (a := false) (fun d hd => ?_) c
  rw [ne_eq, Bool.not_eq_false] at hd
  simp only [isBlank, Bool.or_eq_true, beq_iff_eq] at hd
  rcases hd with ((((rfl | rfl) | rfl) | rfl) | rfl) | rfl <;> decide

theorem skipBlanks_plain (s : List Char) :
    skipBlanks (s.map plainChar) = (skipBlanks s).map plainChar := by
  have hcomp : isBlank ∘ plainChar = isBlank := funext isBlank_plain
  rw [skipBlanks, skipBlanks, List.dropWhile_map, hcomp]

end Abacus.Text

namespace Abacus.Numeral
open Text

/-! ### The same numerals -/

theorem isMark_plain (c : Char) : isMark (plainChar c) = isMark c :=
  plain_congr (a := false) (fun _ hd => digitValue?_of_isMark (Bool.not_eq_false _ ▸ hd)) c

theorem row_plain_iff {w : List Char} {ds : List Nat} : Row (w.map plainChar) ds ↔ Row w ds := by
  induction w generalizing ds with
  | nil => exact Iff.rfl
  | cons c w ih =>
      rw [List.map_cons]
      constructor
      · rintro (_ | ⟨hd, hw⟩)
        exact .cons (by rwa [digitValue?_plain] at hd) (ih.mp hw)
      · rintro (_ | ⟨hd, hw⟩)
        exact .cons (by rwa [digitValue?_plain]) (ih.mpr hw)

theorem mantissa_plain_iff {w : List Char} {ws fs : List Nat} :
    Mantissa (w.map plainChar) ws fs ↔ Mantissa w ws fs := by
  have hpoint : plainChar '.' = '.' := plain_of_none (digitValue?_sign '.' (by simp))
  constructor
  · generalize hv : w.map plainChar = v
    intro h
    cases h with
    | whole hw hne =>
        rw [← hv] at hw
        exact .whole (row_plain_iff.mp hw) hne
    | pointed hw hu hne =>
        obtain ⟨w, u, rfl, rfl, hu'⟩ := List.map_eq_append_iff.mp hv
        obtain ⟨c, u, rfl, hc, rfl⟩ := List.map_eq_cons_iff.mp hu'
        rw [plain_eq_iff (digitValue?_sign '.' (by simp))] at hc
        subst hc
        exact .pointed (row_plain_iff.mp hw) (row_plain_iff.mp hu) hne
  · intro h
    cases h with
    | whole hw hne => exact .whole (row_plain_iff.mpr hw) hne
    | pointed hw hu hne =>
        rw [List.map_append, List.map_cons, hpoint]
        exact .pointed (row_plain_iff.mpr hw) (row_plain_iff.mpr hu) hne

theorem power_plain_iff {w : List Char} {x : Int} : Power (w.map plainChar) x ↔ Power w x := by
  have hplus : plainChar '+' = '+' := plain_of_none (digitValue?_sign '+' (by simp))
  have hminus : plainChar '-' = '-' := plain_of_none (digitValue?_sign '-' (by simp))
  constructor
  · generalize hv : w.map plainChar = v
    intro h
    cases h with
    | none =>
        rw [List.map_eq_nil_iff.mp hv]
        exact .none
    | unsigned hc hw hne =>
        obtain ⟨c, w, rfl, rfl, rfl⟩ := List.map_eq_cons_iff.mp hv
        rw [isMark_plain] at hc
        exact .unsigned hc (row_plain_iff.mp hw) hne
    | plus hc hw hne =>
        obtain ⟨c, w, rfl, rfl, hw'⟩ := List.map_eq_cons_iff.mp hv
        obtain ⟨d, w, rfl, hd, rfl⟩ := List.map_eq_cons_iff.mp hw'
        rw [plain_eq_iff (digitValue?_sign '+' (by simp))] at hd
        subst hd
        rw [isMark_plain] at hc
        exact .plus hc (row_plain_iff.mp hw) hne
    | minus hc hw hne =>
        obtain ⟨c, w, rfl, rfl, hw'⟩ := List.map_eq_cons_iff.mp hv
        obtain ⟨d, w, rfl, hd, rfl⟩ := List.map_eq_cons_iff.mp hw'
        rw [plain_eq_iff (digitValue?_sign '-' (by simp))] at hd
        subst hd
        rw [isMark_plain] at hc
        exact .minus hc (row_plain_iff.mp hw) hne
  · intro h
    cases h with
    | none => exact .none
    | unsigned hc hw hne => exact .unsigned ((isMark_plain _).trans hc) (row_plain_iff.mpr hw) hne
    | plus hc hw hne =>
        rw [List.map_cons, List.map_cons, hplus]
        exact .plus ((isMark_plain _).trans hc) (row_plain_iff.mpr hw) hne
    | minus hc hw hne =>
        rw [List.map_cons, List.map_cons, hminus]
        exact .minus ((isMark_plain _).trans hc) (row_plain_iff.mpr hw) hne

/-- A text and its plain form write the same numeral, or none. -/
theorem writes_plain_iff {w : List Char} {n : Numeral} :
    Writes (w.map plainChar) n ↔ Writes w n := by
  have hplus : plainChar '+' = '+' := plain_of_none (digitValue?_sign '+' (by simp))
  constructor
  · generalize hv : w.map plainChar = v
    intro h
    cases h with
    | unsigned hm hp =>
        obtain ⟨w, u, rfl, rfl, rfl⟩ := List.map_eq_append_iff.mp hv
        exact .unsigned (mantissa_plain_iff.mp hm) (power_plain_iff.mp hp)
    | plus hm hp =>
        obtain ⟨c, w, rfl, hc, hw⟩ := List.map_eq_cons_iff.mp hv
        obtain ⟨w, u, rfl, rfl, rfl⟩ := List.map_eq_append_iff.mp hw
        rw [plain_eq_iff (digitValue?_sign '+' (by simp))] at hc
        subst hc
        exact .plus (mantissa_plain_iff.mp hm) (power_plain_iff.mp hp)
  · intro h
    cases h with
    | unsigned hm hp =>
        rw [List.map_append]
        exact .unsigned (mantissa_plain_iff.mpr hm) (power_plain_iff.mpr hp)
    | plus hm hp =>
        rw [List.map_cons, List.map_append, hplus]
        exact .plus (mantissa_plain_iff.mpr hm) (power_plain_iff.mpr hp)

/-- What a plain text begins with is the plain form of what the text begins with. -/
theorem exists_prefix_of_plain {v s : List Char} (h : v <+: s.map plainChar) :
    ∃ w, w <+: s ∧ v = w.map plainChar := by
  obtain ⟨k, hk⟩ := h
  obtain ⟨w, r, rfl, hw, -⟩ := List.map_eq_append_iff.mp hk.symm
  exact ⟨w, List.prefix_append w r, hw.symm⟩

/-- A scan of the plain text reads the same numeral and leaves the plain form of what it left. -/
theorem scan_plain (s : List Char) :
    scan (s.map plainChar) = (scan s).map fun p => (p.1, p.2.map plainChar) := by
  cases hs : scan s with
  | none =>
      refine scan_eq_none_iff.mpr ?_
      rintro v ⟨n, hv⟩ hp
      obtain ⟨w, hw, rfl⟩ := exists_prefix_of_plain hp
      exact scan_eq_none_iff.mp hs w ⟨n, writes_plain_iff.mp hv⟩ hw
  | some p =>
      obtain ⟨n, k⟩ := p
      obtain ⟨w, rfl, hw, hmax⟩ := scan_eq_some_iff.mp hs
      refine scan_eq_some_iff.mpr ⟨w.map plainChar, List.map_append, writes_plain_iff.mpr hw, ?_⟩
      rintro v ⟨n', hv⟩ hp
      obtain ⟨u, hu, rfl⟩ := exists_prefix_of_plain hp
      rw [List.length_map, List.length_map]
      exact hmax u ⟨n', writes_plain_iff.mp hv⟩ hu

end Abacus.Numeral

namespace Abacus.Grammar
open Text

variable {extended : Bool} {room : Int}

/-! ### The same runs -/

theorem inside?_plain (c : Char) : inside? (plainChar c) = inside? c := by
  refine plain_congr (a := none) (fun d hd => ?_) c
  unfold inside? at hd
  split at hd
  · exact Numeral.digitValue?_sign _ (by simp)
  · exact Numeral.digitValue?_sign _ (by simp)
  · exact absurd rfl hd

theorem operator_plain (l : Level) (c : Char) :
    l.operator extended (plainChar c) = l.operator extended c := by
  refine plain_congr (a := none) (fun d hd => ?_) c
  obtain ⟨op, hop⟩ := Option.ne_none_iff_exists'.mp hd
  have hmem := mem_of_operator hop
  refine Numeral.digitValue?_sign d ?_
  simp only [List.mem_cons, List.not_mem_nil, or_false] at hmem ⊢
  rcases hmem with rfl | rfl | rfl | rfl <;> simp

/-- The next character of a plain text answers a question about it as that of the text does. -/
theorem plain_head {α : Type} {f : Char → α} {a : α} {s : List Char}
    (hf : ∀ c, f (plainChar c) = f c) (h : ∀ c ∈ (skipBlanks s).head?, f c = a) :
    ∀ c ∈ (skipBlanks (s.map plainChar)).head?, f c = a := by
  intro c hc
  rw [skipBlanks_plain, List.head?_map] at hc
  obtain ⟨d, hd, rfl⟩ := Option.map_eq_some_iff.mp hc
  rw [hf, h d hd]

theorem plain_token {s r : List Char} {c : Char} (h : skipBlanks s = c :: r) :
    skipBlanks (s.map plainChar) = plainChar c :: r.map plainChar := by
  rw [skipBlanks_plain, h, List.map_cons]

theorem plain_sign {s r : List Char} {c : Char} (h : skipBlanks s = c :: r)
    (hc : c ∈ ['+', '-', '*', '/', '(', ')', '.', 'e', 'E']) :
    skipBlanks (s.map plainChar) = c :: r.map plainChar := by
  rw [plain_token h, plain_of_none (Numeral.digitValue?_sign c hc)]

/-- An outcome on the plain text. -/
def Outcome.plain : Outcome → Outcome
  | .ok (t, k)      => .ok (t, k.map Text.plainChar)
  | .error ⟨x, k, m⟩ => .error ⟨x, k.map Text.plainChar, m⟩

/-- **A run on a text** is carried to the run on the plain text. -/
theorem Reads.plain {st : Stage} {s : List Char} {o : Outcome} (h : Reads extended room st s o) :
    Reads extended room st (s.map Text.plainChar) o.plain := by
  induction h with
  | numeral h =>
      refine .numeral ?_
      rw [skipBlanks_plain, Numeral.scan_plain, h]
      rfl
  | noNumeral hc h =>
      rw [Outcome.plain, ← skipBlanks_plain]
      refine .noNumeral (plain_head inside?_plain hc) ?_
      rw [skipBlanks_plain, Numeral.scan_plain, h]
      rfl
  | tooDeep h hc hr => exact .tooDeep (plain_token h) ((inside?_plain _).trans hc) hr
  | inside h hc hr _ ih => exact .inside (plain_token h) ((inside?_plain _).trans hc) hr ih
  | neg h hr _ ih => exact .neg (plain_sign h (by simp)) hr ih
  | group h hr _ hk ih => exact .group (plain_sign h (by simp)) hr ih (plain_sign hk (by simp))
  | unclosed h hr _ hk ih =>
      rw [Outcome.plain, ← skipBlanks_plain]
      refine .unclosed (plain_sign h (by simp)) hr ih fun k he => ?_
      -- a parenthesis in the plain text is one in the text
      rw [skipBlanks_plain] at he
      obtain ⟨c, r, hs, hc, -⟩ := List.map_eq_cons_iff.mp he
      rw [plain_eq_iff (Numeral.digitValue?_sign ')' (by simp))] at hc
      subst hc
      exact hk r hs
  | first _ ih => exact .first ih
  | chain _ _ ih ih' => exact .chain ih ih'
  | stop h =>
      rw [Outcome.plain, ← skipBlanks_plain]
      exact .stop (plain_head (operator_plain _) h)
  | operand h hop _ ih => exact .operand (plain_token h) ((operator_plain _ _).trans hop) ih
  | more h hop _ _ ih ih' => exact .more (plain_token h) ((operator_plain _ _).trans hop) ih ih'

/-! ### Parsing -/

/-- A text with all its digits written from `0` to `9`. -/
def plainText (source : String) : String := String.ofList (source.toList.map Text.plainChar)

/-- What an error says besides its wording. -/
def ParseError.place (e : ParseError) : Failure.Kind × Nat := (e.kind, e.pos)

/-- **Digits of any script are read alike.**  With all its digits written from `0` to `9` a text
parses as the same tree, or fails with an error of the same kind at the same place. -/
theorem parse_plain (source : String) (o : Options) :
    (parse (plainText source) o).mapError ParseError.place =
      (parse source o).mapError ParseError.place := by
  have hread := reads_read o.extended o.maxDepth (.level .expression) source.toList
  have hplain := hread.plain
  unfold parse plainText
  rw [String.toList_ofList]
  generalize read o.extended o.maxDepth (.level .expression) source.toList = out at hread hplain
  cases out with
  | error e =>
      rw [parseChars_of_error hread.eq, parseChars_of_error hplain.eq]
      simp only [List.length_map]
  | ok p =>
      rw [parseChars_of_ok hread.eq, parseChars_of_ok hplain.eq]
      simp only [ne_eq, List.map_eq_nil_iff, List.length_map]
      split <;> rfl

example : plainText "٣.５e2" = "3.5e2" := rfl

end Abacus.Grammar
