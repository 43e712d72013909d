import Abacus.Proofs.Numeral.Lookahead

/-!
# Numerals — the pattern of a numeral

A pattern is tried on the beginning of a text.  Where there is a choice the ways are tried one after
another: of two patterns the first one first, a part that may be missing first as present, and as
many characters of a kind as there are before fewer of them.  What is left behind each way stands
in `rests` in that order, and the match is the first of them (`rest?`).

* `rest?_optional`, `rest?_andThen`, `rest?_optional_andThen`: a later part that fails sends the
  match back to the next way through an earlier one, and to no other where it cannot fail.
* `rest?_pattern`: the match of the numeral's pattern leaves what the scan leaves, which never goes
  back.
-/

namespace Abacus.Text

/-- A pattern for the beginning of a text. -/
inductive Pattern where
  | one (p : Char → Bool)
  | many (p : Char → Bool)
  | optional (a : Pattern)
  | either (a b : Pattern)
  | andThen (a b : Pattern)

/-- What is left behind characters of a kind, behind all of them first and behind none last. -/
def restsMany (p : Char → Bool) : List Char → List (List Char)
  | []     => [[]]
  | c :: s => if p c then restsMany p s ++ [c :: s] else [c :: s]

namespace Pattern

/-- What is left behind a pattern, for each way it matches, in the order in which they are tried. -/
def rests : Pattern → List Char → List (List Char)
  | .one _,       []     => []
  | .one p,       c :: s => if p c then [s] else []
  | .many p,      s      => restsMany p s
  | .optional a,  s      => a.rests s ++ [s]
  | .either a b,  s      => a.rests s ++ b.rests s
  | .andThen a b, s      => (a.rests s).flatMap b.rests

/-- What the match leaves. -/
def rest? (a : Pattern) (s : List Char) : Option (List Char) := (a.rests s).head?

/-- At least one character of a kind. -/
def oneOrMore (p : Char → Bool) : Pattern := .andThen (.one p) (.many p)

variable {a b : Pattern} {p : Char → Bool}

theorem rest?_many (p : Char → Bool) (s : List Char) :
    (many p).rest? s = some (s.dropWhile p) := by
  induction s with
  | nil => rfl
  | cons c s ih =>
      rw [rest?, rests] at ih
      rw [rest?, rests, restsMany]
      cases hc : p c with
      | false => rw [List.dropWhile_cons_of_neg (by rw [hc]; exact Bool.false_ne_true)]; rfl
      | true =>
          rw [List.dropWhile_cons_of_pos hc, if_pos rfl, List.head?_append, ih]
          rfl

theorem rest?_optional (a : Pattern) (s : List Char) :
    (optional a).rest? s = some ((a.rest? s).getD s) := by
  rw [rest?, rest?, rests, List.head?_append]
  cases (a.rests s).head? <;> rfl

theorem rest?_either (a b : Pattern) (s : List Char) :
    (either a b).rest? s = (a.rest? s).or (b.rest? s) := by
  rw [rest?, rests, List.head?_append]
  rfl

/-- In front of a part that always matches, the match is the first one. -/
theorem rest?_andThen (hb : ∀ s, (b.rest? s).isSome) (s : List Char) :
    (andThen a b).rest? s = (a.rest? s).bind b.rest? := by
  rw [rest?, rest?, rests]
  cases a.rests s with
  | nil => rfl
  | cons r rs =>
      obtain ⟨k, hk⟩ := Option.isSome_iff_exists.mp (hb r)
      rw [List.flatMap_cons, List.head?_append, List.head?_cons, Option.bind_some]
      change (b.rest? r).or _ = _
      rw [hk]
      rfl

theorem rest?_one_andThen {c : Char} (s : List Char) :
    (andThen (one p) b).rest? (c :: s) = if p c then b.rest? s else none := by
  rw [rest?, rests, rests]
  split
  · rw [List.flatMap_singleton]
    rfl
  · rfl

/-- Where what follows fails behind a part, it is tried without the part. -/
theorem rest?_optional_andThen (a b : Pattern) (s : List Char) :
    (andThen (optional a) b).rest? s = ((andThen a b).rest? s).or (b.rest? s) := by
  rw [rest?, rests, rests, List.flatMap_append, List.head?_append, List.flatMap_singleton]
  rfl

theorem rest?_oneOrMore (p : Char → Bool) (s : List Char) :
    (oneOrMore p).rest? s = if (s.head?.any p) then some (s.dropWhile p) else none := by
  cases s with
  | nil => rfl
  | cons c s =>
      rw [oneOrMore, rest?_one_andThen, rest?_many, List.head?_cons, Option.any_some]
      cases hc : p c with
      | false => rfl
      | true => rw [List.dropWhile_cons_of_pos hc]

end Pattern

end Abacus.Text

namespace Abacus.Numeral
open Text Pattern

/-! ### The pattern of a numeral -/

def digitsPattern : Pattern := .oneOrMore isDigit

/-- Digits, and perhaps a point and perhaps more digits; or a point and digits. -/
def mantissaPattern : Pattern :=
  .either
    (.andThen digitsPattern (.optional (.andThen (.one (· == '.')) (.many isDigit))))
    (.andThen (.one (· == '.')) digitsPattern)

def powerPattern : Pattern :=
  .andThen (.optional (.one fun c => c == '+' || c == '-')) digitsPattern

/-- The pattern of a numeral. -/
def pattern : Pattern :=
  .andThen (.optional (.one (· == '+')))
    (.andThen mantissaPattern (.optional (.andThen (.one isMark) powerPattern)))

theorem dropWhile_isDigit (s : List Char) : s.dropWhile isDigit = (takeDigits s).2 := by
  induction s with
  | nil => rfl
  | cons c s ih =>
      rw [takeDigits]
      cases hc : digitValue? c with
      | none => exact List.dropWhile_cons_of_neg (by simp [isDigit, hc])
      | some d => rw [List.dropWhile_cons_of_pos (by simp [isDigit, hc]), ih]

theorem rest?_digits (s : List Char) : digitsPattern.rest? s =
    if (takeDigits s).1 = [] then none else some (takeDigits s).2 := by
  rw [digitsPattern, rest?_oneOrMore, dropWhile_isDigit]
  cases s with
  | nil => rfl
  | cons c s =>
      rw [takeDigits, List.head?_cons, Option.any_some, isDigit]
      cases digitValue? c <;> rfl

theorem rest?_digits_of_noDigit {s : List Char} (h : NoDigit s) : digitsPattern.rest? s = none := by
  rw [rest?_digits, if_pos (noDigit_iff.mp h)]

theorem map_scanPower (s : List Char) :
    (scanPower s).map (·.2) = digitsPattern.rest? (takeSign s).2 := by
  rw [rest?_digits, scanPower]
  simp only
  split
  · next e => rw [e]; rfl
  · next hne e => rw [e, if_neg hne]; rfl

theorem rest?_power (s : List Char) : powerPattern.rest? s = (scanPower s).map (·.2) := by
  rw [powerPattern, rest?_optional_andThen, map_scanPower]
  cases s with
  | nil => rfl
  | cons c s =>
      rw [rest?_one_andThen]
      by_cases hsign : c = '+' ∨ c = '-'
      · -- there are no digits at the sign itself
        have hno : digitValue? c = none := by
          rcases hsign with rfl | rfl <;> exact digitValue?_sign _ (by simp)
        rw [rest?_digits_of_noDigit (noDigit_cons hno), Option.or_none]
        rcases hsign with rfl | rfl <;> rfl
      · obtain ⟨hplus, hminus⟩ := not_or.mp hsign
        rw [takeSign_of_ne hminus hplus, if_neg (by simp [hplus, hminus]), Option.none_or]

theorem rest?_fraction (s : List Char) :
    (andThen (one (· == '.')) (many isDigit)).rest? ('.' :: s) = some (takeDigits s).2 := by
  rw [rest?_one_andThen, rest?_many, dropWhile_isDigit]
  rfl

theorem rest?_mantissa (s : List Char) :
    mantissaPattern.rest? s = (scanMantissa s).map (·.2.2) := by
  rw [mantissaPattern, rest?_either, rest?_andThen fun s => by rw [rest?_optional]; rfl]
  cases hm : scanMantissa s with
  | none =>
      obtain ⟨hs, hr⟩ := scanMantissa_eq_none_iff.mp hm
      rw [rest?_digits_of_noDigit hs]
      cases s with
      | nil => rfl
      | cons c s =>
          rw [rest?_one_andThen]
          split
          · next hc =>
              rw [beq_iff_eq] at hc
              subst hc
              exact rest?_digits_of_noDigit (hr s rfl)
          · rfl
  | some p =>
      obtain ⟨ws, fs, r⟩ := p
      rcases takeDigits_of_mantissa hm with ⟨t, hw, hf, hne⟩ | ⟨hw, -, hne, hp⟩
      · obtain ⟨v, hs, hv⟩ := exists_row s
        rw [hw] at hs hv
        cases hv with
        | nil =>
            -- the point stands first, and the digits are behind it
            rw [List.nil_append] at hs hne
            rw [rest?_digits, hw, if_pos rfl, Option.bind_none, Option.none_or, hs,
              rest?_one_andThen, if_pos (beq_self_eq_true '.'), rest?_digits, hf, if_neg hne]
            rfl
        | cons hd hv =>
            rw [rest?_digits, hw, if_neg (List.cons_ne_nil _ _), Option.bind_some, rest?_optional,
              rest?_fraction, hf]
            rfl
      · rw [rest?_digits, hw, if_neg hne, Option.bind_some, rest?_optional]
        cases r with
        | nil => rfl
        | cons c r => rw [rest?_one_andThen, if_neg (by simpa using hp c rfl)]; rfl

theorem rest?_exponent (s : List Char) :
    (optional (andThen (one isMark) powerPattern)).rest? s = some (scanExponent s).2 := by
  rw [rest?_optional]
  cases s with
  | nil => rfl
  | cons c s =>
      rw [rest?_one_andThen, rest?_power]
      cases hc : isMark c with
      | false => rw [scanExponent_noMark (by rintro _ ⟨⟩; exact hc)]; rfl
      | true =>
          rw [scanExponent_mark hc]
          cases scanPower s <;> rfl

/-- **The pattern matches what is scanned.** -/
theorem rest?_pattern (s : List Char) : pattern.rest? s = (scan s).map (·.2) := by
  have hbody (s : List Char) : (andThen mantissaPattern
      (optional (andThen (one isMark) powerPattern))).rest? s = (scanUnsigned s).map (·.2) := by
    rw [rest?_andThen fun s => by rw [rest?_optional]; rfl, rest?_mantissa, scanUnsigned]
    cases scanMantissa s with
    | none => rfl
    | some p => exact rest?_exponent p.2.2
  rw [pattern, rest?_optional_andThen, hbody]
  cases s with
  | nil => rfl
  | cons c s =>
      rw [rest?_one_andThen]
      by_cases hc : c = '+'
      · -- no numeral without sign begins with a plus sign
        subst hc
        have hno : scanUnsigned ('+' :: s) = none := scanUnsigned_eq_none_iff.mpr
          (scanMantissa_eq_none_of_head (digitValue?_sign _ (by simp)) (by decide) s)
        rw [if_pos (beq_self_eq_true '+'), hbody, hno]
        exact Option.or_none
      · rw [if_neg (by simpa using hc), Option.none_or, scan_of_ne hc]

end Abacus.Numeral
