import Abacus.Proofs.Grammar.Language

/-!
# Grammar — lenient parsing reads the longest strict prefix

A stage never looks back, and looks ahead only at the text it leaves.

* `unread_suffix`: what a run leaves unread is the end of what it was given.
* `reads_of_append`: when a run leaves a text, cutting off any part of its end changes nothing but
  what is left.  The one place where this needs an argument is a numeral, whose scan might have
  gone on into the part that was cut off (`Numeral.scan_of_append`).
* `parse_lenient`: a lenient parse fails as the strict one does; when it succeeds, some prefix of
  the text is accepted strictly with the same tree, and every longer prefix is refused where that
  one ends.
-/

namespace Abacus.Grammar
open Text

variable {extended : Bool} {room : Int}

/-! ### What is left -/

theorem skipBlanks_suffix (s : List Char) : skipBlanks s <:+ s := List.dropWhile_suffix _

theorem suffix_of_skipBlanks {s r : List Char} {c : Char} (h : skipBlanks s = c :: r) : r <:+ s :=
  ((List.suffix_cons c r).trans (h ▸ List.suffix_refl _)).trans (skipBlanks_suffix s)

/-- The text that a run leaves unread, where it succeeds or where it stops. -/
def unread : Outcome → List Char
  | .ok p    => p.2
  | .error e => e.rest

/-- What a run leaves unread is the end of what it was given. -/
theorem unread_suffix {st : Stage} {s : List Char} {o : Outcome}
    (h : Reads extended room st s o) : unread o <:+ s := by
  induction h with
  | numeral h =>
      obtain ⟨w, hw, -⟩ := Numeral.writes_of_scan h
      exact (hw ▸ List.suffix_append w _).trans (skipBlanks_suffix _)
  | noNumeral | stop => exact skipBlanks_suffix _
  | tooDeep h => exact suffix_of_skipBlanks h
  | inside h _ _ _ ih | neg h _ _ ih => exact ih.trans (suffix_of_skipBlanks h)
  | group h _ _ hk ih =>
      exact ((suffix_of_skipBlanks hk).trans ih).trans (suffix_of_skipBlanks h)
  | unclosed h _ _ _ ih => exact ((skipBlanks_suffix _).trans ih).trans (suffix_of_skipBlanks h)
  | first _ ih => exact ih
  | chain _ _ ih ih' => exact ih'.trans ih
  | operand h _ _ ih => exact ih.trans (suffix_of_skipBlanks h)
  | more h _ _ _ ih ih' => exact (ih'.trans ih).trans (suffix_of_skipBlanks h)

theorem read_suffix (extended : Bool) (st : Stage) (room : Int) (s : List Char) :
    unread (read extended room st s) <:+ s := unread_suffix (reads_read extended room st s)

/-- What is left of a text behind a numeral, or where none begins, is the end of it. -/
theorem numeral_suffix (room : Int) (s : List Char) :
    unread ((numeral room s).map Parsed.pair) <:+ s := by
  rw [numeral]
  split
  · next h =>
      obtain ⟨v, hv, -⟩ := Numeral.writes_of_scan h
      exact ⟨v, hv.symm⟩
  · exact List.suffix_refl _

theorem suffix_of_reads {st : Stage} {s : List Char} {o : Outcome}
    (h : Reads extended room st s o) : ∀ {t k}, o = .ok (t, k) → k <:+ s := by
  rintro t k rfl
  exact unread_suffix h

/-! ### Cutting off the end -/

/-- Skipping blanks stops before the part cut off. -/
theorem skipBlanks_of_append {s k x : List Char} (h : skipBlanks (s ++ x) = k ++ x) :
    skipBlanks s = k := by
  obtain ⟨b, hs, hb⟩ := exists_blanks (s ++ x)
  rw [h, ← List.append_assoc] at hs
  rw [List.append_cancel_right hs, skipBlanks_append hb]
  cases k with
  | nil => rfl
  | cons c r => exact skipBlanks_cons (isBlank_head_skipBlanks h) r

/-- Cutting off a part of what a run leaves changes nothing else. -/
theorem reads_of_append {st : Stage} {u x : List Char} {o : Outcome}
    (h : Reads extended room st u o) : ∀ {s k : List Char} {t : Expr}, u = s ++ x →
      o = .ok (t, k ++ x) → Reads extended room st s (.ok (t, k)) := by
  induction h with
  | noNumeral | tooDeep | inside | unclosed | first | operand => rintro _ _ _ _ ⟨⟩
  | @numeral room u k n h =>
      rintro s k t rfl ⟨⟩
      obtain ⟨b, hs, hb⟩ := exists_blanks (s ++ x)
      obtain ⟨w, hw, -⟩ := Numeral.writes_of_scan h
      rw [hw] at hs h
      rw [← List.append_assoc, ← List.append_assoc] at hs
      rw [← List.append_assoc] at h
      -- the numeral's word stands before the part cut off, and is still the longest
      have hn := Numeral.scan_of_append h
      refine .numeral ?_
      rw [List.append_cancel_right hs, List.append_assoc, skipBlanks_append hb,
        skipBlanks_of_scan hn, hn]
  | @neg room u r _ t h hr hi ih =>
      rintro s k _ rfl ⟨⟩
      obtain ⟨r', rfl⟩ := (List.suffix_append k x).trans (suffix_of_reads hi rfl)
      exact .neg (skipBlanks_of_append h) hr (ih rfl rfl)
  | @group room u r v _ t h hr hi hk ih =>
      rintro s k _ rfl ⟨⟩
      obtain ⟨v', rfl⟩ := (List.suffix_append k x).trans (suffix_of_skipBlanks hk)
      obtain ⟨r', rfl⟩ := (List.suffix_append v' x).trans (suffix_of_reads hi rfl)
      exact .group (skipBlanks_of_append h) hr (ih rfl rfl) (skipBlanks_of_append hk)
  | @chain room l u r t o _ hf ih ih' =>
      rintro s k _ rfl rfl
      obtain ⟨r', rfl⟩ := (List.suffix_append k x).trans (suffix_of_reads hf rfl)
      exact .chain (ih rfl rfl) (ih' rfl rfl)
  | @stop room l left u h =>
      rintro s k t rfl hk
      simp only [Except.ok.injEq, Prod.mk.injEq] at hk
      obtain ⟨rfl, hk⟩ := hk
      have hs := skipBlanks_of_append hk
      subst hs
      -- a first character of what is left is the first one of the whole
      refine .stop fun c hc => h c ?_
      cases hb : skipBlanks s with
      | nil => rw [hb] at hc; cases hc
      | cons d r => rw [hk, hb]; rw [hb] at hc; exact hc
  | @more room l left t u r v c op o h hop hi hf ih ih' =>
      rintro s k _ rfl rfl
      obtain ⟨v', rfl⟩ := (List.suffix_append k x).trans (suffix_of_reads hf rfl)
      obtain ⟨r', rfl⟩ := (List.suffix_append v' x).trans (suffix_of_reads hi rfl)
      exact .more (skipBlanks_of_append h) hop (ih rfl rfl) (ih' rfl rfl)

/-! ### Lenient and strict parsing -/

/-- The first `n` characters of a text. -/
def upTo (source : String) (n : Nat) : String := String.ofList (source.toList.take n)

theorem toList_upTo (source : String) (n : Nat) :
    (upTo source n).toList = source.toList.take n := by
  simp [upTo]

/-- A strict parse of the text up to a place behind the one where a reading ended. -/
theorem parseChars_cut {o : Options} (ho : o.strict = true) {v y x : List Char} {t : Expr}
    (h : read o.extended o.maxDepth (.level .expression) (v ++ (y ++ x)) = .ok (t, y ++ x)) :
    parseChars o (v ++ y) = if y = [] then .ok t else .error ⟨.trailingInput y, v.length⟩ := by
  have hcut := reads_of_append (reads_iff.mpr h) (List.append_assoc v y x).symm rfl
  rw [parseChars_of_ok hcut.eq]
  cases y with
  | nil => simp
  | cons c y => simp [ho]

/-- **Lenient parsing reads the longest prefix that strict parsing accepts.**  It fails as strict
parsing does.  When it succeeds, the text up to some place is accepted strictly with the same tree,
and the text up to any later place is refused strictly at the first one. -/
theorem parse_lenient (source : String) (extended : Bool) (maxDepth : Int) :
    (∀ e, parse source { strict := false, extended, maxDepth } = .error e →
      parse source { strict := true, extended, maxDepth } = .error e) ∧
    ∀ t, parse source { strict := false, extended, maxDepth } = .ok t →
      ∃ p ≤ source.length,
        parse (upTo source p) { strict := true, extended, maxDepth } = .ok t ∧
        (∀ q, p < q → q ≤ source.length →
          parse (upTo source q) { strict := true, extended, maxDepth } =
            .error ⟨.trailingInput ((source.toList.take q).drop p), p⟩) ∧
        (p = source.length → parse source { strict := true, extended, maxDepth } = .ok t) := by
  unfold parse
  cases hr : read extended maxDepth (.level .expression) source.toList with
  | error e =>
      refine ⟨fun f hf => ?_, fun t ht => ?_⟩
      · rw [parseChars_of_error hr] at hf ⊢
        exact hf
      · rw [parseChars_of_error hr] at ht
        cases ht
  | ok p =>
      obtain ⟨t', k⟩ := p
      refine ⟨fun f hf => ?_, fun t ht => ?_⟩
      · rw [parseChars_of_ok hr] at hf
        simp at hf
      · rw [parseChars_of_ok hr] at ht
        simp only [Bool.false_eq_true, false_and, if_false, Except.ok.injEq] at ht
        subst ht
        obtain ⟨v, hv⟩ := suffix_of_reads (reads_iff.mpr hr) rfl
        have hlen : source.length = v.length + k.length := by
          rw [← String.length_toList, ← hv, List.length_append]
        rw [← hv] at hr ⊢
        have hcut := parseChars_cut (o := { strict := true, extended, maxDepth }) rfl (y := []) hr
        refine ⟨v.length, by omega, ?_, fun q hq hle => ?_, fun hp => ?_⟩
        · rw [toList_upTo, ← hv, List.take_left]
          simpa using hcut
        · have htake : (v ++ k).take q = v ++ k.take (q - v.length) := by
            rw [List.take_append, List.take_of_length_le (Nat.le_of_lt hq)]
          have hne : k.take (q - v.length) ≠ [] := by
            intro hnil
            have := congrArg List.length hnil
            simp only [List.length_take, List.length_nil] at this
            omega
          rw [toList_upTo, ← hv, htake, List.drop_left]
          rw [← List.take_append_drop (q - v.length) k] at hr
          rw [parseChars_cut (o := { strict := true, extended, maxDepth }) rfl hr, if_neg hne]
        · have hnil : k = [] := List.length_eq_zero_iff.mp (by omega)
          subst hnil
          simpa using hcut

/-- The tree of `2e+`, which is that of `2`. -/
def two : Expr := .const (Numeral.value ⟨[2], [], 0⟩)

/-- `(1` is refused in either mode, and `2e+` in strict mode only, at the exponent that was not
finished. -/
theorem parse_lenient_unfinished :
    (parse "(1" { strict := false, extended := true, maxDepth := 100 } =
        .error ⟨.expectedCloseParen, 2⟩ ∧
      parse "(1" { strict := true, extended := true, maxDepth := 100 } =
        .error ⟨.expectedCloseParen, 2⟩) ∧
    parse "2e+" { strict := false, extended := true, maxDepth := 100 } = .ok two ∧
    ∃ p ≤ "2e+".length,
      parse (upTo "2e+" p) { strict := true, extended := true, maxDepth := 100 } = .ok two ∧
      (∀ q, p < q → q ≤ "2e+".length →
        parse (upTo "2e+" q) { strict := true, extended := true, maxDepth := 100 } =
          .error ⟨.trailingInput (("2e+".toList.take q).drop p), p⟩) ∧
      (p = "2e+".length →
        parse "2e+" { strict := true, extended := true, maxDepth := 100 } = .ok two) := by
  have hone : Reads true (100 - 1) (.level .expression) ['1']
      (.ok (.const (Numeral.value ⟨[1], [], 0⟩), [])) :=
    .chain (.chain (.numeral rfl) (.stop (by simp [skipBlanks]))) (.stop (by simp [skipBlanks]))
  have hopen : Reads true 100 (.level .expression) "(1".toList
      (.error ⟨.expectedCloseParen, [], 99⟩) :=
    .first (.first (.unclosed (r := ['1']) (u := []) rfl (by decide) hone (by simp [skipBlanks])))
  have htwo : Reads true 100 (.level .expression) "2e+".toList (.ok (two, ['e', '+'])) :=
    .chain (.chain (.numeral (k := ['e', '+']) rfl) (.stop (by rintro _ ⟨⟩; rfl)))
      (.stop (by rintro _ ⟨⟩; rfl))
  have hfail : parse "(1" { strict := false, extended := true, maxDepth := 100 } =
      .error ⟨.expectedCloseParen, 2⟩ := by
    rw [parse, parseChars_of_error (o := { strict := false }) hopen.eq]
    rfl
  have hlenient : parse "2e+" { strict := false, extended := true, maxDepth := 100 } = .ok two := by
    rw [parse, parseChars_of_ok (o := { strict := false }) htwo.eq]
    rfl
  exact ⟨⟨hfail, (parse_lenient "(1" true 100).1 _ hfail⟩, hlenient,
    (parse_lenient "2e+" true 100).2 two hlenient⟩

end Abacus.Grammar
