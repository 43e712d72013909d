import Abacus.Proofs.Grammar.Limit

/-!
# Grammar — blanks between tokens

Blanks put into a text beside a parenthesis, a `*`, a `/` or another blank, or at one of its ends,
change nothing but the places behind them.

* `Spaced`: the texts that the two readings have before them, place by place.  The blanks are still
  to come, with what follows them, or both readings are behind them.
* `Spaced.tail`, `Spaced.numeral`: a token at a time, the two readings see the same character
  and the same numeral.  No numeral goes on across the place of the blanks, so it does not matter
  that they are never skipped inside one.
* `Reads.spaced`: hence a whole run goes the same way on both texts.
* `parse_spaced`: the spaced text parses as the same tree, or fails with the same kind of error, at
  the same place before the blanks and so many characters further on behind them.
-/

namespace Abacus.Grammar
open Text Numeral

variable {extended : Bool} {room : Int} {w b : List Char}

/-! ### The texts of two readings -/

/-- No token goes from `a` on into `b`. -/
def Gap (a b : List Char) : Prop := a = [] ∨ Parted a b

/-- The two texts from some place on: with blanks `w` still to come before `b`, or behind them. -/
inductive Spaced (w b : List Char) : List Char → List Char → Prop where
  | ahead {a : List Char} : Gap a b → Spaced w b (a ++ b) (a ++ (w ++ b))
  | behind {s : List Char} : s <:+ b → Spaced w b s s

/-- A gap stays one while the text before it is read. -/
theorem Gap.suffix {a k : List Char} (h : Gap a b) (hk : k <:+ a) : Gap k b := by
  by_cases hnil : k = []
  · exact .inl hnil
  · obtain ⟨v, rfl⟩ := hk
    rcases h with h | h | ⟨c, hc, hf⟩ | h
    · exact absurd (List.append_eq_nil_iff.mp h).2 hnil
    · exact .inr (.inl h)
    · rw [List.getLast?_append] at hc
      cases hd : k.getLast? with
      | none => exact absurd (List.getLast?_eq_none_iff.mp hd) hnil
      | some d =>
          rw [hd] at hc
          exact .inr (.inr (.inl ⟨c, hd.trans hc, hf⟩))
    · exact .inr (.inr (.inr h))

/-- Blanks part whatever is before them. -/
theorem parted_blanks {a : List Char} (hw : Blanks w) (h : Parted a b) : Parted a (w ++ b) := by
  cases w with
  | nil => exact h
  | cons c w =>
      rw [Blanks, List.all_cons, Bool.and_eq_true] at hw
      exact .inr (.inr ⟨c, rfl, foreign_of_isBlank hw.1⟩)

namespace Spaced

/-- Both readings skip to the same token: one before the blanks put in, or one behind them. -/
theorem skipBlanks_cases {s s' : List Char} (h : Spaced w b s s') (hw : Blanks w) :
    (∃ c a, Parted (c :: a) b ∧ skipBlanks s = c :: a ++ b ∧
        skipBlanks s' = c :: a ++ (w ++ b)) ∨
      skipBlanks s <:+ b ∧ skipBlanks s' = skipBlanks s := by
  cases h with
  | behind h => exact .inr ⟨(skipBlanks_suffix _).trans h, rfl⟩
  | @ahead a h =>
      obtain ⟨v, ha, hv⟩ := exists_blanks a
      have hgap := h.suffix (skipBlanks_suffix a)
      rw [ha, List.append_assoc, List.append_assoc, skipBlanks_append hv, skipBlanks_append hv]
      cases hs : skipBlanks a with
      | nil =>
          refine .inr ⟨skipBlanks_suffix b, ?_⟩
          rw [List.nil_append, List.nil_append, skipBlanks_append hw]
      | cons c a =>
          have hc := isBlank_head_skipBlanks hs
          rw [hs] at hgap
          exact .inl ⟨c, a, hgap.resolve_left (List.cons_ne_nil c a), skipBlanks_cons hc _,
            skipBlanks_cons hc _⟩

/-- Both readings skip to texts that are still the same blanks apart. -/
theorem skipped {s s' : List Char} (h : Spaced w b s s') (hw : Blanks w) :
    Spaced w b (skipBlanks s) (skipBlanks s') := by
  rcases h.skipBlanks_cases hw with ⟨c, a, hgap, hs, hs'⟩ | ⟨hs, hs'⟩
  · rw [hs, hs']
    exact .ahead (.inr hgap)
  · rw [hs']
    exact .behind hs

/-- Both readings see the same character first. -/
theorem head {s s' : List Char} (h : Spaced w b s s') (hw : Blanks w) :
    (skipBlanks s').head? = (skipBlanks s).head? := by
  rcases h.skipBlanks_cases hw with ⟨c, a, -, hs, hs'⟩ | ⟨-, hs'⟩
  · rw [hs, hs']
    rfl
  · rw [hs']

/-- Behind a character that both readings see, they are still the same blanks apart. -/
theorem tail {s s' r : List Char} {c : Char} (h : Spaced w b s s') (hw : Blanks w)
    (hs : skipBlanks s = c :: r) :
    ∃ r', skipBlanks s' = c :: r' ∧ Spaced w b r r' := by
  rcases h.skipBlanks_cases hw with ⟨d, a, hgap, he, he'⟩ | ⟨he, he'⟩
  · rw [hs] at he
    cases he
    exact ⟨_, he', .ahead (Gap.suffix (.inr hgap) (List.suffix_cons c a))⟩
  · rw [hs] at he he'
    exact ⟨r, he', .behind ((List.suffix_cons c r).trans he)⟩

/-- Both readings find the same numeral, or none. -/
theorem numeral {s s' : List Char} (h : Spaced w b s s') (hw : Blanks w) :
    (scan (skipBlanks s) = none → scan (skipBlanks s') = none) ∧
      ∀ n k, scan (skipBlanks s) = some (n, k) →
        ∃ k', scan (skipBlanks s') = some (n, k') ∧ Spaced w b k k' := by
  rcases h.skipBlanks_cases hw with ⟨c, a, hgap, hs, hs'⟩ | ⟨hs, hs'⟩
  · rw [hs, hs', scan_parted hgap, scan_parted (parted_blanks hw hgap)]
    cases ha : Numeral.scan (c :: a) with
    | none => exact ⟨fun _ => rfl, nofun⟩
    | some p =>
        refine ⟨nofun, ?_⟩
        rintro _ _ ⟨⟩
        obtain ⟨v, hv, -⟩ := writes_of_scan ha
        exact ⟨_, rfl, .ahead (Gap.suffix (.inr hgap) ⟨v, hv.symm⟩)⟩
  · rw [hs']
    refine ⟨id, fun n k hk => ⟨k, hk, .behind ?_⟩⟩
    obtain ⟨v, hv, -⟩ := writes_of_scan hk
    exact List.IsSuffix.trans ⟨v, hv.symm⟩ hs

end Spaced

/-! ### Runs -/

/-- Outcomes that differ in what they leave only, and there by the blanks put in. -/
inductive SpacedOutcome (w b : List Char) : Outcome → Outcome → Prop where
  | ok (t : Expr) {k k' : List Char} :
      Spaced w b k k' → SpacedOutcome w b (.ok (t, k)) (.ok (t, k'))
  | error (x : Reason) (room : Int) {k k' : List Char} :
      Spaced w b k k' → SpacedOutcome w b (.error ⟨x, k, room⟩) (.error ⟨x, k', room⟩)

/-- A run goes the same way on both texts. -/
theorem Reads.spaced (hw : Blanks w) {st : Stage} {s : List Char} {o : Outcome}
    (h : Reads extended room st s o) : ∀ {s' : List Char}, Spaced w b s s' →
      ∃ o', Reads extended room st s' o' ∧ SpacedOutcome w b o o' := by
  induction h with
  | numeral h =>
      intro s' hs
      obtain ⟨k', hk, hsp⟩ := (hs.numeral hw).2 _ _ h
      exact ⟨_, .numeral hk, .ok _ hsp⟩
  | noNumeral hc h =>
      intro s' hs
      rw [← hs.head hw] at hc
      exact ⟨_, .noNumeral hc ((hs.numeral hw).1 h), .error _ _ (hs.skipped hw)⟩
  | tooDeep h hc hr =>
      intro s' hs
      obtain ⟨r', hr', hsp⟩ := hs.tail hw h
      exact ⟨_, .tooDeep hr' hc hr, .error _ _ hsp⟩
  | inside h hc hr _ ih =>
      intro s' hs
      obtain ⟨r', hr', hsp⟩ := hs.tail hw h
      obtain ⟨o', ho, hso⟩ := ih hsp
      cases hso with
      | error x room hk => exact ⟨_, .inside hr' hc hr ho, .error x room hk⟩
  | neg h hr _ ih =>
      intro s' hs
      obtain ⟨r', hr', hsp⟩ := hs.tail hw h
      obtain ⟨o', ho, hso⟩ := ih hsp
      cases hso with
      | ok t hk => exact ⟨_, .neg hr' hr ho, .ok _ hk⟩
  | group h hr _ hclose ih =>
      intro s' hs
      obtain ⟨r', hr', hsp⟩ := hs.tail hw h
      obtain ⟨o', ho, hso⟩ := ih hsp
      cases hso with
      | ok t hk =>
          obtain ⟨k', hk', hsp'⟩ := hk.tail hw hclose
          exact ⟨_, .group hr' hr ho hk', .ok _ hsp'⟩
  | unclosed h hr _ hopen ih =>
      intro s' hs
      obtain ⟨r', hr', hsp⟩ := hs.tail hw h
      obtain ⟨o', ho, hso⟩ := ih hsp
      cases hso with
      | ok t hk =>
          refine ⟨_, .unclosed hr' hr ho fun k' hk' => ?_, .error _ _ (hk.skipped hw)⟩
          -- a parenthesis in the one text is a parenthesis in the other
          have hhead := hk.head hw
          rw [hk'] at hhead
          obtain ⟨k, hk⟩ := List.head?_eq_some_iff.mp hhead.symm
          exact hopen k hk
  | first _ ih =>
      intro s' hs
      obtain ⟨o', ho, hso⟩ := ih hs
      cases hso with
      | error x room hk => exact ⟨_, .first ho, .error x room hk⟩
  | chain _ _ ih ih' =>
      intro s' hs
      obtain ⟨o', ho, hso⟩ := ih hs
      cases hso with
      | ok t hk =>
          obtain ⟨o'', ho', hso'⟩ := ih' hk
          exact ⟨o'', .chain ho ho', hso'⟩
  | stop hno =>
      intro s' hs
      rw [← hs.head hw] at hno
      exact ⟨_, .stop hno, .ok _ (hs.skipped hw)⟩
  | operand h hop _ ih =>
      intro s' hs
      obtain ⟨r', hr', hsp⟩ := hs.tail hw h
      obtain ⟨o', ho, hso⟩ := ih hsp
      cases hso with
      | error x room hk => exact ⟨_, .operand hr' hop ho, .error x room hk⟩
  | more h hop _ _ ih ih' =>
      intro s' hs
      obtain ⟨r', hr', hsp⟩ := hs.tail hw h
      obtain ⟨o', ho, hso⟩ := ih hsp
      cases hso with
      | ok t hk =>
          obtain ⟨o'', ho', hso'⟩ := ih' hk
          exact ⟨o'', .more hr' hop ho ho', hso'⟩

/-! ### Parsing -/

/-- Where a place `q` of a text goes when `d` characters are put in at `i`. -/
def Shifts (i d q q' : Nat) : Prop :=
  (q < i → q' = q) ∧ (i < q → q' = q + d) ∧ (q = i → q' = i ∨ q' = i + d)

/-- What is left of the two texts tells the places that the readings got to. -/
theorem Spaced.shifts {a k k' : List Char} (h : Spaced w b k k') (hk : k <:+ a ++ b) :
    Shifts a.length w.length ((a ++ b).length - k.length)
      ((a ++ (w ++ b)).length - k'.length) := by
  have hle := hk.length_le
  unfold Shifts
  cases h with
  | ahead =>
      simp only [List.length_append] at hle ⊢
      omega
  | behind h =>
      have := h.length_le
      simp only [List.length_append] at hle ⊢
      omega

/-- A text with blanks in a gap parses as it does without them. -/
theorem parseChars_spaced {a : List Char} {o : Options} (hw : Blanks w) (hgap : Gap a b) :
    (∀ t, parseChars o (a ++ b) = .ok t → parseChars o (a ++ (w ++ b)) = .ok t) ∧
    ∀ e, parseChars o (a ++ b) = .error e →
      ∃ e', parseChars o (a ++ (w ++ b)) = .error e' ∧ e'.kind = e.kind ∧
        Shifts a.length w.length e.pos e'.pos := by
  have hread := reads_read o.extended o.maxDepth (.level .expression) (a ++ b)
  obtain ⟨o', hread', hso⟩ := hread.spaced hw (.ahead hgap)
  have hunread := unread_suffix hread
  generalize read o.extended o.maxDepth (.level .expression) (a ++ b) = out at *
  cases hso with
  | error x room hk =>
      rw [parseChars_of_error hread.eq, parseChars_of_error hread'.eq]
      refine ⟨nofun, ?_⟩
      rintro _ ⟨⟩
      exact ⟨_, rfl, rfl, hk.shifts hunread⟩
  | @ok t k k' hk =>
      -- neither reading has left blanks, so both have left something or neither has
      have hhead := hk.head hw
      rw [skipBlanks_of_reads hread rfl (by simp),
        skipBlanks_of_reads hread' rfl (by simp)] at hhead
      have hstrict : (o.strict = true ∧ k' ≠ []) ↔ o.strict = true ∧ k ≠ [] := by
        rw [ne_eq, ne_eq, ← List.head?_eq_none_iff, hhead, List.head?_eq_none_iff]
      rw [parseChars_of_ok hread.eq, parseChars_of_ok hread'.eq]
      by_cases hs : o.strict = true ∧ k ≠ []
      · rw [if_pos hs, if_pos (hstrict.mpr hs)]
        refine ⟨nofun, ?_⟩
        rintro _ ⟨⟩
        exact ⟨_, rfl, rfl, hk.shifts hunread⟩
      · rw [if_neg hs, if_neg fun h => hs (hstrict.mp h)]
        exact ⟨fun _ h => h, nofun⟩

/-- A blank, or a token of one character that is no sign. -/
def Delimits (c : Char) : Prop := c ∈ ['(', ')', '*', '/'] ∨ isBlank c = true

theorem foreign_of_delimits {c : Char} (h : Delimits c) : Foreign c := by
  rcases h with h | h
  · exact foreign_delimiter c h
  · exact foreign_of_isBlank h

/-- Place `i` is at an end of the text, or beside such a character. -/
def AdmitsBlanks (s : List Char) (i : Nat) : Prop :=
  i = 0 ∨ i = s.length ∨ (∃ c ∈ s[i - 1]?, Delimits c) ∨ ∃ c ∈ s[i]?, Delimits c

theorem gap_of_admitsBlanks {s : List Char} {i : Nat} (h : AdmitsBlanks s i) :
    i ≤ s.length ∧ Gap (s.take i) (s.drop i) := by
  by_cases h0 : i = 0
  · subst h0
    exact ⟨Nat.zero_le _, .inl rfl⟩
  · rcases h with h | rfl | ⟨c, hc, hd⟩ | ⟨c, hc, hd⟩
    · exact absurd h h0
    · exact ⟨Nat.le_refl _, .inr (.inl List.drop_length)⟩
    · obtain ⟨hlt, -⟩ := List.getElem?_eq_some_iff.mp hc
      refine ⟨by omega, .inr (.inr (.inl ⟨c, ?_, foreign_of_delimits hd⟩))⟩
      rw [List.getLast?_take, if_neg h0, hc]
      rfl
    · obtain ⟨hlt, -⟩ := List.getElem?_eq_some_iff.mp hc
      refine ⟨hlt.le, .inr (.inr (.inr ⟨c, ?_, foreign_of_delimits hd⟩))⟩
      rw [List.head?_drop]
      exact hc

/-- A text with another one put in behind its first `i` characters. -/
def insertAt (source w : String) (i : Nat) : String :=
  String.ofList (source.toList.take i ++ (w.toList ++ source.toList.drop i))

/-- **Blanks between tokens change nothing.**  At an end of a text, or beside a parenthesis, a `*`,
a `/` or a blank, any run of blanks can be put in: the text parses as the same tree, or fails with
an error of the same kind.  An error before the blanks keeps its place, one behind them moves on by
their number, and one right at them does one or the other. -/
theorem parse_spaced (source w : String) (o : Options) (i : Nat) (hw : Blanks w.toList)
    (hi : AdmitsBlanks source.toList i) :
    (∀ t, parse source o = .ok t → parse (insertAt source w i) o = .ok t) ∧
    ∀ e, parse source o = .error e →
      ∃ e', parse (insertAt source w i) o = .error e' ∧ e'.kind = e.kind ∧
        (e.pos < i → e'.pos = e.pos) ∧ (i < e.pos → e'.pos = e.pos + w.length) ∧
        (e.pos = i → e'.pos = i ∨ e'.pos = i + w.length) := by
  obtain ⟨hle, hgap⟩ := gap_of_admitsBlanks hi
  have h := parseChars_spaced (o := o) hw hgap
  rw [List.take_append_drop, List.length_take_of_le hle, String.length_toList] at h
  unfold parse insertAt
  rw [String.toList_ofList]
  exact h

/-- Blanks inside the parenthesis of `(1` move its error from the end to the new end, and blanks
behind the unfinished exponent of `2e+` leave what is read before it. -/
theorem parse_spaced_unfinished :
    (Blanks "\t ".toList ∧ AdmitsBlanks "(1".toList 1 ∧ AdmitsBlanks "2e+".toList 3) ∧
    (parse "(1" {} = .error ⟨.expectedCloseParen, 2⟩ ∧
      ∃ e', parse "(\t 1" {} = .error e' ∧ e'.kind = .expectedCloseParen ∧ e'.pos = 4) ∧
    parse "2e+" {} = .ok two ∧ parse "2e+\t " {} = .ok two := by
  have hw : Blanks "\t ".toList := rfl
  have hopening : AdmitsBlanks "(1".toList 1 := .inr (.inr (.inl ⟨'(', rfl, .inl (by simp)⟩))
  have hend : AdmitsBlanks "2e+".toList 3 := .inr (.inl rfl)
  have hone : Reads true (100 - 1) (.level .expression) ['1']
      (.ok (.const (Numeral.value ⟨[1], [], 0⟩), [])) :=
    Reads.lone (k := []) (.numeral rfl) (by simp [skipBlanks])
  have hopen : Reads true 100 (.level .expression) "(1".toList
      (.error ⟨.expectedCloseParen, [], 99⟩) :=
    .first (.first (.unclosed (r := ['1']) (u := []) rfl (by decide) hone (by simp [skipBlanks])))
  have htwo : Reads true 100 (.level .expression) "2e+".toList (.ok (two, ['e', '+'])) :=
    Reads.lone (k := ['e', '+']) (.numeral rfl) (by rintro (_ | _) _ ⟨⟩ <;> rfl)
  have herror : parse "(1" {} = .error ⟨.expectedCloseParen, 2⟩ := by
    rw [parse, parseChars_of_error (o := {}) hopen.eq]
    rfl
  have hok : parse "2e+" {} = .ok two := by
    rw [parse, parseChars_of_ok (o := {}) htwo.eq]
    rfl
  obtain ⟨e', he', hkind, -, hpos, -⟩ := (parse_spaced "(1" "\t " {} 1 hw hopening).2 _ herror
  exact ⟨⟨hw, hopening, hend⟩, ⟨herror, e', he', hkind, hpos (by decide)⟩, hok,
    (parse_spaced "2e+" "\t " {} 3 hw hend).1 two hok⟩

end Abacus.Grammar
