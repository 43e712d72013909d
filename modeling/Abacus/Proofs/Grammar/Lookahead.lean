import Abacus.Proofs.Grammar.Limit
import Abacus.Proofs.Numeral.Lookahead

/-!
# Grammar — how far parsing looks ahead

The descent looks at one character, and at three where it looks for a numeral or for the end of
one.  What stands further behind the place where it ends has no part in the outcome.

* `Reads.ahead`: a run goes the same way when the text it leaves is exchanged for one that begins
  with the same three characters.
* `parse_lookahead`: an error at a place, or a tree with the reading at a place, is the outcome on
  every text that is the same up to three characters behind the place.

A text that ends within the three characters is the only one of its kind: the same characters up
to there and no more.
-/

namespace Abacus.Grammar
open Text

variable {extended : Bool} {room : Int}

/-! ### Blanks before an exchanged text -/

/-- The character found is the same when a text behind it is exchanged. -/
theorem skipBlanks_exchange {v u k : List Char} {c : Char}
    (h : skipBlanks (v ++ k) = c :: (u ++ k)) (k' : List Char) :
    skipBlanks (v ++ k') = c :: (u ++ k') := by
  have hc := isBlank_head_skipBlanks h
  obtain ⟨b, hv, hb⟩ := exists_blanks v
  rw [skipBlanks_of_append (k := c :: u) h] at hv
  rw [hv, List.append_assoc, skipBlanks_append hb]
  exact skipBlanks_cons hc _

/-- Where the text found is exchanged, the one put there is found. -/
theorem skipBlanks_alike {n : Nat} {v k k' : List Char} (h : skipBlanks (v ++ k) = k)
    (ha : Alike (n + 1) k k') : skipBlanks (v ++ k') = k' := by
  obtain ⟨b, hv, hb⟩ := exists_blanks v
  rw [skipBlanks_of_append (k := []) h, List.append_nil] at hv
  subst hv
  rw [skipBlanks_append hb]
  cases k' with
  | nil => rfl
  | cons c r =>
      obtain ⟨r', rfl⟩ := List.head?_eq_some_iff.mp ha.head?.symm
      exact skipBlanks_cons (isBlank_head_skipBlanks h) r

/-! ### Runs -/

/-- An outcome with another text left. -/
def leaving (k : List Char) : Outcome → Outcome
  | .ok p    => .ok (p.1, k)
  | .error e => .error { e with rest := k }

/-- **A run looks at three characters of what it leaves**, at most. -/
theorem Reads.ahead {st : Stage} {s : List Char} {o : Outcome} (h : Reads extended room st s o) :
    ∀ {v k'}, s = v ++ unread o → Alike 3 (unread o) k' →
      Reads extended room st (v ++ k') (leaving k' o) := by
  -- What a part of the run leaves ends in what the whole run leaves.  So the part meets the
  -- exchanged text with some more before it, and that is alike as far (`Alike.append`).
  induction h with
  | @numeral room s k n h =>
      rintro v k' rfl ha
      obtain ⟨w, hw, -⟩ := Numeral.writes_of_scan h
      rw [hw] at h
      refine .numeral ?_
      cases w with
      | nil => exact absurd (Numeral.length_scan h) (Nat.lt_irrefl _)
      | cons c w =>
          rw [skipBlanks_exchange hw]
          exact Numeral.scan_of_alike (w := c :: w) h ha
  | @noNumeral room s hc h =>
      intro v k' hs ha
      have hk : skipBlanks (v ++ k') = k' := skipBlanks_alike (congrArg skipBlanks hs.symm) ha
      have hr := @Reads.noNumeral extended room (v ++ k')
      rw [hk] at hr
      exact hr (by rwa [ha.head?]) (Numeral.scan_eq_none_of_alike h ha)
  | tooDeep h hc hr =>
      rintro v k' rfl _
      exact .tooDeep (skipBlanks_exchange (u := []) h k') hc hr
  | inside h hc hr hi ih =>
      rintro v k' rfl ha
      obtain ⟨u, rfl⟩ := unread_suffix hi
      exact .inside (skipBlanks_exchange h k') hc hr (ih rfl ha)
  | neg h hr hi ih =>
      rintro v k' rfl ha
      obtain ⟨u, rfl⟩ := suffix_of_reads hi rfl
      exact .neg (skipBlanks_exchange h k') hr (ih rfl ha)
  | group h hr hi hclose ih =>
      rintro v k' rfl ha
      obtain ⟨y, rfl⟩ := suffix_of_skipBlanks hclose
      obtain ⟨x, rfl⟩ := suffix_of_reads hi rfl
      rw [← List.append_assoc] at h
      have hopen := skipBlanks_exchange h k'
      rw [List.append_assoc] at hopen
      exact .group hopen hr (ih rfl (ha.append y)) (skipBlanks_exchange (u := []) hclose k')
  | @unclosed room s r u t h hr hi hopen ih =>
      -- The text left begins at the character that is no parenthesis, and keeps it.
      intro v k' hs ha
      change s = v ++ skipBlanks u at hs
      change Alike 3 (skipBlanks u) k' at ha
      obtain ⟨y, hy⟩ := skipBlanks_suffix u
      obtain ⟨x, hx⟩ := suffix_of_reads hi rfl
      generalize hk : skipBlanks u = k at *
      subst hy hx hs
      rw [← List.append_assoc] at h
      have h' := skipBlanks_exchange h k'
      rw [List.append_assoc] at h'
      have hu := Reads.unclosed h' hr (ih rfl (ha.append y))
      rw [skipBlanks_alike hk ha] at hu
      refine hu fun r e => ?_
      subst e
      obtain ⟨r', rfl⟩ := List.head?_eq_some_iff.mp ha.head?.symm
      exact hopen r' rfl
  | first _ ih => exact fun hs ha => .first (ih hs ha)
  | chain hi hf ih ih' =>
      rintro v k' hs ha
      obtain ⟨y, rfl⟩ := unread_suffix hf
      obtain ⟨x, rfl⟩ := suffix_of_reads hi rfl
      rw [← List.append_assoc] at hs
      obtain rfl := List.append_cancel_right hs
      rw [List.append_assoc]
      exact .chain (ih rfl (ha.append y)) (ih' rfl ha)
  | @stop room l left s h =>
      intro v k' hs ha
      have hk : skipBlanks (v ++ k') = k' := skipBlanks_alike (congrArg skipBlanks hs.symm) ha
      have hr := @Reads.stop extended room l left (v ++ k')
      rw [hk] at hr
      exact hr (by rwa [ha.head?])
  | operand h hop hi ih =>
      rintro v k' rfl ha
      obtain ⟨u, rfl⟩ := unread_suffix hi
      exact .operand (skipBlanks_exchange h k') hop (ih rfl ha)
  | more h hop hi hf ih ih' =>
      rintro v k' rfl ha
      obtain ⟨y, rfl⟩ := unread_suffix hf
      obtain ⟨x, rfl⟩ := suffix_of_reads hi rfl
      rw [← List.append_assoc] at h
      have hk := skipBlanks_exchange h k'
      rw [List.append_assoc] at hk
      exact .more hk hop (ih rfl (ha.append y)) (ih' rfl ha)

/-! ### Parsing -/

theorem upTo_eq_iff {source source' : String} {n : Nat} :
    upTo source' n = upTo source n ↔ Alike n source.toList source'.toList := by
  rw [← String.toList_inj, toList_upTo, toList_upTo]
  rfl

theorem parsePrefix_of_ok {limit : Int} {s k : List Char} {t : Expr}
    (h : read extended limit (.level .expression) s = .ok (t, k)) :
    parsePrefix extended limit s = .ok (t, k) := by
  have hk := skipBlanks_of_reads (reads_iff.mpr h) rfl (by simp)
  rw [read] at h
  rw [parsePrefix]
  cases he : expression extended limit s with
  | error e => rw [he] at h; cases h
  | ok p => rw [he] at h; cases h; simp only [hk]

/-- Lenient parsing yields a tree, and has got to a place behind it and its blanks. -/
def ReadsUpTo (source : String) (extended : Bool) (limit : Int) (t : Expr) (p : Nat) : Prop :=
  parse source { strict := false, extended, maxDepth := limit } = .ok t ∧
    ∃ r, parsePrefix extended limit source.toList = .ok (t, r) ∧ p = source.length - r.length

theorem readsUpTo_iff {source : String} {limit : Int} {t : Expr} {p : Nat} :
    ReadsUpTo source extended limit t p ↔ ∃ k,
      read extended limit (.level .expression) source.toList = .ok (t, k) ∧
        p = source.toList.length - k.length := by
  rw [ReadsUpTo, parse]
  cases hr : read extended limit (.level .expression) source.toList with
  | error e =>
      rw [parseChars_of_error (o := { strict := false, extended, maxDepth := limit }) hr]
      simp
  | ok q =>
      rw [parseChars_of_ok (o := { strict := false, extended, maxDepth := limit }) hr,
        parsePrefix_of_ok hr]
      obtain ⟨t', k⟩ := q
      constructor
      · rintro ⟨ht, r, hr, rfl⟩
        cases ht
        cases hr
        exact ⟨_, rfl, by rw [String.length_toList]⟩
      · rintro ⟨r, hr, rfl⟩
        cases hr
        exact ⟨rfl, _, rfl, by rw [String.length_toList]⟩

/-- A text that is another one up to three characters behind what is read of it. -/
theorem read_exchange {limit : Int} {s s' : List Char} {o : Outcome}
    (h : read extended limit (.level .expression) s = o)
    (ha : Alike (s.length - (unread o).length + 3) s s') :
    ∃ k', read extended limit (.level .expression) s' = leaving k' o ∧ Alike 3 (unread o) k' ∧
      s'.length - k'.length = s.length - (unread o).length := by
  have hread := reads_iff.mpr h
  obtain ⟨v, rfl⟩ := unread_suffix hread
  rw [List.length_append, Nat.add_sub_cancel] at ha ⊢
  obtain ⟨k', rfl, hk⟩ := ha.drop
  exact ⟨k', (hread.ahead rfl hk).eq, hk, by rw [List.length_append, Nat.add_sub_cancel]⟩

/-- **Parsing looks at three characters behind the place where it ends**, at most.  A text that is
the same up to there as one with an error has an error of the same kind at the same place; one that
is the same as a text that is read up to a place is read up to there as the same tree. -/
theorem parse_lookahead (source source' : String) (o : Options) :
    (∀ e, parse source o = .error e → upTo source' (e.pos + 3) = upTo source (e.pos + 3) →
      ∃ e', parse source' o = .error e' ∧ e'.kind = e.kind ∧ e'.pos = e.pos) ∧
    ∀ t p, ReadsUpTo source o.extended o.maxDepth t p →
      upTo source' (p + 3) = upTo source (p + 3) →
        ReadsUpTo source' o.extended o.maxDepth t p := by
  constructor
  · intro e he ha
    rw [upTo_eq_iff] at ha
    rcases read_of_parse_error he with ⟨f, hf, rfl⟩ | ⟨hstrict, t, k, hr, hk, rfl⟩
    · obtain ⟨k', hr', -, hpos⟩ := read_exchange hf ha
      rw [parse, parseChars_of_error hr']
      exact ⟨_, rfl, rfl, hpos⟩
    · obtain ⟨k', hr', hk', hpos⟩ := read_exchange hr ha
      have hne : k' ≠ [] := by
        rintro rfl
        exact hk (List.head?_eq_none_iff.mp hk'.head?.symm)
      rw [parse, parseChars_of_ok hr', if_pos ⟨hstrict, hne⟩]
      exact ⟨_, rfl, rfl, hpos⟩
  · intro t p hp ha
    rw [upTo_eq_iff] at ha
    rw [readsUpTo_iff] at hp ⊢
    obtain ⟨k, hr, rfl⟩ := hp
    obtain ⟨k', hr', -, hpos⟩ := read_exchange hr ha
    exact ⟨k', hr', hpos.symm⟩

/-- After `(` the three characters `+.)` are no numeral, whatever follows them; and `2e+(` is read
as `2`, whatever follows. -/
theorem parse_lookahead_marks :
    (parse "(+.)9" {} = .error ⟨.expectedNumber, 1⟩ ∧
      upTo "(+.)((" (1 + 3) = upTo "(+.)9" (1 + 3) ∧
      ∃ e', parse "(+.)((" {} = .error e' ∧ e'.kind = .expectedNumber ∧ e'.pos = 1) ∧
    ReadsUpTo "2e+(7" true 100 two 1 ∧ upTo "2e+()" (1 + 3) = upTo "2e+(7" (1 + 3) ∧
      ReadsUpTo "2e+()" true 100 two 1 := by
  have hone : Reads true (100 - 1) (.level .expression) "+.)9".toList
      (.error ⟨.expectedNumber, "+.)9".toList, 99⟩) :=
    .first (.first (.noNumeral (by rintro _ ⟨⟩; rfl) rfl))
  have hgroup : Reads true 100 (.level .expression) "(+.)9".toList
      (.error ⟨.expectedNumber, "+.)9".toList, 99⟩) :=
    .first (.first (.inside (c := '(') rfl rfl (by decide) hone))
  have htwo : Reads true 100 (.level .expression) "2e+(7".toList (.ok (two, "e+(7".toList)) :=
    Reads.lone (k := "e+(7".toList) (.numeral rfl) (by rintro (_ | _) _ ⟨⟩ <;> rfl)
  have herror : parse "(+.)9" {} = .error ⟨.expectedNumber, 1⟩ := by
    rw [parse, parseChars_of_error (o := {}) hgroup.eq]
    rfl
  have hsame : upTo "(+.)((" (1 + 3) = upTo "(+.)9" (1 + 3) := rfl
  have hsame' : upTo "2e+()" (1 + 3) = upTo "2e+(7" (1 + 3) := rfl
  have hreads : ReadsUpTo "2e+(7" true 100 two 1 := readsUpTo_iff.mpr ⟨_, htwo.eq, rfl⟩
  exact ⟨⟨herror, hsame, (parse_lookahead "(+.)9" "(+.)((" {}).1 _ herror hsame⟩, hreads, hsame',
    (parse_lookahead "2e+(7" "2e+()" {}).2 two 1 hreads hsame'⟩

end Abacus.Grammar
