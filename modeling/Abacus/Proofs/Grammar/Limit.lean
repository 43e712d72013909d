import Abacus.Proofs.Grammar.Prefix
import Mathlib.Order.Nat

/-!
# Grammar — the limit on nesting

A limit ends a reading early and changes nothing else about it.

* `Reads.widen`: with more room a run goes the same way, unless it stopped for want of room.
* `unread_of_tooDeep`: a run that stopped for want of room gets at least as far with more of it.
* `room_lt_of_tooDeep`: a text must be longer than the room there is to use it up.
* `parse_limit`: there is a least limit that is enough for a text; from there on all limits give
  the same result, and below it a nesting error stands no further on the lower the limit is.
* `outcome_limit`: so it is with what is raised, except that a limit that cannot be written is
  refused where there would be a nesting error.

Limits below zero are no different from zero, as far as they can be written: what is not nested is
read under each of them.
-/

namespace Abacus.Grammar
open Text

variable {extended : Bool} {room : Int}

/-! ### Runs with more room -/

/-- A run that stopped for want of room. -/
def IsTooDeep : Outcome → Prop
  | .ok _    => False
  | .error e => e.reason = .tooDeep

/-- An outcome with `d` more room left where the run stopped. -/
def widen (d : Int) : Outcome → Outcome
  | .ok p    => .ok p
  | .error e => .error { e with room := e.room + d }

theorem unread_widen (d : Int) (o : Outcome) : unread (widen d o) = unread o := by
  cases o <;> rfl

theorem isTooDeep_widen {d : Int} {o : Outcome} : IsTooDeep (widen d o) ↔ IsTooDeep o := by
  cases o <;> exact Iff.rfl

/-- A run goes the same way with more room, unless there was too little of it and now is some. -/
theorem Reads.widen {st : Stage} {s : List Char} {o : Outcome} (h : Reads extended room st s o) :
    ∀ {d : Int}, 0 ≤ d → (IsTooDeep o → room + d ≤ 0) →
      Reads extended (room + d) st s (widen d o) := by
  have comm : ∀ room d : Int, room + d - 1 = room - 1 + d := fun _ _ => by omega
  induction h with
  | numeral h => exact fun _ _ => .numeral h
  | noNumeral hc h => exact fun _ _ => .noNumeral hc h
  | @tooDeep room s r c st h hc hr =>
      intro d _ hdeep
      have hw : Reads extended (room + d) .primary s _ := .tooDeep h hc (hdeep rfl)
      rwa [comm] at hw
  | @inside room s r c st e h hc hr _ ih =>
      intro d hd hdeep
      refine .inside h hc (by omega) ?_
      rw [comm]
      exact ih hd fun ht => by have := hdeep ht; omega
  | @neg room s r k t h hr _ ih =>
      intro d hd _
      refine .neg h (by omega) ?_
      rw [comm]
      exact ih hd nofun
  | @group room s r u k t h hr _ hk ih =>
      intro d hd _
      refine .group h (by omega) ?_ hk
      rw [comm]
      exact ih hd nofun
  | @unclosed room s r u t h hr hi hk ih =>
      intro d hd _
      have hi := ih hd nofun
      rw [← comm] at hi
      have hw := Reads.unclosed h (by omega) hi hk
      rwa [comm] at hw
  | first _ ih => exact fun hd hdeep => .first (ih hd hdeep)
  | chain _ _ ih ih' => exact fun hd hdeep => .chain (ih hd nofun) (ih' hd hdeep)
  | stop h => exact fun _ _ => .stop h
  | operand h hop _ ih => exact fun hd hdeep => .operand h hop (ih hd hdeep)
  | more h hop _ _ ih ih' => exact fun hd hdeep => .more h hop (ih hd nofun) (ih' hd hdeep)

theorem Reads.functional {st : Stage} {s : List Char} {o o' : Outcome}
    (h : Reads extended room st s o) (h' : Reads extended room st s o') : o = o' :=
  h.eq.symm.trans h'.eq

/-! ### Behind a nesting error -/

/-- Where a nesting opens, a run stops for want of room or goes on inside. -/
theorem reads_opening {s r : List Char} {c : Char} {st : Stage} {o : Outcome}
    (h : Reads extended room .primary s o) (hs : skipBlanks s = c :: r)
    (hc : inside? c = some st) :
    room ≤ 0 ∧ unread o = r ∨
      0 < room ∧ ∃ o', Reads extended (room - 1) st r o' ∧ unread o <:+ unread o' := by
  cases h with
  | numeral hn =>
      rw [hs] at hn
      rw [inside?_of_scan hn] at hc
      cases hc
  | noNumeral hno _ =>
      rw [hs] at hno
      rw [hno c rfl] at hc
      cases hc
  | tooDeep hs' _ hr =>
      rw [hs] at hs'
      cases hs'
      exact .inl ⟨hr, rfl⟩
  | inside hs' hc' hr hi =>
      rw [hs] at hs'
      cases hs'
      rw [hc] at hc'
      cases hc'
      exact .inr ⟨hr, _, hi, List.suffix_refl _⟩
  | neg hs' hr hi =>
      rw [hs] at hs'
      cases hs'
      cases hc
      exact .inr ⟨hr, _, hi, List.suffix_refl _⟩
  | group hs' hr hi hk =>
      rw [hs] at hs'
      cases hs'
      cases hc
      exact .inr ⟨hr, _, hi, suffix_of_skipBlanks hk⟩
  | unclosed hs' hr hi hk =>
      rw [hs] at hs'
      cases hs'
      cases hc
      exact .inr ⟨hr, _, hi, skipBlanks_suffix _⟩

/-- Behind an operator, a run stops at the operand or goes on with it. -/
theorem reads_behind_operator {l : Level} {left : Expr} {s r : List Char} {c : Char} {op : Op}
    {o : Outcome} (h : Reads extended room (.further l left) s o) (hs : skipBlanks s = c :: r)
    (hop : l.operator extended c = some op) :
    (∃ e, o = .error e ∧ Reads extended room l.operand r (.error e)) ∨
      ∃ t k, Reads extended room l.operand r (.ok (t, k)) ∧
        Reads extended room (.further l (.binary op left t)) k o := by
  cases h with
  | stop hno =>
      rw [hs] at hno
      rw [hno c rfl] at hop
      cases hop
  | operand hs' _ hi =>
      rw [hs] at hs'
      cases hs'
      exact .inl ⟨_, rfl, hi⟩
  | more hs' hop' hi hf =>
      rw [hs] at hs'
      cases hs'
      rw [hop] at hop'
      cases hop'
      exact .inr ⟨_, _, hi, hf⟩

/-- A run that stopped for want of room gets at least as far with more of it. -/
theorem unread_of_tooDeep {st : Stage} {s : List Char} {o : Outcome}
    (h : Reads extended room st s o) :
    ∀ {d : Int} {o' : Outcome}, IsTooDeep o → 0 ≤ d → Reads extended (room + d) st s o' →
      unread o' <:+ unread o := by
  induction h with
  | numeral | neg | group | stop => exact fun h => h.elim
  | noNumeral | unclosed => rintro _ _ ⟨⟩
  | tooDeep hs hc hr =>
      intro d o' _ _ h'
      rcases reads_opening h' hs hc with ⟨-, hu⟩ | ⟨-, o₁, h₁, hu⟩
      · exact hu ▸ List.suffix_refl _
      · exact hu.trans (unread_suffix h₁)
  | @inside room s r c st e hs hc hr _ ih =>
      intro d o' hdeep hd h'
      rcases reads_opening h' hs hc with ⟨h0, -⟩ | ⟨-, o₁, h₁, hu⟩
      · omega
      · rw [show room + d - 1 = room - 1 + d by omega] at h₁
        exact hu.trans (ih hdeep hd h₁)
  | first _ ih =>
      intro d o' hdeep hd h'
      cases h' with
      | first h₁ => exact ih hdeep hd h₁
      | chain h₁ h₂ => exact (unread_suffix h₂).trans (ih hdeep hd h₁)
  | chain hi _ _ ih =>
      -- the first operand is read again, so the runs part behind it
      intro d o' hdeep hd h'
      have hi' := hi.widen hd nofun
      cases h' with
      | first h₁ => cases hi'.functional h₁
      | chain h₁ h₂ =>
          cases hi'.functional h₁
          exact ih hdeep hd h₂
  | operand hs hop _ ih =>
      intro d o' hdeep hd h'
      rcases reads_behind_operator h' hs hop with ⟨_, rfl, h₁⟩ | ⟨_, _, h₁, h₂⟩
      · exact ih hdeep hd h₁
      · exact (unread_suffix h₂).trans (ih hdeep hd h₁)
  | more hs hop hi _ _ ih =>
      intro d o' hdeep hd h'
      have hi' := hi.widen hd nofun
      rcases reads_behind_operator h' hs hop with ⟨_, rfl, h₁⟩ | ⟨_, _, h₁, h₂⟩
      · cases hi'.functional h₁
      · cases hi'.functional h₁
        exact ih hdeep hd h₂

/-- Each opening takes a character, so a text that is too deep is longer than its room. -/
theorem room_lt_of_tooDeep {st : Stage} {s : List Char} {o : Outcome}
    (h : Reads extended room st s o) : IsTooDeep o → room < s.length := by
  induction h with
  | numeral | neg | group | stop => exact fun h => h.elim
  | noNumeral | unclosed => rintro ⟨⟩
  | tooDeep hs _ _ =>
      intro _
      have := length_lt_of_skipBlanks hs
      omega
  | inside hs _ _ _ ih =>
      intro hdeep
      have := ih hdeep
      have := length_lt_of_skipBlanks hs
      omega
  | first _ ih => exact ih
  | chain hi _ _ ih =>
      intro hdeep
      have := ih hdeep
      have := (suffix_of_reads hi rfl).length_le
      omega
  | operand hs _ _ ih =>
      intro hdeep
      have := ih hdeep
      have := length_lt_of_skipBlanks hs
      omega
  | more hs _ hi _ _ ih =>
      intro hdeep
      have := ih hdeep
      have := (suffix_of_reads hi rfl).length_le
      have := length_lt_of_skipBlanks hs
      omega

/-! ### Parsing under two limits -/

/-- What is read from a text under a limit that is at least as wide. -/
theorem read_widen {m m' : Int} {st : Stage} {s : List Char} (hm : m ≤ m')
    (h : IsTooDeep (read extended m st s) → m' ≤ 0) :
    read extended m' st s = widen (m' - m) (read extended m st s) := by
  have hw := (reads_read extended m st s).widen (d := m' - m) (by omega) fun hd => by
    have := h hd
    omega
  rw [show m + (m' - m) = m' by omega] at hw
  exact hw.eq

/-- Parsing a text within `m` levels ends in a nesting error at `p`. -/
def TooDeepAt (source : String) (strict extended : Bool) (m : Int) (p : Nat) : Prop :=
  ∃ e, parse source { strict, extended, maxDepth := m } = .error e ∧
    e.kind = .nestingTooDeep ∧ e.pos = p

/-- The place of an error is where the unread text begins. -/
theorem pos_of_parse_error {source : String} {o : Options} {e : ParseError}
    (h : parse source o = .error e) : e.pos = source.toList.length -
      (unread (read o.extended o.maxDepth (.level .expression) source.toList)).length := by
  rcases read_of_parse_error h with ⟨f, hf, rfl⟩ | ⟨-, t, k, hr, -, rfl⟩
  · rw [hf, unread]
  · rw [hr, unread]

theorem tooDeepAt_iff {source : String} {strict extended : Bool} {m : Int} {p : Nat} :
    TooDeepAt source strict extended m p ↔
      IsTooDeep (read extended m (.level .expression) source.toList) ∧
        p = source.toList.length -
          (unread (read extended m (.level .expression) source.toList)).length := by
  constructor
  · rintro ⟨e, he, hkind, rfl⟩
    refine ⟨?_, pos_of_parse_error he⟩
    rcases read_of_parse_error he with ⟨f, hf, rfl⟩ | ⟨-, t, k, -, -, rfl⟩
    · rw [hf]
      exact Cause.kind_ofReason.mp hkind
    · cases hkind
  · rintro ⟨hdeep, hp⟩
    cases hr : read extended m (.level .expression) source.toList with
    | ok q => rw [hr] at hdeep; exact hdeep.elim
    | error f =>
        rw [hr] at hdeep hp
        have he := parseChars_of_error (o := { strict, extended, maxDepth := m }) hr
        have hreason : f.reason = .tooDeep := hdeep
        rw [hreason] at he
        exact ⟨_, he, rfl, hp.symm⟩

/-- A wider limit changes nothing where the reading had room enough. -/
theorem parse_widen {source : String} {strict extended : Bool} {m m' : Int} (hm : m ≤ m')
    (h : ¬ IsTooDeep (read extended m (.level .expression) source.toList)) :
    parse source { strict, extended, maxDepth := m' } =
      parse source { strict, extended, maxDepth := m } := by
  have hw := read_widen hm fun hd => (h hd).elim
  unfold parse
  cases hr : read extended m (.level .expression) source.toList with
  | ok p =>
      rw [hr] at hw
      rw [parseChars_of_ok (o := { strict, extended, maxDepth := m }) hr,
        parseChars_of_ok (o := { strict, extended, maxDepth := m' }) hw]
  | error e =>
      rw [hr] at hw h
      rw [parseChars_of_error (o := { strict, extended, maxDepth := m }) hr,
        parseChars_of_error (o := { strict, extended, maxDepth := m' }) hw]
      cases he : e.reason with
      | tooDeep => exact (h he).elim
      | expectedNumber | expectedCloseParen => rfl

/-- What holds of every lesser number and fails at `n` holds below some bound. -/
theorem exists_bound {p : Nat → Prop} {n : Nat} (hp : ∀ {m m'}, m ≤ m' → p m' → p m)
    (hn : ¬ p n) : ∃ d ≤ n, ∀ m, p m ↔ m < d := by
  classical
  have hfail : ∃ m, ¬ p m := ⟨n, hn⟩
  refine ⟨Nat.find hfail, Nat.find_min' hfail hn, fun m => ⟨fun hm => ?_, fun hm => ?_⟩⟩
  · exact Nat.lt_of_not_le fun hle => Nat.find_spec hfail (hp hle hm)
  · exact not_not.mp (Nat.find_min hfail hm)

/-- A lesser limit stops no further on. -/
theorem tooDeepAt_of_le {source : String} {strict extended : Bool} {m₀ m : Int} {p : Nat}
    (hm : m₀ ≤ m) (h : TooDeepAt source strict extended m p) :
    ∃ p₀ ≤ p, TooDeepAt source strict extended m₀ p₀ := by
  obtain ⟨hdeep, rfl⟩ := tooDeepAt_iff.mp h
  have hdeep₀ : IsTooDeep (read extended m₀ (.level .expression) source.toList) := by
    by_contra hno
    rw [read_widen hm fun hd => (hno hd).elim, isTooDeep_widen] at hdeep
    exact hno hdeep
  refine ⟨_, ?_, tooDeepAt_iff.mpr ⟨hdeep₀, rfl⟩⟩
  have hle := (unread_of_tooDeep (d := m - m₀) (reads_read ..) hdeep₀ (by omega)
    (reads_read ..)).length_le
  rw [show m₀ + (m - m₀) = m by omega] at hle
  omega

/-- A wider limit leads to no earlier error. -/
theorem le_pos_of_tooDeepAt {source : String} {strict extended : Bool} {m m' : Int} {p : Nat}
    {e : ParseError} (hm : m ≤ m') (h : TooDeepAt source strict extended m p)
    (he : parse source { strict, extended, maxDepth := m' } = .error e) : p ≤ e.pos := by
  obtain ⟨hdeep, rfl⟩ := tooDeepAt_iff.mp h
  have hle := (unread_of_tooDeep (d := m' - m) (reads_read ..) hdeep (by omega)
    (reads_read ..)).length_le
  rw [show m + (m' - m) = m' by omega] at hle
  exact (pos_of_parse_error he).symm ▸ Nat.sub_le_sub_left hle _

/-- A limit below zero is no different from zero. -/
theorem tooDeepAt_toNat {source : String} {strict extended : Bool} {m : Int} {p : Nat} :
    TooDeepAt source strict extended m p ↔ TooDeepAt source strict extended m.toNat p := by
  rw [tooDeepAt_iff, tooDeepAt_iff]
  by_cases hm : 0 ≤ m
  · rw [Int.toNat_of_nonneg hm]
  · have h0 : m.toNat = 0 := by omega
    have hle : m ≤ (0 : Nat) := by omega
    rw [h0, read_widen hle fun _ => Int.le_refl 0, isTooDeep_widen, unread_widen]

/-- **Raising the limit only turns a nesting error into what lies behind it.**
* There is a least limit that is enough: below it, and below it only, the nesting is too deep.  No
  text needs a limit greater than its length.
* Where a limit is enough, every wider one gives the same outcome.
* Where it is not, every lesser one ends in a nesting error that stands no further on, and no wider
  one in an error further in front. -/
theorem parse_limit (source : String) (strict extended : Bool) :
    (∃ d ≤ source.length, ∀ m : Int,
      (∃ p, TooDeepAt source strict extended m p) ↔ m.toNat < d) ∧
    ∀ m m' : Int, m ≤ m' →
      ((¬ ∃ p, TooDeepAt source strict extended m p) →
        parse source { strict, extended, maxDepth := m' } =
          parse source { strict, extended, maxDepth := m }) ∧
      ∀ p, TooDeepAt source strict extended m p →
        (∀ m₀ ≤ m, ∃ p₀ ≤ p, TooDeepAt source strict extended m₀ p₀) ∧
        ∀ e, parse source { strict, extended, maxDepth := m' } = .error e → p ≤ e.pos := by
  refine ⟨?_, fun m m' hm => ⟨fun hno => parse_widen hm fun hdeep => ?_, fun p h => ⟨?_, ?_⟩⟩⟩
  · have hdown : ∀ {m m' : Nat}, m ≤ m' → (∃ p, TooDeepAt source strict extended m' p) →
        ∃ p, TooDeepAt source strict extended m p := by
      rintro m m' hm ⟨p, hp⟩
      obtain ⟨p₀, -, h₀⟩ := tooDeepAt_of_le (Int.ofNat_le.mpr hm) hp
      exact ⟨p₀, h₀⟩
    have henough : ¬ ∃ p, TooDeepAt source strict extended source.length p := by
      rintro ⟨p, hp⟩
      have := room_lt_of_tooDeep (reads_read ..) (tooDeepAt_iff.mp hp).1
      rw [String.length_toList] at this
      omega
    obtain ⟨d, hd, hiff⟩ := exists_bound hdown henough
    exact ⟨d, hd, fun m => by rw [← hiff]; exact exists_congr fun _ => tooDeepAt_toNat⟩
  · exact hno ⟨_, tooDeepAt_iff.mpr ⟨hdeep, rfl⟩⟩
  · exact fun m₀ hm₀ => tooDeepAt_of_le hm₀ h
  · exact fun e he => le_pos_of_tooDeepAt hm h he

/-! ### What is raised -/

/-- A text parses, or its error is raised, or it is a nesting error and its limit is looked at. -/
theorem outcome_cases (source : String) (o : Options) :
    (∃ t, parse source o = .ok t ∧ outcome source o = .ok t) ∨
    (∃ e, parse source o = .error e ∧ e.kind ≠ .nestingTooDeep ∧
      outcome source o = .error (.error e)) ∨
    ∃ p, parse source o = .error ⟨.tooDeep o.maxDepth, p⟩ ∧
      outcome source o = .error (if Data.Writable o.maxDepth then .error ⟨.tooDeep o.maxDepth, p⟩
        else .overlong o.maxDepth) := by
  rw [outcome]
  cases h : parse source o with
  | ok t => exact .inl ⟨t, rfl, rfl⟩
  | error e =>
      rcases read_of_parse_error h with ⟨⟨reason, r, room⟩, -, rfl⟩ | ⟨-, t, k, -, -, rfl⟩
      · cases reason with
        | tooDeep => exact .inr (.inr ⟨_, rfl, rfl⟩)
        | expectedNumber | expectedCloseParen =>
            exact .inr (.inl ⟨_, rfl, (fun hkind => by cases hkind), rfl⟩)
      · exact .inr (.inl ⟨_, rfl, (fun hkind => by cases hkind), rfl⟩)

/-- What is raised is an error of parsing, or the refusal of the limit to parse by. -/
theorem raised_of_outcome {source : String} {o : Options} {r : Raised}
    (h : outcome source o = .error r) :
    (∃ e, r = .error e ∧ parse source o = .error e) ∨ r = .overlong o.maxDepth := by
  rcases outcome_cases source o with ⟨t, -, ho⟩ | ⟨e, he, -, ho⟩ | ⟨p, hp, ho⟩
  · rw [ho] at h
    cases h
  · rw [ho] at h
    cases h
    exact .inl ⟨e, rfl, he⟩
  · rw [ho] at h
    cases h
    by_cases hw : Data.Writable o.maxDepth
    · rw [if_pos hw]
      exact .inl ⟨_, rfl, hp⟩
    · rw [if_neg hw]
      exact .inr rfl

theorem parse_of_outcome_error {source : String} {o : Options} {e : ParseError}
    (h : outcome source o = .error (.error e)) : parse source o = .error e := by
  rcases raised_of_outcome h with ⟨f, hf, he⟩ | hf
  · cases hf
    exact he
  · cases hf

/-- Parsing a text within `m` levels raises a nesting error at `p`. -/
def RaisesTooDeepAt (source : String) (strict extended : Bool) (m : Int) (p : Nat) : Prop :=
  ∃ e, outcome source { strict, extended, maxDepth := m } = .error (.error e) ∧
    e.kind = .nestingTooDeep ∧ e.pos = p

/-- Parsing a text within `m` levels raises the refusal to write `m`. -/
def RaisesOverlong (source : String) (strict extended : Bool) (m : Int) : Prop :=
  outcome source { strict, extended, maxDepth := m } = .error (.overlong m)

theorem raisesTooDeepAt_iff {source : String} {strict extended : Bool} {m : Int} {p : Nat} :
    RaisesTooDeepAt source strict extended m p ↔
      Data.Writable m ∧ TooDeepAt source strict extended m p := by
  rcases outcome_cases source { strict, extended, maxDepth := m } with
    ⟨t, ht, ho⟩ | ⟨e, he, hkind, ho⟩ | ⟨q, hq, ho⟩
  · simp [RaisesTooDeepAt, TooDeepAt, ht, ho]
  · simp [RaisesTooDeepAt, TooDeepAt, he, ho, hkind]
  · by_cases hw : Data.Writable m
    · simp [RaisesTooDeepAt, TooDeepAt, hq, ho, hw]
    · simp [RaisesTooDeepAt, ho, hw]

theorem raisesOverlong_iff {source : String} {strict extended : Bool} {m : Int} :
    RaisesOverlong source strict extended m ↔
      ¬ Data.Writable m ∧ ∃ p, TooDeepAt source strict extended m p := by
  rcases outcome_cases source { strict, extended, maxDepth := m } with
    ⟨t, ht, ho⟩ | ⟨e, he, hkind, ho⟩ | ⟨q, hq, ho⟩
  · simp [RaisesOverlong, TooDeepAt, ht, ho]
  · simp [RaisesOverlong, TooDeepAt, he, ho, hkind]
  · have hdeep : TooDeepAt source strict extended m q := ⟨_, hq, rfl, rfl⟩
    by_cases hw : Data.Writable m
    · simp [RaisesOverlong, ho, hw]
    · simpa [RaisesOverlong, ho, hw] using ⟨q, hdeep⟩

/-- **Raising the limit only turns a nesting error into what lies behind it**, as far as limits can
be written.
* There is a least limit that is enough: below it, and below it only, there is a nesting error or
  the limit is refused.  A limit is refused only where it cannot be written.
* Where a limit is enough, what comes of every wider one is the same.
* Where it leads to a nesting error, every lesser one leads to a nesting error that stands no
  further on, or is refused if it cannot be written; and no wider one leads to an error further in
  front. -/
theorem outcome_limit (source : String) (strict extended : Bool) :
    (∃ d ≤ source.length, ∀ m : Int,
      (∃ p, RaisesTooDeepAt source strict extended m p) ∨ RaisesOverlong source strict extended m ↔
        m.toNat < d) ∧
    (∀ m, RaisesOverlong source strict extended m → ¬ Data.Writable m) ∧
    ∀ m m' : Int, m ≤ m' →
      ((¬ ∃ p, RaisesTooDeepAt source strict extended m p) →
        ¬ RaisesOverlong source strict extended m →
          outcome source { strict, extended, maxDepth := m' } =
            outcome source { strict, extended, maxDepth := m }) ∧
      ∀ p, RaisesTooDeepAt source strict extended m p →
        (∀ m₀ ≤ m, if Data.Writable m₀ then ∃ p₀ ≤ p, RaisesTooDeepAt source strict extended m₀ p₀
          else RaisesOverlong source strict extended m₀) ∧
        ∀ e, outcome source { strict, extended, maxDepth := m' } = .error (.error e) →
          p ≤ e.pos := by
  obtain ⟨⟨d, hd, henough⟩, hlimit⟩ := parse_limit source strict extended
  have hraises (m : Int) : (∃ p, RaisesTooDeepAt source strict extended m p) ∨
      RaisesOverlong source strict extended m ↔ ∃ p, TooDeepAt source strict extended m p := by
    simp only [raisesTooDeepAt_iff, raisesOverlong_iff]
    by_cases hw : Data.Writable m <;> simp [hw]
  refine ⟨⟨d, hd, fun m => (hraises m).trans (henough m)⟩,
    fun m h => (raisesOverlong_iff.mp h).1, fun m m' hm => ⟨fun hno hnot => ?_, fun p hp => ?_⟩⟩
  · have hfits : ¬ ∃ p, TooDeepAt source strict extended m p := fun h =>
      ((hraises m).mpr h).elim hno hnot
    rw [outcome, outcome, (hlimit m m' hm).1 hfits]
  · obtain ⟨hlesser, hwider⟩ := (hlimit m m' hm).2 p (raisesTooDeepAt_iff.mp hp).2
    refine ⟨fun m₀ hm₀ => ?_, fun e he => ?_⟩
    · obtain ⟨p₀, hp₀, hdeep⟩ := hlesser m₀ hm₀
      by_cases hw : Data.Writable m₀
      · rw [if_pos hw]
        exact ⟨p₀, hp₀, raisesTooDeepAt_iff.mpr ⟨hw, hdeep⟩⟩
      · rw [if_neg hw]
        exact raisesOverlong_iff.mpr ⟨hw, p₀, hdeep⟩
    · exact hwider e (parse_of_outcome_error he)

/-- Two levels are enough for `((1`, which lacks a parenthesis whatever more there are; within one
level the second parenthesis is too deep. -/
theorem outcome_limit_groups :
    ((2 : Int) ≤ 5 ∧ (¬ ∃ p, RaisesTooDeepAt "((1" false true 2 p) ∧
      ¬ RaisesOverlong "((1" false true 2 ∧
      outcome "((1" { strict := false, extended := true, maxDepth := 5 } =
        outcome "((1" { strict := false, extended := true, maxDepth := 2 }) ∧
    ((1 : Int) ≤ 2 ∧ RaisesTooDeepAt "((1" false true 1 2 ∧
      ((-1 : Int) ≤ 1 ∧ Data.Writable (-1) ∧ ∃ p₀ ≤ 2, RaisesTooDeepAt "((1" false true (-1) p₀) ∧
      outcome "((1" { strict := false, extended := true, maxDepth := 2 } =
        .error (.error ⟨.expectedCloseParen, 3⟩) ∧
      2 ≤ (⟨.expectedCloseParen, 3⟩ : ParseError).pos) := by
  have hone : Reads true (2 - 1 - 1) (.level .expression) ['1']
      (.ok (.const (Numeral.value ⟨[1], [], 0⟩), [])) :=
    Reads.lone (k := []) (.numeral rfl) (by simp [skipBlanks])
  have hopen : Reads true 2 (.level .expression) "((1".toList
      (.error ⟨.expectedCloseParen, [], 0⟩) := by
    refine .first (.first (.inside rfl rfl (by decide) (.first (.first ?_))))
    exact .unclosed (r := ['1']) (u := []) rfl (by decide) hone (by simp [skipBlanks])
  have hdeep : Reads true 1 (.level .expression) "((1".toList
      (.error ⟨.tooDeep, ['1'], -1⟩) :=
    .first (.first (.inside rfl rfl (by decide) (.first (.first (.tooDeep rfl rfl (by decide))))))
  have herror : outcome "((1" { strict := false, extended := true, maxDepth := 2 } =
      .error (.error ⟨.expectedCloseParen, 3⟩) := by
    rw [outcome, parse, parseChars_of_error (o := { strict := false, maxDepth := 2 }) hopen.eq]
    rfl
  have henough : ¬ ∃ p, RaisesTooDeepAt "((1" false true 2 p := by
    rintro ⟨p, e, he, hkind, -⟩
    rw [herror] at he
    cases he
    exact absurd hkind (by decide)
  have hwritten : ¬ RaisesOverlong "((1" false true 2 := by
    rw [RaisesOverlong, herror]
    intro h
    cases h
  have hless : Data.Writable (-1) := Data.writable_of_lt_ten (by decide)
  have hnot : RaisesTooDeepAt "((1" false true 1 2 := by
    refine raisesTooDeepAt_iff.mpr ⟨Data.writable_of_lt_ten (by decide), ?_⟩
    rw [tooDeepAt_iff, hdeep.eq]
    exact ⟨rfl, rfl⟩
  obtain ⟨-, -, hlimit⟩ := outcome_limit "((1" false true
  obtain ⟨hlesser, hwider⟩ := (hlimit 1 2 (by decide)).2 2 hnot
  have hleast := hlesser (-1) (by decide)
  rw [if_pos hless] at hleast
  exact ⟨⟨by decide, henough, hwritten, (hlimit 2 5 (by decide)).1 henough hwritten⟩, by decide,
    hnot, ⟨by decide, hless, hleast⟩, herror, hwider _ herror⟩

/-- **A limit that is refused.**  Within no level the parenthesis of `(1)` is too deep.  Under the
next limit below the least that can be written, what is raised is no nesting error, and so it is not
what is raised within no level. -/
theorem outcome_limit_overlong :
    let m := Data.leastWritable - 1
    m ≤ 0 ∧ (¬ ∃ p, RaisesTooDeepAt "(1)" false true m p) ∧
      outcome "(1)" { strict := false, extended := true, maxDepth := 0 } ≠
        outcome "(1)" { strict := false, extended := true, maxDepth := m } ∧
      RaisesTooDeepAt "(1)" false true 0 1 := by
  intro m
  have hm : m ≤ 0 := by
    change Data.leastWritable - 1 ≤ 0
    rw [Data.leastWritable]
    omega
  have hzero : RaisesTooDeepAt "(1)" false true 0 1 := by
    refine raisesTooDeepAt_iff.mpr ⟨Data.writable_of_lt_ten (by decide), ?_⟩
    have hdeep : Reads true 0 (.level .expression) "(1)".toList
        (.error ⟨.tooDeep, "1)".toList, -1⟩) :=
      .first (.first (.tooDeep (c := '(') rfl rfl (by decide)))
    rw [tooDeepAt_iff, hdeep.eq]
    exact ⟨rfl, rfl⟩
  have hnone : ¬ ∃ p, RaisesTooDeepAt "(1)" false true m p := by
    rintro ⟨p, hp⟩
    exact Data.not_writable_pred (raisesTooDeepAt_iff.mp hp).1
  refine ⟨hm, hnone, fun h => ?_, hzero⟩
  obtain ⟨e, he, hkind, hpos⟩ := hzero
  exact hnone ⟨1, e, h ▸ he, hkind, hpos⟩

end Abacus.Grammar
