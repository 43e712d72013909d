import Abacus.Toml.Document

/-!
# Toml — what readers leave

Every reader takes the front of its text and leaves an end of it (`Leaves`).  The one fault that
is not the form of a text is a whole number with too many digits; it is found where those digits
stand (`Fault.Within`), and so they stand in the text of the whole document.

* `parse_oversized`: a document refused for the size of a number has a row of that many digits.

The lemmas follow the readers, from blanks and strings to statements.  Every one of them is the
reader's own combination of the readers under it, by `Leaves.bind` or `Sound.bind`.
-/

namespace Abacus.Toml
open Data

variable {α β : Type} {s r : List Char}

/-! ### Readers of the form of a text -/

/-- What is read leaves an end of a text. -/
def Leaves (s : List Char) (x : Option (α × List Char)) : Prop := ∀ p, x = some p → p.2 <:+ s

namespace Leaves

theorem none : Leaves s (Option.none : Option (α × List Char)) := nofun

theorem some {p : α × List Char} (h : p.2 <:+ s) : Leaves s (Option.some p) := by
  rintro _ ⟨⟩
  exact h

theorem mono {x : Option (α × List Char)} (hx : Leaves r x) (hr : r <:+ s) : Leaves s x :=
  fun p hp => (hx p hp).trans hr

theorem bind {x : Option (α × List Char)} {f : α × List Char → Option (β × List Char)}
    (hx : Leaves s x) (hf : ∀ a r, r <:+ s → Leaves s (f (a, r))) : Leaves s (x.bind f) := by
  intro q hq
  obtain ⟨⟨a, r⟩, hp, hq⟩ := Option.bind_eq_some_iff.mp hq
  exact hf a r (hx _ hp) q hq

/-- A value that is not read, but depends on what was, leaves the text as it is. -/
theorem bindValue {x : Option α} {f : α → Option (β × List Char)} (hf : ∀ a, Leaves s (f a)) :
    Leaves s (x.bind f) := by
  intro q hq
  obtain ⟨a, -, hq⟩ := Option.bind_eq_some_iff.mp hq
  exact hf a q hq

theorem map {x : Option (α × List Char)} {f : α × List Char → β} (hx : Leaves s x) :
    Leaves s (x.map fun p => (f p, p.2)) := by
  intro q hq
  obtain ⟨p, hp, rfl⟩ := Option.map_eq_some_iff.mp hq
  exact hx p hp

theorem ite {c : Prop} [Decidable c] {x y : Option (α × List Char)} (hx : Leaves s x)
    (hy : Leaves s y) : Leaves s (if c then x else y) := by
  split
  · exact hx
  · exact hy

end Leaves

theorem bind_suffix {x : Option (List Char)} {f : List Char → Option (β × List Char)}
    (hx : ∀ r, x = some r → r <:+ s) (hf : ∀ r, r <:+ s → Leaves s (f r)) :
    Leaves s (x.bind f) := by
  intro q hq
  obtain ⟨r, hr, hq⟩ := Option.bind_eq_some_iff.mp hq
  exact hf r (hx r hr) q hq

theorem skipSpaces_suffix (s : List Char) : skipSpaces s <:+ s := List.dropWhile_suffix _

theorem skipLines_suffix (s : List Char) : skipLines s <:+ s := List.dropWhile_suffix _

theorem skipComment_suffix (h : skipComment s = some r) : r <:+ s := by
  unfold skipComment at h
  split at h
  · split at h
    · cases h
    · cases h
      exact (List.dropWhile_suffix _).trans (List.suffix_cons _ _)
  · cases h
    exact List.suffix_refl _

theorem skipGaps_suffix {fuel : Nat} : ∀ {s}, skipGaps fuel s = some r → r <:+ s := by
  induction fuel with
  | zero => rintro s ⟨⟩; exact List.suffix_refl _
  | succ fuel ih =>
      intro s h
      rw [skipGaps] at h
      split at h
      · next hs =>
          obtain ⟨u, hu, h⟩ := Option.bind_eq_some_iff.mp h
          exact ((ih h).trans (skipComment_suffix hu)).trans (hs ▸ skipLines_suffix s)
      · cases h
        exact skipLines_suffix s

theorem skipChar_suffix {c : Char} (h : skipChar c s = some r) : r <:+ s := by
  cases s with
  | nil => cases h
  | cons d s =>
      rw [skipChar] at h
      split at h
      · cases h
        exact List.suffix_cons _ _
      · cases h

/-! ### Strings and keys -/

theorem leaves_codePoint (n : Nat) (s : List Char) : Leaves s (codePoint n s) := by
  refine .bindValue fun ds => .ite (.some (List.drop_suffix _ _)) .none

theorem leaves_escape (lines : Bool) (s : List Char) : Leaves s (escape lines s) := by
  unfold escape
  split
  · exact ((leaves_codePoint _ _).mono (List.suffix_cons _ _)).map
  · exact ((leaves_codePoint _ _).mono (List.suffix_cons _ _)).map
  · split
    · split
      · next r hr =>
          exact .some (((skipLines_suffix r).trans (List.suffix_cons _ _)).trans
            (hr ▸ skipSpaces_suffix _))
      · exact .none
    · intro p hp
      obtain ⟨d, -, rfl⟩ := Option.map_eq_some_iff.mp hp
      exact List.suffix_cons _ _
  · exact .none

theorem leaves_basicInside (lines : Bool) (fuel : Nat) (s : List Char) :
    Leaves s (basicInside lines fuel s) := by
  fun_induction basicInside lines fuel s with
  | case1 | case2 | case7 => exact .none
  | case3 fuel r ih =>
      refine .mono (.bind (leaves_escape lines r) fun a u hu => ?_) (List.suffix_cons _ _)
      exact .bind ((ih u).mono hu) fun b k hk => .some hk
  | case4 => exact .some (List.suffix_cons _ _)
  | case5 fuel _ r => exact .some (List.suffix_append ['"', '"', '"'] r)
  | case6 _ _ _ _ ih | case8 _ _ _ _ _ _ ih => exact (ih.mono (List.suffix_cons _ _)).map

theorem leaves_literalInside (s : List Char) : Leaves s (literalInside s) := by
  unfold literalInside
  split
  · next r hr =>
      exact .ite .none (.some ((List.suffix_cons _ r).trans (hr ▸ List.dropWhile_suffix _)))
  · exact .none

theorem leaves_literalLines (s : List Char) : Leaves s (literalLines s) := by
  fun_induction literalLines s with
  | case1 r => exact .some (List.suffix_append ['\'', '\'', '\''] r)
  | case2 | case4 => exact .none
  | case3 _ _ _ _ ih => exact (ih.mono (List.suffix_cons _ _)).map

theorem leaves_extraQuotes {x : Option (List Char × List Char)} (hx : Leaves s x) (quote : Char) :
    Leaves s (x.map (extraQuotes quote)) := by
  intro q hq
  obtain ⟨p, hp, rfl⟩ := Option.map_eq_some_iff.mp hq
  exact (List.drop_suffix _ _).trans (hx p hp)

theorem dropLine_suffix (s : List Char) : dropLine s <:+ s := by
  unfold dropLine
  split
  · exact List.suffix_cons _ _
  · exact List.suffix_refl _

theorem leaves_lineString (s : List Char) : Leaves s (lineString s) := by
  unfold lineString
  split
  · exact (leaves_basicInside _ _ _).mono (List.suffix_cons _ _)
  · exact (leaves_literalInside _).mono (List.suffix_cons _ _)
  · exact .none

theorem leaves_string (s : List Char) : Leaves s (string s) := by
  unfold string
  split
  · next r =>
      exact leaves_extraQuotes ((leaves_basicInside _ _ _).mono
        ((dropLine_suffix r).trans (List.suffix_append ['"', '"', '"'] r))) _
  · next r =>
      exact leaves_extraQuotes ((leaves_literalLines _).mono
        ((dropLine_suffix r).trans (List.suffix_append ['\'', '\'', '\''] r))) _
  · exact leaves_lineString _

theorem leaves_keyPart (s : List Char) : Leaves s (keyPart s) := by
  unfold keyPart
  split
  · exact (leaves_lineString s).map
  · exact .some (List.dropWhile_suffix _)

theorem leaves_key (fuel : Nat) (s : List Char) : Leaves s (key fuel s) := by
  induction fuel generalizing s with
  | zero => exact .none
  | succ fuel ih =>
      refine .bind (leaves_keyPart s) fun part r hr => ?_
      have hskip := (skipSpaces_suffix r).trans hr
      dsimp only
      split
      · next u hu =>
          rw [hu] at hskip
          exact ((ih _).mono
            (((skipSpaces_suffix u).trans (List.suffix_cons _ _)).trans hskip)).map
      · exact .some hskip

/-! ### Days and times -/

theorem leaves_fixed (n : Nat) (s : List Char) : Leaves s (fixed n s) :=
  .ite (.some (List.drop_suffix _ _)) .none

/-- A number of digits behind a character. -/
theorem leaves_behind (c : Char) (n : Nat) {f : Nat × List Char → Option (β × List Char)}
    (hf : ∀ a r, r <:+ s → Leaves s (f (a, r))) :
    Leaves s ((skipChar c s).bind fun r => (fixed n r).bind f) :=
  bind_suffix (fun _ => skipChar_suffix) fun _ hr => .bind ((leaves_fixed n _).mono hr) hf

theorem leaves_day (s : List Char) : Leaves s (day s) := by
  refine .bind (leaves_fixed 4 s) fun year r hr => ?_
  refine .mono (leaves_behind '-' 2 fun month u hu => ?_) hr
  refine .mono (leaves_behind '-' 2 fun day k hk => ?_) hu
  exact .ite (.some hk) .none

theorem hourMinute_suffix {h m : Nat} (hp : hourMinute s = some (h, m, r)) : r <:+ s := by
  obtain ⟨⟨h, u⟩, hu, hp⟩ := Option.bind_eq_some_iff.mp hp
  obtain ⟨k, hk, hp⟩ := Option.bind_eq_some_iff.mp hp
  obtain ⟨⟨m, k'⟩, hk', hp⟩ := Option.bind_eq_some_iff.mp hp
  dsimp only at hp
  split at hp
  · cases hp
    exact ((leaves_fixed 2 k _ hk').trans (skipChar_suffix hk)).trans (leaves_fixed 2 s _ hu)
  · cases hp

theorem micros_suffix (s : List Char) : (micros s).2 <:+ s := by
  unfold micros
  split
  · split
    · exact List.suffix_refl _
    · exact (List.dropWhile_suffix _).trans (List.suffix_cons _ _)
  · exact List.suffix_refl _

theorem leaves_clock (s : List Char) : Leaves s (clock s) := by
  intro p hp
  obtain ⟨⟨h, m, r⟩, hr, hp⟩ := Option.bind_eq_some_iff.mp hp
  refine (Leaves.mono (leaves_behind ':' 2 fun second u hu => ?_) (hourMinute_suffix hr)) p hp
  exact .ite (.some ((micros_suffix u).trans hu)) .none

theorem zone_suffix (s : List Char) : (zone s).2 <:+ s := by
  unfold zone
  split
  · split
    · exact List.suffix_cons _ _
    · split
      · split
        · next h => exact (hourMinute_suffix h).trans (List.suffix_cons _ _)
        · exact List.suffix_refl _
      · exact List.suffix_refl _
  · exact List.suffix_refl _

theorem leaves_moment (s : List Char) : Leaves s (moment s) := by
  unfold moment
  split
  · exact (leaves_clock s).map
  · next d r hd =>
      have hr : r <:+ s := leaves_day s _ hd
      split
      · next hc =>
          exact .some (((zone_suffix _).trans (leaves_clock _ _ hc)).trans
            ((List.drop_suffix 1 r).trans hr))
      · exact .some hr

/-! ### Numbers -/

theorem moreDigits_suffix (base : Nat) (s : List Char) : (moreDigits base s).2 <:+ s := by
  fun_induction moreDigits base s with
  | case1 c r _ _ _ _ hm ih =>
      rw [hm] at ih
      exact ih.trans (List.suffix_append ['_', c] r)
  | case3 _ _ _ _ _ _ _ hm ih =>
      rw [hm] at ih
      exact ih.trans (List.suffix_cons _ _)
  | case2 | case4 | case5 => exact List.suffix_refl _

theorem leaves_digits (base : Nat) (s : List Char) : Leaves s (digits base s) := by
  cases s with
  | nil => exact .none
  | cons c r =>
      intro p hp
      obtain ⟨d, -, rfl⟩ := Option.map_eq_some_iff.mp hp
      exact (moreDigits_suffix base r).trans (List.suffix_cons _ _)

theorem leaves_whole (s : List Char) : Leaves s (whole s) := by
  unfold whole
  split
  · exact .some (List.suffix_cons _ _)
  · exact leaves_digits 10 s

theorem fraction_suffix (s : List Char) : (fraction s).2 <:+ s := by
  unfold fraction
  split
  · next r =>
      cases hd : digits 10 r with
      | none => exact List.suffix_refl _
      | some p => exact (leaves_digits 10 r p hd).trans (List.suffix_cons _ _)
  · exact List.suffix_refl _

theorem takeSign_suffix (s : List Char) : (Numeral.takeSign s).2 <:+ s := by
  unfold Numeral.takeSign
  split
  · exact List.suffix_cons _ _
  · exact List.suffix_cons _ _
  · exact List.suffix_refl _

theorem power_suffix (s : List Char) : (power s).2 <:+ s := by
  unfold power
  split
  · next c r =>
      split
      · dsimp only
        split
        · next h =>
            exact ((leaves_digits 10 _ _ h).trans (takeSign_suffix r)).trans (List.suffix_cons _ _)
        · exact List.suffix_refl _
      · exact List.suffix_refl _
  · exact List.suffix_refl _

theorem leaves_based (s : List Char) : Leaves s (based s) := by
  unfold based
  split
  · exact ((leaves_digits _ _).mono (List.suffix_append ['0', 'x'] _)).map
  · exact ((leaves_digits _ _).mono (List.suffix_append ['0', 'o'] _)).map
  · exact ((leaves_digits _ _).mono (List.suffix_append ['0', 'b'] _)).map
  · exact .none

theorem leaves_word (s : List Char) : Leaves s (word s) := by
  refine .mono ?_ (takeSign_suffix s)
  unfold word
  dsimp only
  split
  · next hr => exact .some (hr ▸ List.suffix_append ['i', 'n', 'f'] _)
  · next hr => exact .some (hr ▸ List.suffix_append ['n', 'a', 'n'] _)
  · exact .none

/-! ### Readers that can meet an oversized number -/

/-- A row of `n` digits of base ten stands in a text. -/
def HasRow (n : Nat) (s : List Char) : Prop :=
  ∃ k ds r, k <:+ s ∧ digits 10 k = some (ds, r) ∧ ds.length = n

/-- A fault is where it is said to be: the digits of an oversized number stand in the text. -/
def Fault.Within (s : List Char) : Fault → Prop
  | .malformed   => True
  | .oversized n => maxDigits < n ∧ HasRow n s

/-- What is read leaves an end of a text, and what is at fault stands in it. -/
def Sound (s : List Char) : Except Fault (α × List Char) → Prop
  | .ok p    => p.2 <:+ s
  | .error e => e.Within s

theorem Fault.Within.mono {e : Fault} (h : e.Within r) (hr : r <:+ s) : e.Within s := by
  cases e with
  | malformed => trivial
  | oversized n =>
      obtain ⟨hn, k, ds, u, hk, hd⟩ := h
      exact ⟨hn, k, ds, u, hk.trans hr, hd⟩

namespace Sound

theorem mono {x : Except Fault (α × List Char)} (hx : Sound r x) (hr : r <:+ s) : Sound s x := by
  cases x with
  | ok p => exact List.IsSuffix.trans hx hr
  | error e => exact Fault.Within.mono hx hr

theorem bind {x : Except Fault (α × List Char)} {f : α × List Char → Except Fault (β × List Char)}
    (hx : Sound s x) (hf : ∀ a r, r <:+ s → Sound s (f (a, r))) : Sound s (x.bind f) := by
  cases x with
  | ok p => exact hf p.1 p.2 hx
  | error e => exact hx

theorem map {x : Except Fault (α × List Char)} {f : α × List Char → β} (hx : Sound s x) :
    Sound s (x.map fun p => (f p, p.2)) := by
  cases x with
  | ok p => exact hx
  | error e => exact hx

theorem wellFormed {x : Option (α × List Char)} (hx : Leaves s x) : Sound s (wellFormed x) := by
  cases x with
  | none => trivial
  | some p => exact hx p rfl

/-- A value that is not read leaves the text as it is. -/
theorem bindValue {x : Option α} {f : α → Except Fault (β × List Char)} (hf : ∀ a, Sound s (f a)) :
    Sound s ((Toml.wellFormed x).bind f) := by
  cases x with
  | none => trivial
  | some a => exact hf a

/-- What is passed over leaves an end of the text. -/
theorem bindRest {x : Option (List Char)} {f : List Char → Except Fault (β × List Char)}
    (hx : ∀ r, x = some r → r <:+ s) (hf : ∀ r, r <:+ s → Sound s (f r)) :
    Sound s ((Toml.wellFormed x).bind f) := by
  cases x with
  | none => trivial
  | some r => exact hf r (hx r rfl)

end Sound

/-- A zero in front is a whole part by itself, and no long one. -/
theorem hasRow_whole {ds : List Nat} (h : whole s = some (ds, r)) (hlong : maxDigits < ds.length) :
    HasRow ds.length s := by
  unfold whole at h
  split at h
  · cases h
    exact absurd hlong (Nat.lt_asymm one_lt_maxDigits)
  · exact ⟨s, ds, r, List.suffix_refl _, h, rfl⟩

theorem sound_decimal (s : List Char) : Sound s (decimal s) := by
  refine .mono ?_ (takeSign_suffix s)
  unfold decimal
  dsimp only
  cases hw : whole (Numeral.takeSign s).2 with
  | none => trivial
  | some p =>
      obtain ⟨ws, r⟩ := p
      have hr : r <:+ (Numeral.takeSign s).2 := leaves_whole _ _ hw
      have hp : (power (fraction r).2).2 <:+ (Numeral.takeSign s).2 :=
        ((power_suffix _).trans (fraction_suffix r)).trans hr
      dsimp only [wellFormed, bind, Except.bind]
      generalize (fraction r).1 = fs at *
      generalize power (fraction r).2 = x at *
      -- The digits are counted only where neither a fraction nor an exponent makes a float of them.
      split
      · split
        · next hlong => exact ⟨hlong, hasRow_whole hw hlong⟩
        · exact hp
      · exact hp

theorem sound_number (s : List Char) : Sound s (number s) := by
  unfold number
  split
  · next p hp =>
      cases hb : based s with
      | none => rw [hb] at hp; exact leaves_word s p hp
      | some q => rw [hb] at hp; cases hp; exact leaves_based s p hb
  · exact sound_decimal s

theorem sound_text (s : List Char) : Sound s (text s) := .wellFormed (leaves_string s).map

theorem sound_scalar (s : List Char) : Sound s (scalar s) := by
  unfold scalar
  split
  · exact List.suffix_append ['t', 'r', 'u', 'e'] _
  · exact List.suffix_append ['f', 'a', 'l', 's', 'e'] _
  · exact sound_text _
  · exact sound_text _
  · split
    · next h => exact leaves_moment s _ h
    · exact sound_number s

/-! ### Values and statements -/

section values

variable {fuel : Nat} (hvalue : ∀ s, Sound s (value fuel s)) (hitems : ∀ s, Sound s (items fuel s))
  (hpairs : ∀ ns s, Sound s (pairs fuel ns s))

include hitems hpairs in
theorem sound_value (s : List Char) : Sound s (value (fuel + 1) s) := by
  unfold value
  split
  · trivial
  · next hf =>
      cases hf
      refine .mono (.bindRest (fun _ => skipGaps_suffix) fun u hu => ?_) (List.suffix_cons _ _)
      split
      · exact (List.suffix_cons _ _).trans hu
      · exact ((hitems _).mono hu).map
  · next r hf =>
      cases hf
      refine .mono ?_ ((skipSpaces_suffix r).trans (List.suffix_cons '\x7b' r))
      split
      · next h => exact h ▸ List.suffix_cons _ _
      · exact (hpairs _ _).map
  · exact sound_scalar _

include hvalue hitems in
theorem sound_items (s : List Char) : Sound s (items (fuel + 1) s) := by
  unfold items
  refine .bind (hvalue s) fun d r hr => ?_
  refine .mono (.bindRest (fun _ => skipGaps_suffix) fun u hu => ?_) hr
  split
  · exact (List.suffix_cons _ _).trans hu
  · next k =>
      refine .mono (.bindRest (fun _ => skipGaps_suffix) fun v hv => ?_)
        ((List.suffix_cons _ _).trans hu)
      split
      · exact (List.suffix_cons _ _).trans hv
      · exact ((hitems _).mono hv).map
  · trivial

include hvalue hpairs in
theorem sound_pairs (ns : Nodes) (s : List Char) : Sound s (pairs (fuel + 1) ns s) := by
  unfold pairs
  refine .bind (.wellFormed (leaves_key _ s)) fun path r hr => ?_
  refine .mono (.bindRest (fun _ => skipChar_suffix) fun u hu => ?_) hr
  refine .bind ((hvalue _).mono ((skipSpaces_suffix u).trans hu)) fun d k hk => ?_
  refine .bindValue fun ns' => ?_
  have hskip := (skipSpaces_suffix k).trans hk
  split
  · next h => exact (h ▸ List.suffix_cons _ _ : _ <:+ skipSpaces k).trans hskip
  · next v h =>
      refine (hpairs _ _).mono ((skipSpaces_suffix v).trans ?_)
      exact (h ▸ List.suffix_cons _ _ : _ <:+ skipSpaces k).trans hskip
  · trivial

end values

theorem sound_values (fuel : Nat) :
    (∀ s, Sound s (value fuel s)) ∧ (∀ s, Sound s (items fuel s)) ∧
      ∀ ns s, Sound s (pairs fuel ns s) := by
  induction fuel with
  | zero => exact ⟨fun _ => trivial, fun _ => trivial, fun _ _ => trivial⟩
  | succ fuel ih =>
      obtain ⟨hvalue, hitems, hpairs⟩ := ih
      exact ⟨sound_value hitems hpairs, sound_items hvalue hitems, sound_pairs hvalue hpairs⟩

theorem leaves_nextHeader (d : Draft) (s : List Char) : Leaves s (nextHeader d s) := by
  refine .mono (.bind (leaves_key _ _) fun path r hr => ?_) (skipSpaces_suffix s)
  refine .mono (bind_suffix (fun _ => skipChar_suffix) fun u hu => ?_) hr
  refine .mono (bind_suffix (fun _ => skipChar_suffix) fun k hk => ?_) hu
  exact .bindValue fun last => .bindValue fun ns => .some hk

theorem leaves_tableHeader (d : Draft) (s : List Char) : Leaves s (tableHeader d s) := by
  refine .mono (.bind (leaves_key _ _) fun path r hr => ?_) (skipSpaces_suffix s)
  refine .mono (bind_suffix (fun _ => skipChar_suffix) fun u hu => ?_) hr
  exact .bindValue fun last => .bindValue fun ns => .some hu

theorem sound_assignment (d : Draft) (s : List Char) : Sound s (assignment d s) := by
  refine .bind (.wellFormed (leaves_key _ s)) fun path r hr => ?_
  refine .mono (.bindRest (fun _ => skipChar_suffix) fun u hu => ?_) hr
  refine .bind (((sound_values _).1 _).mono ((skipSpaces_suffix u).trans hu)) fun v k hk => ?_
  exact .bindValue fun ns => hk

theorem sound_statement (d : Draft) (s : List Char) : Sound s (statement d s) := by
  unfold statement
  split
  · exact List.suffix_refl _
  · exact .wellFormed ((leaves_nextHeader d _).mono (List.suffix_append ['[', '['] _))
  · exact .wellFormed ((leaves_tableHeader d _).mono (List.suffix_cons _ _))
  · exact sound_assignment d _

/-- What is at fault stands in a text. -/
def Blames (s : List Char) (x : Except Fault α) : Prop := ∀ e, x = .error e → e.Within s

theorem Blames.mono {x : Except Fault α} (hx : Blames r x) (hr : r <:+ s) : Blames s x :=
  fun e he => (hx e he).mono hr

theorem Blames.bind {x : Except Fault (α × List Char)} {f : α × List Char → Except Fault β}
    (hx : Sound s x) (hf : ∀ a r, r <:+ s → Blames s (f (a, r))) : Blames s (x.bind f) := by
  cases x with
  | ok p => exact hf p.1 p.2 hx
  | error e => rintro _ ⟨⟩; exact hx

theorem Blames.bindRest {x : Option (List Char)} {f : List Char → Except Fault β}
    (hx : ∀ r, x = some r → r <:+ s) (hf : ∀ r, r <:+ s → Blames s (f r)) :
    Blames s ((wellFormed x).bind f) := by
  cases x with
  | none => rintro _ ⟨⟩; trivial
  | some r => exact hf r (hx r rfl)

/-- **A fault stands in the text** that is read. -/
theorem blames_statements (fuel : Nat) (d : Draft) (s : List Char) :
    Blames s (statements fuel d s) := by
  induction fuel generalizing d s with
  | zero => rintro _ ⟨⟩; trivial
  | succ fuel ih =>
      have hskip := skipSpaces_suffix s
      unfold statements
      split
      · nofun
      · next r hr =>
          rw [hr] at hskip
          exact (ih d r).mono ((List.suffix_cons _ _).trans hskip)
      · refine .mono (.bind (sound_statement d _) fun d' r hr => ?_) hskip
        refine .mono (.bindRest (fun _ => skipComment_suffix) fun u hu => ?_)
          ((skipSpaces_suffix r).trans hr)
        split
        · nofun
        · exact (ih d' _).mono ((List.suffix_cons _ _).trans hu)
        · rintro _ ⟨⟩
          trivial

theorem length_unifyLines_le (s : List Char) : (unifyLines s).length ≤ s.length := by
  fun_induction unifyLines s with
  | case1 r ih => simp only [List.length_cons]; omega
  | case2 c r _ ih => simp only [List.length_cons]; omega
  | case3 => exact Nat.le_refl _

theorem length_moreDigits (base : Nat) (s : List Char) :
    (moreDigits base s).1.length ≤ s.length := by
  fun_induction moreDigits base s with
  | case1 _ _ _ _ _ _ hm ih | case3 _ _ _ _ _ _ _ hm ih =>
      rw [hm] at ih
      simp only [List.length_cons] at *
      omega
  | case2 | case4 | case5 => exact Nat.zero_le _

theorem HasRow.le_length {n : Nat} (h : HasRow n s) : n ≤ s.length := by
  obtain ⟨k, ds, r, hk, hd, rfl⟩ := h
  refine Nat.le_trans ?_ hk.length_le
  cases k with
  | nil => cases hd
  | cons c k =>
      obtain ⟨d, -, hp⟩ := Option.map_eq_some_iff.mp hd
      cases hp
      exact Nat.succ_le_succ (length_moreDigits 10 k)

/-- **A document refused for the size of a number** has a row of that many digits, and so as many
characters. -/
theorem parse_oversized {source : String} {n : Nat} (h : parse source = .error (.oversized n)) :
    maxDigits < n ∧ HasRow n (unifyLines source.toList) ∧ n ≤ source.length := by
  have hw : (Fault.oversized n).Within (unifyLines source.toList) := by
    rw [parse] at h
    cases hs : statements _ {} (unifyLines source.toList) with
    | error e => rw [hs] at h; cases h; exact blames_statements _ _ _ _ hs
    | ok ns => rw [hs] at h; cases h
  refine ⟨hw.1, hw.2, ?_⟩
  rw [← String.length_toList]
  exact Nat.le_trans hw.2.le_length (length_unifyLines_le _)

end Abacus.Toml
