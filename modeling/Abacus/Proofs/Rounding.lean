import Abacus.Rounding
import Mathlib.Algebra.Order.Field.Rat
import Mathlib.Algebra.Ring.Parity
import Mathlib.Data.Nat.Cast.Order.Field
import Mathlib.Order.Monotone.Basic
import Mathlib.Tactic.FieldSimp
import Mathlib.Tactic.IntervalCases
import Mathlib.Tactic.Linarith
import Mathlib.Tactic.LinearCombination
import Mathlib.Tactic.Positivity
import Mathlib.Tactic.Ring

/-!
# Rounding — the nearest mark of a scale

A scale has its marks numbered upwards.  `RoundsTo scale q n` says that no mark is nearer to `q`
than the one with number `n`, and that `n` is even when another is as near.

* `RoundsTo.lt_iff`: a number lies in the upper half between an odd mark and the next exactly when
  it is rounded past the odd one, halves going up; so the rounding of `q` is settled by `q`.
* `RoundsTo.mono`: a larger number is not rounded to a lower mark.
* `roundsTo_divNearest`: `divNearest` rounds a quotient on the scale of whole numbers.
-/

namespace Abacus

/-- `q` is rounded to the mark `n` of a scale, a half to an even mark. -/
def RoundsTo (scale : ℕ → ℚ) (q : ℚ) (n : ℕ) : Prop :=
  ∀ m, |scale n - q| ≤ |scale m - q| ∧ (|scale m - q| = |scale n - q| → m = n ∨ Even n)

namespace RoundsTo

variable {scale : ℕ → ℚ} {q : ℚ} {n : ℕ}

/-- The unit of measure does not matter. -/
theorem mul_right (h : RoundsTo scale q n) {t : ℚ} (ht : 0 < t) :
    RoundsTo (fun m => scale m * t) (q * t) n := by
  have hdist : ∀ m, |scale m * t - q * t| = |scale m - q| * t := fun m => by
    rw [← sub_mul, abs_mul, abs_of_pos ht]
  intro m
  simp only [hdist]
  exact ⟨mul_le_mul_of_nonneg_right (h m).1 ht.le,
    fun hm => (h m).2 (mul_right_cancel₀ ht.ne' hm)⟩

/-- Halves between an odd mark and the next go up, like all that is above them. -/
theorem lt_iff (hs : StrictMono scale) (h : RoundsTo scale q n) {k : ℕ} (hk : Odd k) :
    k < n ↔ scale k + scale (k + 1) ≤ 2 * q := by
  have hstep : scale k < scale (k + 1) := hs k.lt_succ_self
  constructor
  · intro hlt
    have hnext : scale (k + 1) ≤ scale n := hs.monotone hlt
    have hnear := (h k).1
    by_contra hq
    rw [abs_of_pos (by linarith)] at hnear
    rcases abs_cases (scale k - q) with ⟨he, -⟩ | ⟨he, -⟩ <;> linarith
  · intro hq
    by_contra hle
    have hmono : scale n ≤ scale k := hs.monotone (Nat.le_of_not_lt hle)
    have hn : |scale n - q| = q - scale n := by
      rw [abs_of_neg (by linarith)]
      ring
    have hnext : |scale (k + 1) - q| ≤ q - scale k := by
      rw [abs_le]
      constructor <;> linarith
    obtain ⟨hnear, htie⟩ := h (k + 1)
    rw [hn] at hnear htie
    -- no nearer than the even mark, so as near, and then the odd one
    have hscale : scale n = scale k := by linarith
    have hodd : n = k := hs.injective hscale
    rcases htie (by linarith) with heq | heven
    · omega
    · rw [hodd] at heven
      exact Nat.not_even_iff_odd.mpr hk heven

/-- A mark is rounded to itself. -/
theorem self (hs : StrictMono scale) (n : ℕ) : RoundsTo scale (scale n) n := by
  intro m
  rw [sub_self, abs_zero]
  exact ⟨abs_nonneg _, fun h => .inl (hs.injective (sub_eq_zero.mp (abs_eq_zero.mp h)))⟩

/-- A larger number is not rounded to a lower mark. -/
theorem mono {q' : ℚ} {n' : ℕ} (hs : StrictMono scale) (h : RoundsTo scale q n)
    (h' : RoundsTo scale q' n') (hq : q ≤ q') : n ≤ n' := by
  by_contra hlt
  have hscale : scale n' < scale n := hs (Nat.lt_of_not_le hlt)
  obtain ⟨hnear, htie⟩ := h n'
  obtain ⟨hnear', htie'⟩ := h' n
  have hlow : scale n' + scale n ≤ 2 * q := by
    by_contra hmid
    rw [abs_of_pos (by linarith)] at hnear
    rcases abs_cases (scale n' - q) with ⟨he, -⟩ | ⟨he, -⟩ <;> linarith
  have hhigh : 2 * q' ≤ scale n' + scale n := by
    by_contra hmid
    rw [abs_of_neg (by linarith)] at hnear'
    rcases abs_cases (scale n - q') with ⟨he, -⟩ | ⟨he, -⟩ <;> linarith
  -- both lie half way, so both marks are even, and the mark between them is nearer
  have heq : q = q' := by linarith
  subst heq
  have hdist : |scale n' - q| = q - scale n' := by
    rw [abs_of_neg (by linarith)]
    ring
  have hdist' : |scale n - q| = scale n - q := abs_of_pos (by linarith)
  have heven : Even n := (htie (by linarith)).resolve_left (by omega)
  have heven' : Even n' := (htie' (by linarith)).resolve_left (by omega)
  rw [Nat.even_iff] at heven heven'
  have hbelow : scale n' < scale (n' + 1) := hs n'.lt_succ_self
  have habove : scale (n' + 1) < scale n := hs (by omega)
  have hnext := (h (n' + 1)).1
  rcases abs_cases (scale (n' + 1) - q) with ⟨he, -⟩ | ⟨he, -⟩ <;> linarith

end RoundsTo

/-! ### Whole numbers -/

/-- Rounding is to a nearest multiple. -/
theorem divNearest_nearest (a k : Nat) {b : Nat} (hb : 0 < b) :
    |(divNearest a b * b : ℤ) - a| ≤ |(k * b : ℤ) - a| := by
  obtain ⟨hlo, hhi⟩ := divNearest_near a b hb
  zify at hlo hhi
  -- the nearest multiple is half a unit away at most, and any other is further on either side
  have hhalf : 2 * |(divNearest a b * b : ℤ) - a| ≤ b := by
    rw [← abs_two (α := ℤ), ← abs_mul, abs_le]
    constructor <;> linarith
  rcases Nat.lt_trichotomy k (divNearest a b) with h | rfl | h
  · have hk : ((k + 1 : ℕ) : ℤ) * b ≤ divNearest a b * b :=
      mul_le_mul_of_nonneg_right (by exact_mod_cast h) (by positivity)
    push_cast at hk
    have := neg_abs_le ((k * b : ℤ) - a)
    linarith
  · exact le_refl _
  · have hk : ((divNearest a b + 1 : ℕ) : ℤ) * b ≤ k * b :=
      mul_le_mul_of_nonneg_right (by exact_mod_cast h) (by positivity)
    push_cast at hk
    have := le_abs_self ((k * b : ℤ) - a)
    linarith

/-- Of two multiples that are equally near the even one is taken. -/
theorem divNearest_even {a b k : Nat} (hb : 0 < b)
    (h : |(k * b : ℤ) - a| = |(divNearest a b * b : ℤ) - a|) :
    k = divNearest a b ∨ Even (divNearest a b) := by
  rcases abs_eq_abs.mp h with h | h
  · have hk : (k : ℤ) = divNearest a b :=
      mul_right_cancel₀ (by exact_mod_cast hb.ne') (sub_left_inj.mp h)
    exact .inl (by exact_mod_cast hk)
  · -- half way between two multiples, the remainder is half of `b` or nothing
    have hsplit : ((a / b : ℕ) : ℤ) * b + (a % b : ℕ) = a := by exact_mod_cast Nat.div_add_mod' a b
    have hdvd : (b : ℤ) ∣ (2 * (a % b) : ℕ) := by
      refine ⟨k + divNearest a b - 2 * (a / b : ℕ), ?_⟩
      rw [Nat.cast_mul, Nat.cast_two]
      linear_combination 2 * hsplit - h
    obtain ⟨j, hj⟩ := Int.natCast_dvd_natCast.mp hdvd
    have hr := Nat.mod_lt a hb
    have hj2 : j < 2 := Nat.lt_of_mul_lt_mul_left (a := b) (by omega)
    unfold divNearest at h ⊢
    interval_cases j
    · rw [if_pos (by omega)] at h ⊢
      have hr0 : a % b = 0 := by omega
      have hk : (k : ℤ) = (a / b : ℕ) := by
        rw [hr0] at hsplit
        refine mul_right_cancel₀ (b := (b : ℤ)) (by exact_mod_cast hb.ne') ?_
        linear_combination h - 2 * hsplit
      exact .inl (by exact_mod_cast hk)
    · rw [if_neg (by omega), if_neg (by omega)]
      right
      rw [Nat.even_iff]
      omega

/-- Distances of quotients, counted in parts of the divisor. -/
theorem abs_sub_div (m a : Nat) {b : Nat} (hb : 0 < b) :
    |(m : ℚ) - a / b| = (|(m * b : ℤ) - a| : ℤ) / b := by
  have hb' : (0 : ℚ) < b := by exact_mod_cast hb
  have hsub : (m : ℚ) - a / b = ((m * b : ℤ) - a : ℤ) / b := by
    push_cast
    field_simp
  rw [hsub, abs_div, abs_of_pos hb', Int.cast_abs]

/-- `divNearest` rounds on the scale of whole numbers. -/
theorem roundsTo_divNearest (a : Nat) {b : Nat} (hb : 0 < b) :
    RoundsTo (fun m => (m : ℚ)) (a / b) (divNearest a b) := by
  have hb' : (0 : ℚ) < b := by exact_mod_cast hb
  intro m
  rw [abs_sub_div m a hb, abs_sub_div _ a hb]
  constructor
  · exact (div_le_div_iff_of_pos_right hb').mpr (Int.cast_le.mpr (divNearest_nearest a m hb))
  · intro h
    rw [div_left_inj' hb'.ne', Int.cast_inj] at h
    exact divNearest_even hb h

/-- What holds of both neighbours of a quotient holds of the nearest whole number. -/
theorem divNearest_of_neighbours {p : Nat → Prop} {a b : Nat} (h : p (a / b))
    (h' : p (a / b + 1)) : p (divNearest a b) := by
  rcases divNearest_eq_or a b with he | he
  · rwa [he]
  · rwa [he]

theorem divNearest_mul_left {c : Nat} (hc : 0 < c) (a b : Nat) :
    divNearest (c * a) (c * b) = divNearest a b := by
  have hlt : 2 * (c * (a % b)) < c * b ↔ 2 * (a % b) < b := by
    rw [Nat.mul_left_comm, Nat.mul_lt_mul_left hc]
  have hgt : c * b < 2 * (c * (a % b)) ↔ b < 2 * (a % b) := by
    rw [Nat.mul_left_comm 2, Nat.mul_lt_mul_left hc]
  unfold divNearest
  rw [Nat.mul_mod_mul_left, Nat.mul_div_mul_left _ _ hc]
  simp only [hlt, hgt]

end Abacus
