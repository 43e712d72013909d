import Abacus.Expr.Text
import Abacus.Proofs.Decimal.Point
import Abacus.Proofs.Expr.Rendering
import Abacus.Proofs.Text.Visible

/-!
# Expr — numbers, values and trees are written visibly

* `Decimal.visible_chars`: a decimal, to any limit of its places.
* `visible_numberChars`, `visible_valueChars`: a double in full, and to some significant digits.
* `Expr.visible_render`: a tree.
-/

namespace Abacus
open Text

/-! ### Numbers -/

namespace Decimal

theorem visible_digitChars (n : Nat) : ∀ c ∈ digitChars n, Visible c :=
  visible_toDigits (by decide) n

theorem visible_positional {ds : List Char} (h : ∀ c ∈ ds, Visible c) (x : Int) :
    ∀ c ∈ positional ds x, Visible c := by
  have hzeros (n : Nat) : ∀ c ∈ List.replicate n '0', Visible c := visible_replicate (by decide) n
  have htake (n : Nat) : ∀ c ∈ ds.take n, Visible c := fun c hc => h c (List.mem_of_mem_take hc)
  have hdrop (n : Nat) : ∀ c ∈ '.' :: ds.drop n, Visible c :=
    List.forall_mem_cons.mpr ⟨by decide, fun c hc => h c (List.mem_of_mem_drop hc)⟩
  unfold positional
  split_ifs
  · exact List.forall_mem_cons.mpr ⟨by decide, List.forall_mem_cons.mpr
      ⟨by decide, List.forall_mem_append.mpr ⟨hzeros _, h⟩⟩⟩
  · exact List.forall_mem_append.mpr ⟨h, hzeros _⟩
  · exact List.forall_mem_append.mpr ⟨htake _, hdrop _⟩

theorem visible_exponentChars (x : Int) : ∀ c ∈ 'e' :: exponentChars x, Visible c := by
  have hdigits := visible_digitChars x.natAbs
  refine List.forall_mem_cons.mpr ⟨by decide, List.forall_mem_cons.mpr ⟨?_, ?_⟩⟩
  · split_ifs <;> decide
  · split_ifs
    · exact List.forall_mem_cons.mpr ⟨by decide, hdigits⟩
    · exact hdigits

theorem visible_scientific {ds : List Char} (h : ∀ c ∈ ds, Visible c) (x : Int) :
    ∀ c ∈ scientific ds x, Visible c := by
  have hx := visible_exponentChars x
  match ds with
  | [] => exact h
  | [d] => exact List.forall_mem_cons.mpr ⟨h d (.head _), hx⟩
  | d :: e :: ds =>
      obtain ⟨hd, hds⟩ := List.forall_mem_cons.mp h
      exact List.forall_mem_cons.mpr ⟨hd, List.forall_mem_cons.mpr
        ⟨by decide, List.forall_mem_append.mpr ⟨hds, hx⟩⟩⟩

theorem visible_chars (limit : Int) (d : Decimal) : ∀ c ∈ d.chars limit, Visible c := by
  unfold chars
  split_ifs
  · exact visible_positional (visible_digitChars _) _
  · exact visible_scientific (visible_digitChars _) _

end Decimal

theorem visible_signedChars {write : Nat → List Char} (h : ∀ n, ∀ c ∈ write n, Visible c)
    (x : Float) : ∀ c ∈ signedChars write x, Visible c := by
  unfold signedChars
  extract_lets n w
  have hw : ∀ c ∈ w, Visible c := by
    unfold w
    split_ifs
    · exact visible_of_all rfl
    · exact visible_of_all rfl
    · exact h n
  split_ifs
  · exact visible_of_all rfl
  · exact List.forall_mem_cons.mpr ⟨by decide, hw⟩
  · exact hw

theorem visible_numberChars (x : Float) : ∀ c ∈ numberChars x, Visible c := by
  rw [numberChars_eq_shortestChars]
  exact visible_signedChars (fun _ => Decimal.visible_chars _ _) x

theorem visible_valueChars (p : Nat) (x : Float) : ∀ c ∈ valueChars p x, Visible c := by
  unfold valueChars
  extract_lets p
  exact visible_signedChars (fun _ => Decimal.visible_chars _ _) x

/-! ### Trees -/

namespace Expr

theorem visible_symbol (o : Op) : Visible o.symbol := by
  cases o <;> decide

theorem visible_textChars (t : Expr) : ∀ c ∈ t.textChars, Visible c := by
  induction t with
  | const v => exact visible_numberChars v
  | neg e ih => exact List.forall_mem_cons.mpr ⟨by decide, ih⟩
  | binary o l r ihl ihr =>
      have hright : ∀ c ∈ r.textChars ++ [')'], Visible c :=
        List.forall_mem_append.mpr ⟨ihr, visible_of_all rfl⟩
      have hoperator : ∀ c ∈ ' ' :: o.symbol :: ' ' :: (r.textChars ++ [')']), Visible c := by
        simpa only [List.forall_mem_cons] using ⟨by decide, visible_symbol o, by decide, hright⟩
      exact List.forall_mem_cons.mpr ⟨by decide, List.forall_mem_append.mpr ⟨ihl, hoperator⟩⟩

/-- A tree is written visibly. -/
theorem visible_render (t : Expr) : ∀ c ∈ t.render.toList, Visible c := by
  rw [render_eq, String.toList_ofList]
  exact t.visible_textChars

end Expr

end Abacus
