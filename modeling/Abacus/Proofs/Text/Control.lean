import Abacus.Text.Control
import Mathlib.Order.Nat

/-!
# Text — what is left without control sequences

A control sequence has no space and no line feed in it.  So a text is cut in two before such a
character, and what is dropped of it is dropped of the parts (`plain_append`).

* `plain_append_left`: a text without escape characters stays in front of any other.
* `plain_eq_self_iff`: nothing is dropped just where no control sequence begins (`Steers`).
-/

namespace Abacus.Text

/-! ### Control sequences -/

theorem length_takeWhile_lt {p : Char → Bool} {c : Char} {s r : List Char}
    (h : s.dropWhile p = c :: r) : (s.takeWhile p).length < s.length := by
  have hlength := congrArg List.length (List.takeWhile_append_dropWhile (p := p) (l := s))
  rw [h, List.length_append, List.length_cons] at hlength
  omega

theorem controlLength_le (s : List Char) : controlLength s ≤ s.length := by
  unfold controlLength
  split
  · next r =>
      split
      · next h =>
          cases hd : r.dropWhile isParameter with
          | nil =>
              rw [hd] at h
              cases h
          | cons c k =>
              have hlt := length_takeWhile_lt hd
              simp only [List.length_cons]
              omega
      · exact Nat.zero_le _
  · exact Nat.zero_le _

theorem controlLength_of_ne {c : Char} (hc : c ≠ '\x1b') (s : List Char) :
    controlLength (c :: s) = 0 := by
  unfold controlLength
  split
  · next heq =>
      cases heq
      exact absurd rfl hc
  · rfl

/-- A character that no control sequence has in it. -/
structure Breaks (c : Char) : Prop where
  ne_escape : c ≠ '\x1b'
  ne_bracket : c ≠ '['
  not_parameter : isParameter c = false
  not_letter : c.isAlpha = false

theorem breaks_space : Breaks ' ' := ⟨by decide, by decide, by decide, by decide⟩

theorem breaks_feed : Breaks '\n' := ⟨by decide, by decide, by decide, by decide⟩

/-- A control sequence is over before such a character. -/
theorem controlLength_append {c : Char} (hc : Breaks c) (s k : List Char) :
    controlLength (s ++ c :: k) = controlLength s := by
  match s with
  | [] => exact controlLength_of_ne hc.ne_escape k
  | [d] =>
      have hd (u : List Char) (hu : ∀ e r, u = e :: r → e ≠ '[') : controlLength (d :: u) = 0 := by
        unfold controlLength
        split
        · next heq =>
            cases heq
            exact absurd rfl (hu _ _ rfl)
        · rfl
      rw [List.singleton_append, hd _ (by rintro _ _ ⟨⟩; exact hc.ne_bracket), hd [] nofun]
  | d :: e :: r =>
      by_cases h : d = '\x1b' ∧ e = '['
      · obtain ⟨rfl, rfl⟩ := h
        show controlLength ('\x1b' :: '[' :: (r ++ c :: k)) = _
        rw [controlLength, controlLength, List.dropWhile_append, List.takeWhile_append]
        cases hd : r.dropWhile isParameter with
        | nil => simp [hc.not_parameter, hc.not_letter]
        | cons e u =>
            rw [List.isEmpty_cons, if_neg Bool.false_ne_true, if_neg (length_takeWhile_lt hd).ne]
            rfl
      · have hzero (u : List Char) : controlLength (d :: e :: u) = 0 := by
          unfold controlLength
          split
          · next heq =>
              cases heq
              exact absurd ⟨rfl, rfl⟩ h
          · rfl
        rw [List.cons_append, List.cons_append, hzero, hzero]

/-! ### What is left -/

/-- What is dropped of a text is dropped of its parts. -/
theorem dropControls_append {n : Nat} {s : List Char} {c : Char} (hn : n ≤ s.length)
    (hc : Breaks c) (k : List Char) :
    dropControls n (s ++ c :: k) = dropControls n s ++ dropControls 0 (c :: k) := by
  induction s generalizing n with
  | nil =>
      obtain rfl := Nat.le_zero.mp hn
      rfl
  | cons d s ih =>
      cases n with
      | succ n => exact ih (Nat.le_of_succ_le_succ hn)
      | zero =>
          have hle := controlLength_le (d :: s)
          rw [List.cons_append, dropControls, dropControls, ← List.cons_append,
            controlLength_append hc]
          split
          · rw [ih (Nat.zero_le _), List.cons_append]
          · next m hm =>
              rw [hm] at hle
              exact ih (Nat.le_of_succ_le_succ hle)

theorem dropControls_of_notMem {s : List Char} (h : '\x1b' ∉ s) (k : List Char) :
    dropControls 0 (s ++ k) = s ++ dropControls 0 k := by
  induction s with
  | nil => rfl
  | cons c s ih =>
      obtain ⟨hc, hs⟩ := not_or.mp (List.mem_cons.not.mp h)
      rw [List.cons_append, dropControls, controlLength_of_ne (Ne.symm hc), ih hs, List.cons_append]

theorem length_dropControls_le (n : Nat) (s : List Char) :
    (dropControls n s).length ≤ s.length := by
  induction s generalizing n with
  | nil => cases n <;> exact Nat.le_refl _
  | cons c s ih =>
      cases n with
      | succ n => exact (ih n).trans (Nat.le_succ _)
      | zero =>
          rw [dropControls]
          split
          · exact Nat.succ_le_succ (ih 0)
          · next n _ => exact (ih n).trans (Nat.le_succ _)

theorem mem_of_mem_dropControls {c : Char} {n : Nat} {s : List Char}
    (h : c ∈ dropControls n s) : c ∈ s := by
  induction s generalizing n with
  | nil => cases n <;> exact h
  | cons d s ih =>
      cases n with
      | succ n => exact List.mem_cons_of_mem _ (ih h)
      | zero =>
          rw [dropControls] at h
          split at h
          · exact List.mem_cons.mpr ((List.mem_cons.mp h).imp id ih)
          · exact List.mem_cons_of_mem _ (ih h)

theorem dropControls_eq_self_iff {s : List Char} :
    dropControls 0 s = s ↔ ∀ r, r <:+ s → controlLength r = 0 := by
  induction s with
  | nil =>
      refine iff_of_true rfl fun r hr => ?_
      rw [List.suffix_nil.mp hr]
      rfl
  | cons c s ih =>
      rw [dropControls]
      split
      · next h =>
          rw [List.cons_inj_right, ih]
          refine ⟨fun hs r hr => ?_, fun hs r hr => hs r (hr.trans (List.suffix_cons c s))⟩
          rcases List.suffix_cons_iff.mp hr with rfl | hr
          · exact h
          · exact hs r hr
      · next n h =>
          refine iff_of_false (fun heq => ?_) fun hs => ?_
          · have hlength := length_dropControls_le n s
            rw [heq, List.length_cons] at hlength
            omega
          · rw [hs _ (List.suffix_refl _)] at h
            cases h

/-! ### Texts -/

/-- A control sequence begins somewhere in the text. -/
def Steers (s : String) : Prop := ∃ r, r <:+ s.toList ∧ controlLength r ≠ 0

theorem toList_plain (s : String) : (plain s).toList = dropControls 0 s.toList :=
  String.toList_ofList

/-- What is dropped of a text is dropped of its parts, where the second one begins with a character
that no control sequence has in it. -/
theorem plain_append (s : String) {t : String} {c : Char} {k : List Char} (ht : t.toList = c :: k)
    (hc : Breaks c) : plain (s ++ t) = plain s ++ plain t := by
  apply String.toList_injective
  simp only [String.toList_append, toList_plain, ht]
  exact dropControls_append (Nat.zero_le _) hc k

theorem plain_append_left {s : String} (h : '\x1b' ∉ s.toList) (t : String) :
    plain (s ++ t) = s ++ plain t := by
  apply String.toList_injective
  simp only [String.toList_append, toList_plain]
  exact dropControls_of_notMem h _

theorem plain_of_notMem {s : String} (h : '\x1b' ∉ s.toList) : plain s = s := by
  have hempty : plain "" = "" := rfl
  have happend := plain_append_left h ""
  rwa [hempty, String.append_empty] at happend

theorem mem_of_mem_plain {c : Char} {s : String} (h : c ∈ (plain s).toList) : c ∈ s.toList := by
  rw [toList_plain] at h
  exact mem_of_mem_dropControls h

/-- **Nothing is dropped** of a text just where no control sequence begins in it. -/
theorem plain_eq_self_iff {s : String} : plain s = s ↔ ¬ Steers s := by
  simp only [← String.toList_inj, toList_plain, dropControls_eq_self_iff, Steers, not_exists,
    not_and, not_not, ne_eq]

end Abacus.Text
