import Abacus.Command.Run
import Abacus.Proofs.Text.Control
import Abacus.Proofs.Text.Visible
import Mathlib.Data.List.TakeWhile

/-!
# Command — what is put on outputs

An output that has the characters of a text takes it, and puts it there as it is where the output is
a terminal or no control sequence is in the text (`passed_eq_self_iff`).

* `passed_append`, `passed_context`: a text is put on an output in parts.
* `Usual.printed`: what is printed of lines, on an output that has their characters.
-/

namespace Abacus.Command
open Text

namespace Output

/-- The encoding of an output has all characters of a text. -/
def Encodes (out : Output) (s : String) : Prop := ∀ c ∈ s.toList, out.encodes c = true

/-- An output has the visible characters and the end of a line. -/
structure Usual (out : Output) : Prop where
  visible : ∀ c, Visible c → out.encodes c = true
  feed : out.encodes '\n' = true

variable {out : Output} {s t : String}

theorem passed_append (s : String) {c : Char} {k : List Char} (ht : t.toList = c :: k)
    (hc : Breaks c) : out.passed (s ++ t) = out.passed s ++ out.passed t := by
  unfold passed
  split
  · rfl
  · exact plain_append s ht hc

theorem passed_append_left (hs : '\x1b' ∉ s.toList) (t : String) :
    out.passed (s ++ t) = s ++ out.passed t := by
  unfold passed
  split
  · rfl
  · exact plain_append_left hs t

theorem passed_of_notMem (hs : '\x1b' ∉ s.toList) : out.passed s = s := by
  unfold passed
  split
  · rfl
  · exact plain_of_notMem hs

/-- **A text is put on an output as it is** just where the output is a terminal, or no control
sequence is in the text. -/
theorem passed_eq_self_iff : out.passed s = s ↔ out.terminal = true ∨ ¬ Steers s := by
  unfold passed
  split
  · next h => exact iff_of_true rfl (.inl h)
  · next h => rw [plain_eq_self_iff, or_iff_right h]

theorem passed_line (s : String) : out.passed (s ++ "\n") = out.passed s ++ "\n" := by
  rw [passed_append s rfl breaks_feed, passed_of_notMem (s := "\n") (by decide)]

/-- What is visible is put on an output as it is. -/
theorem passed_visible (h : ∀ c ∈ s.toList, Visible c) : out.passed s = s :=
  passed_of_notMem fun hmem => absurd (h _ hmem) (by decide)

theorem passed_legible (h : ∀ c ∈ s.toList, Legible t.toList c) : out.passed s = s :=
  passed_of_notMem fun hmem => not_legible_escape _ (h _ hmem)

theorem takes_of_encodes (h : out.Encodes s) : out.takes s = true := by
  rw [takes, List.all_eq_true]
  intro c hc
  unfold passed at hc
  split at hc
  · exact h c hc
  · exact h c (mem_of_mem_plain hc)

theorem Encodes.append (hs : out.Encodes s) (ht : out.Encodes t) : out.Encodes (s ++ t) :=
  forall_append.mpr ⟨hs, ht⟩

/-- What an output makes of a message behind its context. -/
theorem passed_context {site message : String} (hmessage : '\x1b' ∉ message.toList) :
    out.passed ("Error: " ++ (site ++ "\n" ++ message)) =
      "Error: " ++ out.passed site ++ "\n" ++ message := by
  have hbehind : '\x1b' ∉ ("\n" ++ message).toList := by
    rw [String.toList_append]
    exact List.mem_append.not.mpr (not_or.mpr ⟨by decide, hmessage⟩)
  rw [passed_append_left (by decide), @String.append_assoc site,
    passed_append site String.toList_append breaks_feed, passed_of_notMem hbehind]
  simp only [String.append_assoc]

namespace Usual

variable (hout : out.Usual)
include hout

theorem encodes_visible (hs : ∀ c ∈ s.toList, Visible c) : out.Encodes s :=
  fun c hc => hout.visible c (hs c hc)

theorem encodes_legible (hs : ∀ c ∈ s.toList, Legible t.toList c) (ht : out.Encodes t) :
    out.Encodes s := by
  intro c hc
  rcases hs c hc with hv | ⟨-, hmem⟩
  · exact hout.visible c hv
  · exact ht c hmem

theorem encodes_feed : out.Encodes "\n" := by
  intro c hc
  rw [List.mem_singleton.mp hc]
  exact hout.feed

/-- What is printed of lines that an output has the characters of. -/
theorem printed {o : Outcome} (h : ∀ line ∈ o.lines, out.Encodes line) :
    o.printed out = ⟨o.exit, String.join (o.lines.map fun line => out.passed line ++ "\n")⟩ := by
  have htakes : ∀ line ∈ o.lines, out.takes (line ++ "\n") = true := fun line hline =>
    takes_of_encodes ((h line hline).append hout.encodes_feed)
  have hall : (o.lines.map (· ++ "\n")).takeWhile out.takes = o.lines.map (· ++ "\n") :=
    List.takeWhile_eq_self_iff.mpr (List.forall_mem_map.mpr htakes)
  rw [Outcome.printed, if_pos (List.all_eq_true.mpr htakes), written, hall, List.map_map]
  congr 3
  funext line
  exact passed_line line

/-- What is printed of one line. -/
theorem printed_line {o : Outcome} {line : String} (ho : o.lines = [line])
    (hline : out.Encodes line) : o.printed out = ⟨o.exit, out.passed line ++ "\n"⟩ := by
  rw [hout.printed (by rw [ho]; exact List.forall_mem_singleton.mpr hline), ho]
  simp only [List.map_cons, List.map_nil, String.join_cons, String.join_nil, String.append_empty]

/-- Visible lines are printed as they are. -/
theorem printed_visible {o : Outcome} (h : ∀ line ∈ o.lines, ∀ c ∈ line.toList, Visible c) :
    o.printed out = ⟨o.exit, String.join (o.lines.map (· ++ "\n"))⟩ := by
  rw [hout.printed fun line hline => hout.encodes_visible (h line hline)]
  congr 2
  exact List.map_congr_left fun line hline => by rw [passed_visible (h line hline)]

end Usual

end Output

/-- An output that has every character. -/
theorem usual_default : ({} : Output).Usual := ⟨fun _ _ => rfl, rfl⟩

end Abacus.Command
