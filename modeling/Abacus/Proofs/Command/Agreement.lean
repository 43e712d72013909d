import Abacus.Proofs.Calculation
import Abacus.Proofs.Command.Output
import Abacus.Proofs.Decimal.Significant
import Abacus.Proofs.Expr.Visible
import Abacus.Proofs.Failure.Report
import Abacus.Proofs.Settings.Change

/-!
# Command — the values of texts, and their trees

`eval` calculates a record of each text and goes on after a failure; `tree` reads and evaluates one
text, shows what it has so far, and stops at a failure.  They come to the same, on every output that
has the characters of the texts.

What `eval` prints of a text that has a value begins with the text, as the output takes it: where
that is no terminal, without the control sequences in it.  All else that the two print is visible,
or quoted and printable, but for the text in the context of a parse error.

* `Choices.settings_of_load`: choices without a precision are taken, whatever the configuration.
* `shows_printed`: what `tree` prints of a text, beside what `eval` prints of it.
* `eval_agrees_with_tree`: so the commands agree, whatever the texts, the choices and the
  configuration.
* `eval_parts_from_tree`: a text that is not printed as it is, and one that is not printed at all.
-/

namespace Abacus

namespace Command
open Failure Data Grammar Text

/-! ### Choices -/

variable {words : String → String} {path : String} {content : Content} {c : Choices} {s : Settings}

namespace Choices

/-- Choices as a change of settings. -/
def overrides (c : Choices) : Settings.Overrides := ⟨c.toEntries, by simp [toEntries]⟩

theorem acceptable_overrides (hp : c.precision = none) : c.overrides.Acceptable := by
  intro e he hnull
  have hentries : c.overrides.entries = c.toEntries := rfl
  simp only [hentries, toEntries, hp, List.mem_cons, List.not_mem_nil, or_false] at he
  rcases he with rfl | rfl | rfl
  · cases hs : c.strict with
    | none => simp [hs, Datum.isNull] at hnull
    | some b => exact ⟨.strict, rfl, b, rfl⟩
  · cases hb : c.basic with
    | false => simp [hb, Datum.isNull] at hnull
    | true => exact ⟨.extended, rfl, false, rfl⟩
  · simp [Datum.isNull] at hnull

/-- Choices without a precision are taken, whatever the settings. -/
theorem settings_of_load (hp : c.precision = none) (h : Settings.load words path content = .ok s) :
    ∃ t, c.settings words path content = .ok t ∧ t.InRange := by
  have hs := Settings.inRange_of_load h
  obtain ⟨t, ht⟩ := (Settings.change_accepted_iff hs c.overrides).mpr (acceptable_overrides hp)
  refine ⟨t, ?_, Settings.inRange_of_change hs ht⟩
  have hchange : s.change c.toEntries = .ok t := ht
  rw [settings, h]
  simp only [hchange]
  rfl

theorem withSettings_of_ok (h : c.settings words path content = .ok s) (go : Settings → Outcome) :
    c.withSettings words path content go =
      .ok { go s with events := events words path content ++ (go s).events } := by
  rw [withSettings, h]

end Choices

/-! ### One text -/

/-- What stands before the value of a tree. -/
def heading (t : Expr) : String :=
  "Tree:  " ++ t.render ++ "\n" ++ "Depth: " ++ toString t.depth ++ "\n"

/-- What `tree` prints of a text on an output, and what `eval` does. -/
inductive Shows (out : Output) (s : Settings) (source : String) : Printed → Printed → Prop
  /-- The value stands at the end of both. -/
  | value {t : Expr} {v : Float} {shown : String} :
      Grammar.parse source s.parsing = .ok t → evaluate t = .ok v →
      valueText v s.precision = .ok shown →
        Shows out s source
          ⟨0, heading t ++ ("Value: " ++ shown ++ "\n")⟩
          ⟨0, out.passed source ++ " = " ++ shown ++ "\n"⟩
  /-- The tree has no value, and both end with the message about it. -/
  | failure {t : Expr} {e : EvalError} :
      Grammar.parse source s.parsing = .ok t → evaluate t = .error e →
        Shows out s source
          ⟨1, heading t ++ ("Error: " ++ e.message ++ "\n")⟩
          ⟨1, "Error: " ++ e.message ++ "\n"⟩
  /-- The text is refused, and both end with the message about that, `tree` behind its context. -/
  | refusal {e : ParseError} :
      Grammar.parse source s.parsing = .error e →
        Shows out s source
          ⟨1, "Error: " ++ out.passed (⟨source, e.pos + 1⟩ : Site).text ++ "\n" ++
            e.message ++ "\n"⟩
          ⟨1, "Error: " ++ e.message ++ "\n"⟩

theorem Shows.exit_eq {out : Output} {source : String} {tree alone : Printed}
    (h : Shows out s source tree alone) : tree.exit = alone.exit := by
  cases h <;> rfl

theorem exists_valueText (h : s.InRange) (v : Float) :
    ∃ shown, valueText v s.precision = .ok shown ∧ ∀ c ∈ shown.toList, Visible c := by
  obtain ⟨-, -, hlow, hhigh⟩ := h
  obtain ⟨p, hp⟩ := Int.eq_ofNat_of_zero_le (Int.le_trans (by decide) hlow)
  have hsmall : (p : Int) ≤ 17 := hp ▸ hhigh
  rw [hp]
  refine ⟨_, valueText_of_lt v (by omega), ?_⟩
  rw [String.toList_ofList]
  exact visible_valueChars p v

variable {out : Output}

theorem visible_tree (t : Expr) : ∀ c ∈ ("Tree:  " ++ t.render).toList, Visible c :=
  forall_append.mpr ⟨visible_of_all rfl, t.visible_render⟩

theorem visible_depth (t : Expr) : ∀ c ∈ ("Depth: " ++ toString t.depth).toList, Visible c :=
  forall_append.mpr ⟨visible_of_all rfl, visible_repr t.depth⟩

/-- What an output makes of a calculation is the text, as it takes it, and the value. -/
theorem passed_result {source shown : String} (hshown : ∀ c ∈ shown.toList, Visible c) :
    out.passed (source ++ " = " ++ shown) = out.passed source ++ " = " ++ shown := by
  have hvalue : ∀ c ∈ (" = " ++ shown).toList, Visible c :=
    forall_append.mpr ⟨visible_of_all rfl, hshown⟩
  rw [String.append_assoc, Output.passed_append source String.toList_append breaks_space,
    Output.passed_visible hvalue, String.append_assoc]

/-- What is printed of the lines about a tree. -/
theorem printed_tree (hout : out.Usual) {o : Outcome} {t : Expr} {last : String}
    (ho : o.lines = ["Tree:  " ++ t.render, "Depth: " ++ toString t.depth, last])
    (hlast : ∀ c ∈ last.toList, Visible c) :
    o.printed out = ⟨o.exit, heading t ++ (last ++ "\n")⟩ := by
  have hlines : ∀ line ∈ o.lines, ∀ c ∈ line.toList, Visible c := by
    rw [ho]
    exact List.forall_mem_cons.mpr ⟨visible_tree t,
      List.forall_mem_cons.mpr ⟨visible_depth t, List.forall_mem_singleton.mpr hlast⟩⟩
  rw [hout.printed_visible hlines, ho, heading]
  simp only [List.map_cons, List.map_nil, String.join_cons, String.join_nil, String.append_empty,
    String.append_assoc]

/-- The line of a text in `eval`. -/
def line (s : Settings) (source : String) : String :=
  resultLine s.precision (Calculation.ofText source s.parsing)

theorem line_of_message {source message : String}
    (hvalue : (Calculation.ofText source s.parsing).value = none)
    (hmessage : (Calculation.ofText source s.parsing).message = some message) :
    line s source = "Error: " ++ message := by
  rw [line, resultLine, Calculation.render, hvalue, hmessage]
  rfl

/-- The exit code of a record. -/
def exitOf (c : Calculation) : Nat := if c.ok then 0 else 1

section OneText

variable (hout : out.Usual) {source : String} (hsource : out.Encodes source)
include hout hsource

/-- What is printed of a text that is refused. -/
theorem shows_of_refusal {e : ParseError} (he : Grammar.parse source s.parsing = .error e) :
    out.Encodes ("Error: " ++ e.message) ∧
      Shows out s source ((showTree s source).printed out)
        ⟨1, out.passed ("Error: " ++ e.message) ++ "\n"⟩ := by
  have hmessage := legible_message he
  have hline : ∀ c ∈ ("Error: " ++ e.message).toList, Legible source.toList c :=
    forall_append.mpr ⟨legible_of_visible (visible_of_all rfl), hmessage⟩
  have hsite : out.Encodes (⟨source, e.pos + 1⟩ : Site).text := by
    intro c hc
    rcases mem_site hc with hv | rfl | hmem
    · exact hout.visible c hv
    · exact hout.feed
    · exact hsource c hmem
  have hcontext : out.Encodes ("Error: " ++
      ((⟨source, e.pos + 1⟩ : Site).text ++ "\n" ++ e.message)) :=
    (hout.encodes_visible (visible_of_all rfl)).append
      ((hsite.append hout.encodes_feed).append (hout.encodes_legible hmessage hsource))
  have hshow : showTree s source =
      { exit := 1
        lines := ["Error: " ++ ((⟨source, e.pos + 1⟩ : Site).text ++ "\n" ++ e.message)]
        events := Event.ofSource source s.parsing } := by
    rw [showTree, he]
    rfl
  refine ⟨hout.encodes_legible hline hsource, ?_⟩
  rw [hshow, hout.printed_line rfl hcontext, Output.passed_context fun hmem =>
    not_legible_escape _ (hmessage _ hmem), Output.passed_legible hline]
  exact .refusal he

omit hsource in
/-- What is printed of a text whose tree has none. -/
theorem shows_of_failure {t : Expr} {e : EvalError} (ht : Grammar.parse source s.parsing = .ok t)
    (hv : evaluate t = .error e) (hmessage : ∀ c ∈ e.message.toList, Visible c) :
    out.Encodes ("Error: " ++ e.message) ∧
      Shows out s source ((showTree s source).printed out)
        ⟨1, out.passed ("Error: " ++ e.message) ++ "\n"⟩ := by
  have hline : ∀ c ∈ ("Error: " ++ e.message).toList, Visible c :=
    forall_append.mpr ⟨visible_of_all rfl, hmessage⟩
  have hshow : showTree s source =
      { exit := 1
        lines := ["Tree:  " ++ t.render, "Depth: " ++ toString t.depth, "Error: " ++ e.message]
        events := Event.ofSource source s.parsing } := by
    simp only [showTree, ht, hv]
    rfl
  refine ⟨hout.encodes_visible hline, ?_⟩
  rw [hshow, printed_tree hout rfl hline, Output.passed_visible hline]
  exact .failure ht hv

/-- What is printed of a text whose tree has a value. -/
theorem shows_of_value {t : Expr} {v : Float} {shown : String}
    (ht : Grammar.parse source s.parsing = .ok t) (hv : evaluate t = .ok v)
    (hshown : valueText v s.precision = .ok shown) (hvisible : ∀ c ∈ shown.toList, Visible c) :
    out.Encodes (source ++ " = " ++ shown) ∧
      Shows out s source ((showTree s source).printed out)
        ⟨0, out.passed (source ++ " = " ++ shown) ++ "\n"⟩ := by
  have hlast : ∀ c ∈ ("Value: " ++ shown).toList, Visible c :=
    forall_append.mpr ⟨visible_of_all rfl, hvisible⟩
  have hshow : showTree s source =
      { lines := ["Tree:  " ++ t.render, "Depth: " ++ toString t.depth, "Value: " ++ shown]
        events := Event.ofSource source s.parsing } := by
    simp only [showTree, ht, hv, hshown]
    rfl
  refine ⟨(hsource.append (hout.encodes_visible (visible_of_all rfl))).append
    (hout.encodes_visible hvisible), ?_⟩
  rw [passed_result hvisible, hshow, printed_tree hout rfl hlast]
  exact .value ht hv hshown

/-- An output that has the characters of a text has those of its line, and what it prints of the
line and of the tree comes to the same. -/
theorem shows_printed (h : s.InRange) :
    out.Encodes (line s source) ∧
      Shows out s source ((showTree s source).printed out)
        ⟨exitOf (Calculation.ofText source s.parsing), out.passed (line s source) ++ "\n"⟩ := by
  rcases Calculation.ofText_cases source s.parsing with
    ⟨e, he, hc⟩ | ⟨t, l, r, ht, -, hv, hc⟩ | ⟨t, v, ht, hv, hc⟩
  · have hmessage : (Calculation.ofText source s.parsing).message = some e.message := by
      rw [hc]
    rw [line_of_message (by rw [hc]) hmessage, hc]
    exact shows_of_refusal hout hsource he
  · have hmessage : (Calculation.ofText source s.parsing).message =
        some (EvalError.divisionByZero (.binary .div l r)).message := by
      rw [hc]
      rfl
    have hvisible : ∀ c ∈ "Division by zero".toList, Visible c := visible_of_all rfl
    rw [line_of_message (by rw [hc]) hmessage, hc]
    exact shows_of_failure hout ht hv hvisible
  · obtain ⟨shown, hshown, hvisible⟩ := exists_valueText h v
    have hline : line s source = source ++ " = " ++ shown := by
      rw [line, hc]
      simp only [resultLine, Calculation.render, hshown]
      rfl
    rw [hline, hc]
    exact shows_of_value hout hsource ht hv hshown hvisible

end OneText

/-! ### Many texts -/

theorem exit_evalAll (s : Settings) (sources : List String) :
    (evalAll s sources).exit =
      if ∀ source ∈ sources, (Calculation.ofText source s.parsing).ok then 0 else 1 := by
  simp [evalAll, List.countP_eq_zero]

/-- What is printed of many texts is what is printed of each line. -/
theorem printed_evalAll (h : s.InRange) (hout : out.Usual) {sources : List String}
    (hsources : ∀ source ∈ sources, out.Encodes source) :
    (evalAll s sources).printed out = ⟨(evalAll s sources).exit,
      String.join (sources.map fun source => out.passed (line s source) ++ "\n")⟩ := by
  have hlines : (evalAll s sources).lines = sources.map (line s) := List.map_map
  rw [hout.printed, hlines, List.map_map]
  · rfl
  · rw [hlines, List.forall_mem_map]
    exact fun source hsource => (shows_printed hout (hsources source hsource) h).1

/-- How what is printed of many texts, what is printed of each text alone, and what is printed of
its tree agree. -/
structure Agree (out : Output) (s : Settings) (sources : List String) (all : Printed)
    (alone tree : String → Printed) : Prop where
  /-- All succeed just if each does. -/
  exit_iff : all.exit = 0 ↔ ∀ source ∈ sources, (tree source).exit = 0
  /-- A failure does not disturb the others. -/
  text_eq : all.text = String.join (sources.map fun source => (alone source).text)
  /-- Each alone comes to the same as its tree. -/
  each : ∀ source ∈ sources, Shows out s source (tree source) (alone source)
  /-- Where a text is not printed as it is, there is a control sequence in it. -/
  passed_iff : ∀ source ∈ sources,
    out.passed source = source ↔ out.terminal = true ∨ ¬ Text.Steers source

theorem agree (h : s.InRange) (hout : out.Usual) {sources : List String}
    (hsources : ∀ source ∈ sources, out.Encodes source) :
    Agree out s sources ((evalAll s sources).printed out)
      (fun source => (evalAll s [source]).printed out)
      (fun source => (showTree s source).printed out) := by
  have hshows {source : String} (hmem : source ∈ sources) :=
    (shows_printed hout (hsources source hmem) h).2
  have halone {source : String} (hmem : source ∈ sources) :
      (evalAll s [source]).printed out =
        ⟨exitOf (Calculation.ofText source s.parsing), out.passed (line s source) ++ "\n"⟩ := by
    rw [printed_evalAll h hout (List.forall_mem_singleton.mpr (hsources source hmem)),
      exit_evalAll]
    simp [exitOf, String.join]
  have hexit {source : String} (hmem : source ∈ sources) :
      ((showTree s source).printed out).exit = 0 ↔ (Calculation.ofText source s.parsing).ok := by
    rw [(hshows hmem).exit_eq]
    simp [exitOf]
  constructor
  case exit_iff =>
      rw [printed_evalAll h hout hsources, exit_evalAll, ite_eq_left_iff]
      simp only [one_ne_zero, imp_false, not_not]
      exact forall₂_congr fun source hmem => (hexit hmem).symm
  case text_eq =>
      rw [printed_evalAll h hout hsources]
      exact congrArg String.join (List.map_congr_left fun source hmem => by rw [halone hmem])
  case each =>
      intro source hmem
      rw [halone hmem]
      exact hshows hmem
  case passed_iff => exact fun source _ => Output.passed_eq_self_iff

/-- A command that leaves an exit code and a text on an output. -/
def Request.Prints (words : String → String) (directory : String) (contents : String → Content)
    (out : Output) (r : Request) (p : Printed) : Prop :=
  ∃ o, r.run words directory contents = .ok o ∧ o.printed out = p

/-- **A list of texts is calculated as each text is shown.**  Whatever the configuration and the
choices, but for a precision, and on every output that has the characters of the texts, `eval`
succeeds just if `tree` succeeds with each text.  It prints one record for each, as for that text
alone: the text and its value where `tree` ends with one, and else the message that `tree` ends
with.  A configuration error ends both alike. -/
theorem eval_agrees_with_tree (words : String → String) (directory : String)
    (contents : String → Content) (out : Output) (c : Choices) (sources : List String)
    (hp : c.precision = none) (hout : out.Usual) :
    (∀ e, Settings.load words (c.path directory) (contents (c.path directory)) =
        .error (.config e) →
      ∃ p : Printed, p.exit = 1 ∧
        (out.Encodes e.message → p.text = out.passed ("Error: " ++ e.message) ++ "\n") ∧
        (Request.eval sources c).Prints words directory contents out p ∧
        ∀ source, (Request.tree source c).Prints words directory contents out p) ∧
    ∀ s, Settings.load words (c.path directory) (contents (c.path directory)) = .ok s →
      (∀ source ∈ sources, out.Encodes source) →
      ∃ (t : Settings) (all : Printed) (alone tree : String → Printed),
        c.settings words (c.path directory) (contents (c.path directory)) = .ok t ∧
        (Request.eval sources c).Prints words directory contents out all ∧
        (∀ source,
          (Request.eval [source] c).Prints words directory contents out (alone source)) ∧
        (∀ source, (Request.tree source c).Prints words directory contents out (tree source)) ∧
        Agree out t sources all alone tree := by
  refine ⟨fun e he => ?_, fun s hs hsources => ?_⟩
  · have hrun {r : Request} (hr : r.path? directory = some (c.path directory)) :
        r.run words directory contents = .ok { exit := 1, lines := [errorLine e.message] } :=
      Settings.run_of_config ⟨hr, rfl⟩ he
    refine ⟨_, ?_, fun hencodes => ?_, ⟨_, hrun rfl, rfl⟩, fun _ => ⟨_, hrun rfl, rfl⟩⟩
    · rw [Outcome.printed]
      exact ite_self 1
    · rw [hout.printed_line rfl ((hout.encodes_visible (visible_of_all rfl)).append hencodes)]
  · obtain ⟨t, ht, hrange⟩ := Choices.settings_of_load hp hs
    have hrun := Choices.withSettings_of_ok ht
    exact ⟨t, _, _, _, ht, ⟨_, hrun _, rfl⟩,
      fun source => ⟨_, hrun fun s => evalAll s [source], rfl⟩,
      fun source => ⟨_, hrun fun s => showTree s source, rfl⟩, agree hrange hout hsources⟩

/-- A file that is not finished ends both commands alike.  Without a file there are settings, and
the commands agree on a division by zero and a value. -/
theorem eval_agrees_with_tree_quotient :
    ({} : Choices).precision = none ∧ ({} : Output).Usual ∧
    (Settings.load Settings.noValue "/work/treecalc.toml" Settings.unfinished =
        .error (.config (.notToml "/work/treecalc.toml" (Settings.noValue "calc"))) ∧
      ∃ p : Printed, p.exit = 1 ∧
        p.text = "Error: Invalid TOML in /work/treecalc.toml: Expected '=' after a key in a " ++
          "key/value pair (at end of document)\n" ∧
        (Request.eval ["1/0", "1)"] {}).Prints Settings.noValue "/work"
          (fun _ => Settings.unfinished) {} p ∧
        ∀ source, (Request.tree source {}).Prints Settings.noValue "/work"
          (fun _ => Settings.unfinished) {} p) ∧
    Settings.load Settings.noValue "/work/treecalc.toml" .absent = .ok {} ∧
      (∀ source ∈ ["1/0", "1)"], ({} : Output).Encodes source) ∧
      ∃ (t : Settings) (all : Printed) (alone tree : String → Printed),
        ({} : Choices).settings Settings.noValue "/work/treecalc.toml" .absent = .ok t ∧
        (Request.eval ["1/0", "1)"] {}).Prints Settings.noValue "/work" (fun _ => .absent) {} all ∧
        (∀ source, (Request.eval [source] {}).Prints Settings.noValue "/work" (fun _ => .absent) {}
          (alone source)) ∧
        (∀ source, (Request.tree source {}).Prints Settings.noValue "/work" (fun _ => .absent) {}
          (tree source)) ∧
        Agree {} t ["1/0", "1)"] all alone tree := by
  have hbytes : String.fromUTF8? "calc".toUTF8 = some "calc" := rfl
  have hparse : Toml.parse "calc" = .error .malformed := rfl
  have hfault : Settings.load Settings.noValue "/work/treecalc.toml" Settings.unfinished =
      .error (.config (.notToml "/work/treecalc.toml" (Settings.noValue "calc"))) := by
    rw [Settings.unfinished, Settings.load, hbytes]
    simp only [Settings.ofText, hparse]
  have habsent : Settings.load Settings.noValue "/work/treecalc.toml" .absent = .ok {} := rfl
  have hencodes (s : String) : ({} : Output).Encodes s := fun _ _ => rfl
  obtain ⟨p, hexit, htext, hprints⟩ := (eval_agrees_with_tree Settings.noValue "/work"
    (fun _ => Settings.unfinished) {} {} ["1/0", "1)"] rfl usual_default).1 _ hfault
  refine ⟨rfl, usual_default, ⟨hfault, p, hexit, (htext (hencodes _)).trans ?_, hprints⟩, habsent,
    fun source _ => hencodes source, (eval_agrees_with_tree Settings.noValue "/work"
      (fun _ => .absent) {} {} ["1/0", "1)"] rfl usual_default).2 _ habsent
      fun source _ => hencodes source⟩
  rw [Output.passed_of_notMem (by decide)]
  rfl

/-- One, as it is read from its digit. -/
def one : Float := Numeral.value ⟨[1], [], 0⟩

/-- Where a text is read as one, `tree` prints that, and the line of the text has it too. -/
theorem printed_one {out : Output} (hout : out.Usual) {source : String}
    (h : Grammar.parse source ({} : Settings).parsing = .ok (.const one)) :
    (showTree {} source).printed out = ⟨0, "Tree:  1\nDepth: 1\nValue: 1\n"⟩ ∧
      (evalAll {} [source]).exit = 0 ∧ line {} source = source ++ " = " ++ "1" := by
  have hshown : valueText one ({} : Settings).precision = .ok "1" := by decide +kernel
  have hrender : (Expr.const one).render = "1" := by
    rw [Expr.render_eq]
    decide +kernel
  have hdepth : (Expr.const one).depth = 1 := Expr.depth_eq_height _
  have hvalue : evaluate (.const one) = .ok one := evaluate_eq_eval _
  have hrecord : Calculation.ofText source ({} : Settings).parsing =
      { source, expression := some (.const one), value := some one } := by
    rw [Calculation.ofText_of_ok h, Calculation.ofTree_of_ok rfl]
    rfl
  refine ⟨?_, ?_, ?_⟩
  · have hshow : showTree {} source =
        { lines := ["Tree:  " ++ (Expr.const one).render,
            "Depth: " ++ toString (Expr.const one).depth, "Value: " ++ "1"]
          events := Event.ofSource source ({} : Settings).parsing } := by
      simp only [showTree, h, hvalue, hshown]
      rfl
    rw [hshow, printed_tree hout rfl (visible_of_all rfl), heading, hrender, hdepth]
    rfl
  · rw [exit_evalAll, if_pos (List.forall_mem_singleton.mpr (by rw [hrecord]; rfl))]
  · rw [line, hrecord]
    simp only [resultLine, Calculation.render, hshown]
    rfl

/-- What is behind a one is left out of account, where it is no more of the number and neither blank
nor operator. -/
theorem parse_one {c : Char} {k : List Char} {source : String}
    (hsource : source.toList = '1' :: c :: k)
    (hs : Numeral.scan ('1' :: c :: k) = some (⟨[1], [], 0⟩, c :: k)) (hc : isBlank c = false)
    (ho : ∀ l : Level, l.operator true c = none) :
    Grammar.parse source ({} : Settings).parsing = .ok (.const one) := by
  have hskip : skipBlanks (c :: k) = c :: k :=
    List.dropWhile_cons_of_neg (by rw [hc]; exact Bool.false_ne_true)
  have hread : Reads true 100 (.level .expression) source.toList (.ok (.const one, c :: k)) := by
    have hlone : Reads true 100 (.level .expression) source.toList
        (.ok (.const one, skipBlanks (c :: k))) :=
      Reads.lone (hsource ▸ .numeral hs) (by rw [hskip]; rintro l d ⟨⟩; exact ho l)
    rwa [hskip] at hlone
  rw [Grammar.parse, parseChars_of_ok (o := ({} : Settings).parsing) hread.eq]
  rfl

/-- **A text that is not printed as it is.**  A text of one and a change of colour has a value.
Where the output is no terminal, `tree` prints the value, and `eval` prints it with another text in
front of it.  And where the output has no `é`, a text of one and an `é` is shown by `tree`, and ends
`eval`. -/
theorem eval_parts_from_tree :
    ((Request.tree "1\x1b[31m" {}).Prints Settings.noValue "/work" (fun _ => .absent) {}
        ⟨0, "Tree:  1\nDepth: 1\nValue: 1\n"⟩ ∧
      (Request.eval ["1\x1b[31m"] {}).Prints Settings.noValue "/work" (fun _ => .absent) {}
        ⟨0, "1 = 1\n"⟩ ∧
      "1 = 1\n" ≠ "1\x1b[31m" ++ " = " ++ "1" ++ "\n") ∧
    (Request.tree "1é" {}).Prints Settings.noValue "/work" (fun _ => .absent)
        { encodes := fun c => c.toNat < 0x80 } ⟨0, "Tree:  1\nDepth: 1\nValue: 1\n"⟩ ∧
      (Request.eval ["1é"] {}).Prints Settings.noValue "/work" (fun _ => .absent)
        { encodes := fun c => c.toNat < 0x80 } ⟨1, ""⟩ := by
  have hload : ({} : Choices).settings Settings.noValue "/work/treecalc.toml" .absent = .ok {} :=
    rfl
  have hrun := Choices.withSettings_of_ok hload
  have hcolour : Grammar.parse "1\x1b[31m" ({} : Settings).parsing = .ok (.const one) :=
    parse_one (c := '\x1b') (k := "[31m".toList) rfl rfl rfl (by intro l; cases l <;> rfl)
  have haccent : Grammar.parse "1é" ({} : Settings).parsing = .ok (.const one) :=
    parse_one (c := 'é') (k := []) rfl rfl rfl (by intro l; cases l <;> rfl)
  have hascii : Output.Usual { encodes := fun c => c.toNat < 0x80 } :=
    ⟨fun c hc => decide_eq_true (Nat.lt_of_le_of_lt hc.2 (by decide)), by decide⟩
  refine ⟨⟨⟨_, hrun fun s => showTree s "1\x1b[31m", ?_⟩,
    ⟨_, hrun fun s => evalAll s ["1\x1b[31m"], ?_⟩, by decide⟩,
    ⟨_, hrun fun s => showTree s "1é", ?_⟩, ⟨_, hrun fun s => evalAll s ["1é"], ?_⟩⟩
  · exact (printed_one usual_default hcolour).1
  · obtain ⟨-, hexit, hline⟩ := printed_one usual_default hcolour
    have hplain : ({} : Output).passed ("1\x1b[31m" ++ " = " ++ "1") = "1 = 1" := by decide
    have hlines : (evalAll {} ["1\x1b[31m"]).lines = [line {} "1\x1b[31m"] := rfl
    refine (usual_default.printed_line hlines fun _ _ => rfl).trans ?_
    rw [hline, hplain]
    exact congrArg (Printed.mk · "1 = 1\n") hexit
  · exact (printed_one hascii haccent).1
  · obtain ⟨-, -, hline⟩ := printed_one hascii haccent
    have hlines : (evalAll {} ["1é"]).lines = ["1é" ++ " = " ++ "1"] :=
      congrArg (fun line => [line]) hline
    rw [Outcome.printed]
    simp only [hlines]
    decide

end Command
end Abacus
