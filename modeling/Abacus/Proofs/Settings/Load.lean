import Abacus.Command.Run
import Abacus.Proofs.Settings.Entries
import Abacus.Proofs.Toml.Rest

/-!
# Settings — loading them

Loading a file gives settings within their bounds, or a configuration error that the commands show
as a line.  Four things are in the way of that (`Content.Hinders`): a path that the system gives no
access to, a directory where the file should be, bytes that are no text, and a whole number with
more digits than are read.  None of them is a configuration error, and no command catches them.

* `load_eq_unreadable_iff`: a content is unreadable for just what is in the way of reading it.
* `row_of_hinders`: a number that is in the way stands in the text of the file, digit by digit.
* `load_outcome`: what comes of loading, and of a command that loads.
-/

namespace Abacus
open Data Fields Command

/-- What stands in the way of reading a content. -/
def Content.Hinders : Content → Unreadable → Prop
  | .inaccessible, .inaccessible => True
  | .directory,    .directory    => True
  | .file bytes,   .notUtf8      => String.fromUTF8? bytes = none
  | .file bytes,   .oversized n  =>
      ∃ source, String.fromUTF8? bytes = some source ∧ Toml.parse source = .error (.oversized n)
  | _, _ => False

/-- A command that finds a content at the path of its configuration file. -/
def Command.Request.Finds (r : Request) (directory : String) (contents : String → Content)
    (path : String) (content : Content) : Prop :=
  r.path? directory = some path ∧ contents path = content

namespace Settings

variable {words : String → String} {path : String} {content : Content}

/-! ### Settings that are loaded -/

theorem inRange_of_ofDocument {es : Entries} {s : Settings} (h : ofDocument path es = .ok s) :
    s.InRange := by
  unfold ofDocument at h
  split at h
  · cases h
    exact inRange_default
  · exact inRange_of_ofEntries (mapError_eq_ok_iff.mp h)
  · cases h

theorem inRange_of_load {s : Settings} (h : load words path content = .ok s) : s.InRange := by
  unfold load at h
  split at h
  · cases h
    exact inRange_default
  · cases h
  · cases h
  · split at h
    · cases h
    · unfold ofText at h
      split at h
      · cases h
      · cases h
      · exact inRange_of_ofDocument (mapError_eq_ok_iff.mp h)

/-! ### Contents that are unreadable -/

theorem ofText_eq_unreadable_iff {source : String} {why : Unreadable} :
    ofText words path source = .error (.unreadable why) ↔
      ∃ n, why = .oversized n ∧ Toml.parse source = .error (.oversized n) := by
  rw [ofText]
  cases Toml.parse source with
  | error fault =>
      cases fault with
      | malformed => simp
      | oversized n => simp [eq_comm]
  | ok es =>
      refine ⟨fun h => ?_, nofun⟩
      change (ofDocument path es).mapError LoadError.config = _ at h
      cases hd : ofDocument path es with
      | error e => rw [hd] at h; cases h
      | ok s => rw [hd] at h; cases h

/-- **A content is unreadable** for just what is in the way of reading it. -/
theorem load_eq_unreadable_iff {why : Unreadable} :
    load words path content = .error (.unreadable why) ↔ content.Hinders why := by
  cases content with
  | absent => cases why <;> exact ⟨nofun, False.elim⟩
  | inaccessible | directory => cases why <;> simp [load, Content.Hinders]
  | file bytes =>
      rw [load]
      cases hb : String.fromUTF8? bytes with
      | none => cases why <;> simp [Content.Hinders, hb]
      | some source =>
          rw [ofText_eq_unreadable_iff]
          cases why <;> simp [Content.Hinders, hb]

/-- **A number that is in the way** of reading a file stands in its text, digit by digit. -/
theorem row_of_hinders {n : Nat} (h : content.Hinders (.oversized n)) :
    ∃ bytes source, content = .file bytes ∧ String.fromUTF8? bytes = some source ∧
      maxDigits < n ∧ Toml.HasRow n (Toml.unifyLines source.toList) ∧ n ≤ source.length := by
  cases content with
  | absent | inaccessible | directory => cases h
  | file bytes =>
      obtain ⟨source, hb, hp⟩ := h
      exact ⟨bytes, source, rfl, hb, Toml.parse_oversized hp⟩

/-! ### Commands that load -/

theorem events_of_error {e : LoadError} (h : load words path content = .error e) :
    Choices.events words path content = [] := by
  unfold Choices.events
  rw [h]
  split
  · next hok => cases hok
  · rfl

/-- A command that finds a content goes on with the settings in it. -/
theorem run_of_finds {r : Request} {directory : String} {contents : String → Content}
    (hr : r.Finds directory contents path content) :
    ∃ (c : Choices) (go : Settings → Command.Outcome),
      r.run words directory contents = c.withSettings words path content go := by
  obtain ⟨hp, hc⟩ := hr
  cases r with
  | eval sources c =>
      cases hp
      exact ⟨c, fun s => evalAll s sources, by rw [← hc]; rfl⟩
  | tree source c =>
      cases hp
      exact ⟨c, fun s => showTree s source, by rw [← hc]; rfl⟩
  | demo precision => cases hp

/-- What is wrong with the configuration is all that a command shows. -/
theorem run_of_config {r : Request} {directory : String} {contents : String → Content}
    {e : ConfigError} (hr : r.Finds directory contents path content)
    (h : load words path content = .error (.config e)) :
    r.run words directory contents = .ok { exit := 1, lines := [errorLine e.message] } := by
  obtain ⟨c, go, hrun⟩ := run_of_finds hr
  rw [hrun, Choices.withSettings, Choices.settings, h, events_of_error h]

theorem run_of_unreadable {r : Request} {directory : String} {contents : String → Content}
    {why : Unreadable} (hr : r.Finds directory contents path content)
    (h : load words path content = .error (.unreadable why)) :
    r.run words directory contents = .error why := by
  obtain ⟨c, go, hrun⟩ := run_of_finds hr
  rw [hrun, Choices.withSettings, Choices.settings, h]

/-- **Loading settings.**  Where there is no file the settings are the default ones.  Where nothing
is in the way they are within their bounds, or there is a configuration error, which commands show
and exit with one.  What is in the way comes out of loading as it is, and out of the commands. -/
theorem load_outcome (words : String → String) (path : String) (content : Content) :
    (content = .absent → load words path content = .ok {}) ∧
    ((∀ why, ¬ content.Hinders why) →
      (∃ s, load words path content = .ok s ∧ s.InRange) ∨
      ∃ e, load words path content = .error (.config e) ∧
        ∀ r directory contents, Request.Finds r directory contents path content →
          r.run words directory contents = .ok { exit := 1, lines := [errorLine e.message] }) ∧
    ∀ why, content.Hinders why →
      load words path content = .error (.unreadable why) ∧
      (∀ n, why = .oversized n → ∃ bytes source, content = .file bytes ∧
        String.fromUTF8? bytes = some source ∧ maxDigits < n ∧
          Toml.HasRow n (Toml.unifyLines source.toList) ∧ n ≤ source.length) ∧
      ∀ r directory contents, Request.Finds r directory contents path content →
        r.run words directory contents = .error why := by
  refine ⟨?_, fun hclear => ?_, fun why hwhy => ?_⟩
  · rintro rfl
    rfl
  · cases hl : load words path content with
    | ok s => exact .inl ⟨s, rfl, inRange_of_load hl⟩
    | error e =>
        cases e with
        | unreadable why => exact absurd (load_eq_unreadable_iff.mp hl) (hclear why)
        | config e => exact .inr ⟨e, rfl, fun _ _ _ hr => run_of_config hr hl⟩
  · have hl : load words path content = .error (.unreadable why) := load_eq_unreadable_iff.mpr hwhy
    refine ⟨hl, ?_, fun _ _ _ hr => run_of_unreadable hr hl⟩
    rintro n rfl
    exact row_of_hinders hwhy

/-- A file that says `calc` and no more. -/
def unfinished : Content := .file "calc".toUTF8

/-- What is said of a key without a value at the end of a text. -/
def noValue (_ : String) : String :=
  "Expected '=' after a key in a key/value pair (at end of document)"

/-- Without a file the settings are the default ones.  A key without a value is shown as an error,
and a directory in place of the file is not. -/
theorem load_outcome_unfinished :
    load noValue "treecalc.toml" .absent = .ok {} ∧
    ((∀ why, ¬ unfinished.Hinders why) ∧
      Request.Finds (.eval ["1"] {}) "/work" (fun _ => unfinished) "/work/treecalc.toml"
        unfinished ∧
      Request.run noValue "/work" (fun _ => unfinished) (.eval ["1"] {}) =
        .ok { exit := 1, lines := ["Error: Invalid TOML in /work/treecalc.toml: " ++
          "Expected '=' after a key in a key/value pair (at end of document)"] }) ∧
    Content.directory.Hinders .directory ∧
      Request.Finds (.eval ["1"] {}) "/work" (fun _ => .directory) "/work/treecalc.toml"
        .directory ∧
      Request.run noValue "/work" (fun _ => .directory) (.eval ["1"] {}) = .error .directory := by
  have hbytes : String.fromUTF8? "calc".toUTF8 = some "calc" := rfl
  have hparse : Toml.parse "calc" = .error .malformed := rfl
  have hload : load noValue "/work/treecalc.toml" unfinished =
      .error (.config (.notToml "/work/treecalc.toml" (noValue "calc"))) := by
    rw [unfinished, load, hbytes]
    simp only [ofText, hparse]
  have hclear (why : Unreadable) : ¬ unfinished.Hinders why := by
    have hiff : load noValue "/work/treecalc.toml" unfinished = .error (.unreadable why) ↔ _ :=
      load_eq_unreadable_iff
    rw [← hiff, hload]
    nofun
  have hfinds (content : Content) : Request.Finds (.eval ["1"] {}) "/work" (fun _ => content)
      "/work/treecalc.toml" content := ⟨rfl, rfl⟩
  obtain ⟨-, hsettled, -⟩ := load_outcome noValue "/work/treecalc.toml" unfinished
  obtain ⟨-, -, hstopped⟩ := load_outcome noValue "/work/treecalc.toml" .directory
  refine ⟨(load_outcome _ _ _).1 rfl, ⟨hclear, hfinds _, ?_⟩, trivial, hfinds _,
    (hstopped .directory trivial).2.2 _ _ _ (hfinds _)⟩
  rcases hsettled hclear with ⟨s, hs, -⟩ | ⟨e, he, hrun⟩
  · rw [hload] at hs
    cases hs
  · rw [hload] at he
    cases he
    exact hrun _ _ _ (hfinds _)

/-- A file that says `[calc]` and `precisiv`, and ends with an `é` of Latin 1. -/
def latin : Content :=
  .file ⟨#[0x5b, 0x63, 0x61, 0x6c, 0x63, 0x5d, 0x0a, 0x70, 0x72, 0x65, 0x63, 0x69, 0x73, 0x69, 0x76,
    0xe9]⟩

/-- **A file that is no text** gives neither settings nor a configuration error, and no line. -/
theorem load_latin :
    ¬ ((∃ s, load noValue "treecalc.toml" latin = .ok s) ∨
        ∃ e, load noValue "treecalc.toml" latin = .error (.config e)) ∧
      Request.run noValue "/work" (fun _ => latin) (.eval ["1"] {}) = .error .notUtf8 := by
  have hbytes : latin.Hinders .notUtf8 := rfl
  have hload (path : String) : load noValue path latin = .error (.unreadable .notUtf8) :=
    load_eq_unreadable_iff.mpr hbytes
  refine ⟨?_, run_of_unreadable ⟨rfl, rfl⟩ (hload "/work/treecalc.toml")⟩
  rw [hload]
  rintro (⟨s, hs⟩ | ⟨e, he⟩)
  · cases hs
  · cases he

end Settings

end Abacus
