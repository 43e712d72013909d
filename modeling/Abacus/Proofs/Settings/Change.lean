import Abacus.Proofs.Settings.Load

/-!
# Settings — a history of changes

Settings are changed again and again, and a change that is refused leaves them as they are.

* `change_eq_ok_iff`: one change.  Each field takes the value given for it, or stays as it is.
* `change_accepted_iff`: whether a change is made depends on the values in it alone, each by itself.
* `takes_after`: hence each field has the last value given for it in a change that was made.
* `change_history`: the whole of it, with the bounds that hold all along.

A field that no value is given for is read again from the value it has.  It is within its bounds,
and so it is read as itself (`accept_datum`).
-/

namespace Abacus.Settings
open Data Fields

/-- Named values for a change, no name twice. -/
structure Overrides where
  entries : Entries
  distinct : (entries.map Prod.fst).Nodup

namespace Overrides

/-- The value given for a field, if there is one. -/
def given (o : Overrides) (f : Field) : Option Datum := (changes o.entries).get? f.name

/-- Every value that is given is one for a field, which accepts it. -/
def Acceptable (o : Overrides) : Prop :=
  ∀ e ∈ o.entries, e.2.isNull = false → ∃ f : Field, f.name = e.1 ∧ ∃ v, f.accept e.2 = .ok v

end Overrides

/-- The settings after some changes, one that is refused changing nothing. -/
def after (s : Settings) : List Overrides → Settings
  | []      => s
  | o :: os =>
      match s.change o.entries with
      | .ok t    => after t os
      | .error _ => after s os

/-- The changes that are made, in order. -/
def made (s : Settings) : List Overrides → List Overrides
  | []      => []
  | o :: os =>
      match s.change o.entries with
      | .ok t    => o :: made t os
      | .error _ => made s os

/-- The last value given for a field. -/
def lastGiven (f : Field) : List Overrides → Option Datum
  | []      => none
  | o :: os => (lastGiven f os).or (o.given f)

/-- Settings made from named values, or loaded from a file. -/
def Initial (s : Settings) : Prop :=
  (∃ es, ofEntries es = .ok s) ∨ ∃ words path content, load words path content = .ok s

variable {s t : Settings} {o : Overrides} {f : Field}

theorem Initial.inRange (h : s.Initial) : s.InRange := by
  rcases h with ⟨es, h⟩ | ⟨words, path, content, h⟩
  · exact inRange_of_ofEntries h
  · exact inRange_of_load h

/-! ### One change -/

theorem mem_changes_iff {es : Entries} {e : String × Datum} :
    e ∈ changes es ↔ e ∈ es ∧ e.2.isNull = false := by
  simp [changes]

theorem Overrides.distinct_changes (o : Overrides) : ((changes o.entries).map Prod.fst).Nodup :=
  o.distinct.sublist (List.filter_sublist.map _)

/-- What is not given is what the settings have, read again. -/
theorem takes_again (h : s.InRange) (d? : Option Datum) {default v : f.Value} :
    f.Takes (d?.or (some (f.datum (f.of s)))) default v ↔ f.Takes d? (f.of s) v := by
  cases d? with
  | some d => exact Iff.rfl
  | none =>
      change f.accept (f.datum (f.of s)) = .ok v ↔ v = f.of s
      rw [accept_datum (inRange_iff.mp h f), Except.ok.injEq, eq_comm]

/-- Values set among those of the settings: the settings with the fields that are given. -/
theorem ofEntries_setAll (h : s.InRange) {us : Entries} (hd : (us.map Prod.fst).Nodup) :
    ofEntries (s.toEntries.setAll us) = .ok t ↔
      (∀ f : Field, f.Takes (us.get? f.name) (f.of s) (f.of t)) ∧
        ∀ k ∈ us.map Prod.fst, ∃ f : Field, f.name = k := by
  have hown : ∀ k ∈ s.toEntries.map Prod.fst, ∃ f : Field, f.name = k := fun k hk =>
    mem_names_iff.mp hk
  rw [ofEntries_eq_ok_iff]
  refine and_congr (forall_congr' fun f => ?_) ⟨fun hk k hu => ?_, fun hk k hu => ?_⟩
  · rw [Entries.get?_setAll hd, get?_toEntries]
    exact takes_again h _
  · exact hk k ((Entries.mem_keys_setAll hd).mpr (.inl hu))
  · exact ((Entries.mem_keys_setAll hd).mp hu).elim (hk k) (hown k)

/-- Settings read again are the same. -/
theorem ofEntries_toEntries (h : s.InRange) : ofEntries s.toEntries = .ok s :=
  (@ofEntries_setAll s s h [] List.nodup_nil).mpr ⟨fun _ => rfl, nofun⟩

theorem override_eq (h : s.InRange) (es : Entries) :
    s.override es = ofEntries (s.toEntries.setAll (changes es)) := by
  rw [override]
  split
  · next hes => rw [hes]; exact (ofEntries_toEntries h).symm
  · next hes => rw [hes]

/-- **One change**: each field takes the value given for it, or stays as it is. -/
theorem change_eq_ok_iff (h : s.InRange) (o : Overrides) :
    s.change o.entries = .ok t ↔
      (∀ f : Field, f.Takes (o.given f) (f.of s) (f.of t)) ∧
        ∀ k ∈ (changes o.entries).map Prod.fst, ∃ f : Field, f.name = k := by
  rw [change, mapError_eq_ok_iff, override_eq h]
  exact ofEntries_setAll h o.distinct_changes

theorem inRange_of_change (h : s.InRange) (ht : s.change o.entries = .ok t) : t.InRange :=
  inRange_iff.mpr fun f =>
    fits_of_takes (((change_eq_ok_iff h o).mp ht).1 f) (inRange_iff.mp h f)

/-- **Whether a change is made** depends on each value in it alone. -/
theorem change_accepted_iff (h : s.InRange) (o : Overrides) :
    (∃ t, s.change o.entries = .ok t) ↔ o.Acceptable := by
  constructor
  · rintro ⟨t, ht⟩ e he hnull
    have hmem : e ∈ changes o.entries := mem_changes_iff.mpr ⟨he, hnull⟩
    obtain ⟨htakes, hnames⟩ := (change_eq_ok_iff h o).mp ht
    obtain ⟨f, hf⟩ := hnames e.1 (List.mem_map_of_mem hmem)
    refine ⟨f, hf, f.of t, ?_⟩
    have hgiven : o.given f = some e.2 := by
      rw [Overrides.given, hf]
      exact Entries.get?_of_mem o.distinct_changes hmem
    have htake := htakes f
    rwa [hgiven] at htake
  · intro ha
    -- The changed settings are put together field by field.
    have hvalue (f : Field) : ∃ v, f.Takes (o.given f) (f.of s) v := by
      cases hg : o.given f with
      | none => exact ⟨_, rfl⟩
      | some d =>
          obtain ⟨hd, hnull⟩ := mem_changes_iff.mp (Entries.mem_of_get? hg)
          obtain ⟨g, hname, v, hv⟩ := ha _ hd hnull
          obtain rfl := Field.name_inj hname
          exact ⟨v, hv⟩
    obtain ⟨t, ht⟩ := exists_settings hvalue
    refine ⟨t, (change_eq_ok_iff h o).mpr ⟨ht, fun k hk => ?_⟩⟩
    obtain ⟨e, he, rfl⟩ := List.mem_map.mp hk
    obtain ⟨he, hnull⟩ := mem_changes_iff.mp he
    obtain ⟨f, hf, -⟩ := ha e he hnull
    exact ⟨f, hf⟩

theorem change_of_null (s : Settings) (h : ∀ e ∈ o.entries, e.2.isNull) :
    s.change o.entries = .ok s := by
  have hnone : changes o.entries = [] :=
    List.filter_eq_nil_iff.mpr fun e he => by simp [h e he]
  rw [change, override, hnone]
  rfl

/-! ### A history of changes -/

theorem inRange_after (h : s.InRange) (os : List Overrides) : (after s os).InRange := by
  induction os generalizing s with
  | nil => exact h
  | cons o os ih =>
      rw [after]
      split
      · next ht => exact ih (inRange_of_change h ht)
      · exact ih h

/-- What is given later counts, or else what is given before. -/
theorem Field.Takes.trans {d? e? : Option Datum} {default v w : f.Value}
    (h : f.Takes d? default v) (h' : f.Takes e? v w) : f.Takes (e?.or d?) default w := by
  cases e? with
  | none => exact (show w = v from h') ▸ h
  | some d => exact h'

/-- **Each field** has the last value given for it in a change that was made. -/
theorem takes_after (h : s.InRange) (os : List Overrides) (f : Field) :
    f.Takes (lastGiven f (made s os)) (f.of s) (f.of (after s os)) := by
  induction os generalizing s with
  | nil => rfl
  | cons o os ih =>
      rw [after, made]
      split
      · next ht =>
          -- What is given in the first change stands unless a later one gives something else.
          rw [lastGiven]
          exact (((change_eq_ok_iff h o).mp ht).1 f).trans (ih (inRange_of_change h ht))
      · exact ih h

/-- **A history of changes.**  Settings stay within their bounds, and each field has the last value
given for it in a change that was made, or the one it began with.  The next change is made just if
each value in it is one that a field accepts, is none where all values are null, and is a
configuration error where it is refused. -/
theorem change_history (hs : s.Initial) (os : List Overrides) (o : Overrides) :
    (after s os).InRange ∧
    (∀ f : Field, f.Takes (lastGiven f (made s os)) (f.of s) (f.of (after s os))) ∧
    ((∃ t, (after s os).change o.entries = .ok t) ↔ o.Acceptable) ∧
    ((∀ e ∈ o.entries, e.2.isNull) → (after s os).change o.entries = .ok (after s os)) ∧
    ∀ e, (after s os).change o.entries = .error e → e.kind = .config := by
  have h := inRange_after hs.inRange os
  exact ⟨h, takes_after hs.inRange os, change_accepted_iff h o, change_of_null _, fun _ _ => rfl⟩

/-- A change of one option. -/
def Overrides.one (key : String) (d : Datum) : Overrides := ⟨[(key, d)], by simp⟩

/-- Nine digits are asked for, and then three together with a limit that is too large. -/
def nineThenThree : List Overrides :=
  [.one "precision" (.int 9), ⟨[("max_depth", .int 500), ("precision", .int 3)], by decide⟩]

/-- The second change is refused as a whole, and nine digits it is. -/
theorem change_history_nineThenThree :
    Initial {} ∧ after {} nineThenThree = { precision := 9 } ∧ (after {} nineThenThree).InRange ∧
    Field.Takes .precision (lastGiven .precision (made {} nineThenThree)) 6 9 ∧
    ((Overrides.one "extended" (.int 0)).Acceptable ∧
      ∃ t, (after {} nineThenThree).change [("extended", .int 0)] = .ok t) ∧
    (∀ e ∈ [("strict", Datum.null)], e.2.isNull) ∧
      (after {} nineThenThree).change [("strict", .null)] = .ok { precision := 9 } := by
  have hs : Initial {} := .inl ⟨[], rfl⟩
  have hnull : ∀ e ∈ [("strict", Datum.null)], e.2.isNull := by simp [Datum.isNull]
  have haccept : (Overrides.one "extended" (.int 0)).Acceptable := by
    intro e he _
    cases List.mem_singleton.mp he
    exact ⟨.extended, rfl, false, rfl⟩
  obtain ⟨hrange, htakes, hmade, -, -⟩ :=
    change_history hs nineThenThree (.one "extended" (.int 0))
  obtain ⟨-, -, -, hsame, -⟩ := change_history hs nineThenThree (.one "strict" .null)
  exact ⟨hs, rfl, hrange, htakes .precision, ⟨haccept, hmade.mpr haccept⟩, hnull, hsame hnull⟩

end Abacus.Settings
