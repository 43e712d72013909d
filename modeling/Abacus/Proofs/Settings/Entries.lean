import Abacus.Settings.Basic

/-!
# Settings — one field at a time

Settings are read from named values all at once, and each field by itself all the same: a field is
what is read from the value behind its name, or its default (`Field.Takes`).

* `ofEntries_eq_ok_iff`: named values make settings when each field is read, and no name is unknown.
* `accept_datum`: the value of a field within its bounds is read as itself.
* `get?_setAll`: what stands behind a name after other values were set.
-/

namespace Abacus.Data.Entries

variable {es us : Entries} {key k : String} {d : Datum}

/-! ### Entries set in other entries -/

theorem get?_cons (e : String × Datum) (es : Entries) (k : String) :
    get? (e :: es) k = if k = e.1 then some e.2 else es.get? k := by
  rw [get?, List.lookup_cons]
  by_cases h : k = e.1
  · rw [if_pos h, h, beq_self_eq_true]
  · rw [if_neg h, beq_false_of_ne h]
    rfl

theorem get?_set (es : Entries) (key : String) (d : Datum) (k : String) :
    (es.set key d).get? k = if k = key then some d else es.get? k := by
  induction es with
  | nil => rw [set, get?_cons]
  | cons e es ih =>
      obtain ⟨j, b⟩ := e
      rw [set, get?_cons]
      by_cases hj : j = key
      · subst hj
        rw [if_pos (beq_self_eq_true j), get?_cons]
        split
        · rfl
        · rfl
      · rw [if_neg (by simpa using hj), get?_cons, ih]
        by_cases hk : k = key
        · subst hk
          simp [Ne.symm hj]
        · simp [hk]

/-- Of entries with distinct keys each has its value. -/
theorem get?_of_mem (hd : (es.map Prod.fst).Nodup) {e : String × Datum} (h : e ∈ es) :
    es.get? e.1 = some e.2 := by
  induction es with
  | nil => cases h
  | cons f es ih =>
      rw [List.map_cons, List.nodup_cons] at hd
      rw [get?_cons]
      rcases List.mem_cons.mp h with rfl | h
      · exact if_pos rfl
      · have hne : e.1 ≠ f.1 := fun he => hd.1 (List.mem_map.mpr ⟨e, h, he⟩)
        rw [if_neg hne, ih hd.2 h]

theorem get?_eq_none_iff : es.get? k = none ↔ k ∉ es.map Prod.fst := by
  induction es with
  | nil => simp [get?]
  | cons e es ih =>
      rw [get?_cons, List.map_cons, List.mem_cons, not_or, ← ih]
      by_cases h : k = e.1
      · simp [h]
      · simp [h]

theorem mem_of_get? (h : es.get? k = some d) : (k, d) ∈ es := by
  induction es with
  | nil => cases h
  | cons e es ih =>
      rw [get?_cons] at h
      split at h
      · next hk => cases h; subst hk; exact List.mem_cons_self
      · exact List.mem_cons_of_mem _ (ih h)

/-- Set entries with distinct keys stand before the old ones. -/
theorem get?_setAll (hd : (us.map Prod.fst).Nodup) (es : Entries) (k : String) :
    (es.setAll us).get? k = (us.get? k).or (es.get? k) := by
  induction us generalizing es with
  | nil => rfl
  | cons u us ih =>
      rw [List.map_cons, List.nodup_cons] at hd
      rw [setAll, List.foldl_cons, ← setAll, ih hd.2, get?_set, get?_cons]
      by_cases hk : k = u.1
      · subst hk
        rw [if_pos rfl, if_pos rfl, get?_eq_none_iff.mpr hd.1]
        rfl
      · rw [if_neg hk, if_neg hk]

theorem mem_keys_iff : k ∈ es.map Prod.fst ↔ (es.get? k).isSome := by
  rw [Option.isSome_iff_ne_none, Ne, get?_eq_none_iff, Classical.not_not]

theorem mem_keys_setAll (hd : (us.map Prod.fst).Nodup) :
    k ∈ (es.setAll us).map Prod.fst ↔ k ∈ us.map Prod.fst ∨ k ∈ es.map Prod.fst := by
  rw [mem_keys_iff, get?_setAll hd, Option.isSome_or, Bool.or_eq_true, mem_keys_iff, mem_keys_iff]

end Abacus.Data.Entries

namespace Abacus.Settings
open Data Fields

/-! ### Fields -/

/-- The options of the calculator. -/
inductive Field where
  | strict
  | extended
  | maxDepth
  | precision
  deriving Repr, DecidableEq

namespace Field

def all : List Field := [.strict, .extended, .maxDepth, .precision]

def name : Field → String
  | .strict    => "strict"
  | .extended  => "extended"
  | .maxDepth  => "max_depth"
  | .precision => "precision"

/-- What kind of value a field has. -/
@[reducible] def Value : Field → Type
  | .strict | .extended    => Bool
  | .maxDepth | .precision => Int

/-- A field of settings. -/
def of : (f : Field) → Settings → f.Value
  | .strict,    s => s.strict
  | .extended,  s => s.extended
  | .maxDepth,  s => s.maxDepth
  | .precision, s => s.precision

/-- What a field reads from a value. -/
def accept : (f : Field) → Datum → Except Problem f.Value
  | .strict | .extended => bool
  | .maxDepth           => maxDepthOf
  | .precision          => precisionOf

/-- The value of a field as a value of any type. -/
def datum : (f : Field) → f.Value → Datum
  | .strict | .extended    => .bool
  | .maxDepth | .precision => .int

/-- A value of a field is within the bounds of the field. -/
def Fits : (f : Field) → f.Value → Prop
  | .strict,    _ => True
  | .extended,  _ => True
  | .maxDepth,  n => depthRange.1 ≤ n ∧ n ≤ depthRange.2
  | .precision, n => precisionRange.1 ≤ n ∧ n ≤ precisionRange.2

/-- A field has what is read from a value given for it, or else what it has by default. -/
def Takes (f : Field) (given : Option Datum) (default v : f.Value) : Prop :=
  match given with
  | some d => f.accept d = .ok v
  | none   => v = default

theorem name_inj {f g : Field} (h : f.name = g.name) : f = g := by
  cases f <;> cases g <;> first | rfl | exact absurd h (by decide)

end Field

theorem mem_names_iff {k : String} : k ∈ names ↔ ∃ f : Field, f.name = k := by
  rw [show names = Field.all.map Field.name from rfl, List.mem_map]
  exact ⟨fun ⟨f, _, h⟩ => ⟨f, h⟩, fun ⟨f, h⟩ => ⟨f, by cases f <;> decide, h⟩⟩

theorem get?_toEntries (s : Settings) (f : Field) :
    s.toEntries.get? f.name = some (f.datum (f.of s)) := by
  cases f <;> rfl

/-- Settings are their fields. -/
theorem ext_fields {s t : Settings} (h : ∀ f : Field, f.of s = f.of t) : s = t := by
  obtain ⟨a, b, c, e⟩ := s
  obtain ⟨a', b', c', e'⟩ := t
  have hs : a = a' := h .strict
  have hx : b = b' := h .extended
  have hm : c = c' := h .maxDepth
  have hp : e = e' := h .precision
  rw [hs, hx, hm, hp]

theorem exists_settings {p : (f : Field) → f.Value → Prop} (h : ∀ f, ∃ v, p f v) :
    ∃ s : Settings, ∀ f, p f (f.of s) := by
  obtain ⟨a, ha⟩ := h .strict
  obtain ⟨b, hb⟩ := h .extended
  obtain ⟨c, hc⟩ := h .maxDepth
  obtain ⟨e, he⟩ := h .precision
  exact ⟨⟨a, b, c, e⟩, fun f => by cases f <;> assumption⟩

theorem inRange_iff {s : Settings} : s.InRange ↔ ∀ f : Field, f.Fits (f.of s) := by
  constructor
  · rintro ⟨hm, hm', hp, hp'⟩ (_ | _ | _ | _)
    · trivial
    · trivial
    · exact ⟨hm, hm'⟩
    · exact ⟨hp, hp'⟩
  · intro h
    exact ⟨(h .maxDepth).1, (h .maxDepth).2, h .precision⟩

theorem intBetween_eq_ok_iff {least greatest v : Int} {d : Datum} :
    intBetween least greatest d = .ok v ↔ int d = .ok v ∧ least ≤ v ∧ v ≤ greatest := by
  rw [intBetween]
  cases int d with
  | error p => simp
  | ok n =>
      simp only
      split
      · simp only [reduceCtorEq, Except.ok.injEq, false_iff]; omega
      · split
        · simp only [reduceCtorEq, Except.ok.injEq, false_iff]; omega
        · simp only [Except.ok.injEq]; omega

/-- What a field reads is within its bounds. -/
theorem fits_of_accept {f : Field} {d : Datum} {v : f.Value} (h : f.accept d = .ok v) :
    f.Fits v := by
  cases f with
  | strict | extended => trivial
  | maxDepth | precision => exact (intBetween_eq_ok_iff.mp h).2

/-- What is within the bounds of a field is read as itself. -/
theorem accept_datum {f : Field} {v : f.Value} (h : f.Fits v) : f.accept (f.datum v) = .ok v := by
  cases f with
  | strict | extended => rfl
  | maxDepth | precision =>
      show intBetween _ _ (.int v) = .ok v
      exact intBetween_eq_ok_iff.mpr ⟨rfl, h⟩

/-! ### Settings from named values -/

theorem mapError_eq_ok_iff {α β ε : Type} {x : Except ε α} {f : ε → β} {a : α} :
    x.mapError f = .ok a ↔ x = .ok a := by
  cases x with
  | error e => exact ⟨nofun, nofun⟩
  | ok b => exact ⟨fun h => congrArg _ (Except.ok.inj h), fun h => congrArg _ (Except.ok.inj h)⟩

theorem withDefault_eq_ok_iff (f : Field) {es : Entries} {default v : f.Value} :
    withDefault es f.accept f.name default = .ok v ↔ f.Takes (es.get? f.name) default v := by
  rw [withDefault]
  unfold Field.Takes
  cases es.get? f.name with
  | none => exact ⟨fun h => (Except.ok.inj h).symm, fun h => h ▸ rfl⟩
  | some d =>
      change given f.accept f.name d = .ok v ↔ f.accept d = .ok v
      rw [given, mapError_eq_ok_iff]

theorem unknownFields_eq_nil_iff {known : List String} {es : Entries} :
    unknownFields known es = [] ↔ ∀ k ∈ es.map Prod.fst, k ∈ known := by
  rw [unknownFields, List.filterMap_eq_nil_iff]
  simp

/-- **Named values make settings** when each field is read and every name is that of a field. -/
theorem ofEntries_eq_ok_iff {es : Entries} {s : Settings} :
    ofEntries es = .ok s ↔
      (∀ f : Field, f.Takes (es.get? f.name) (f.of {}) (f.of s)) ∧
        ∀ k ∈ es.map Prod.fst, ∃ f : Field, f.name = k := by
  have hread (f : Field) :
      withDefault es f.accept f.name (f.of {}) = .ok (f.of s) ↔
        f.Takes (es.get? f.name) (f.of {}) (f.of s) := withDefault_eq_ok_iff f
  have hnames : unknownFields names es = [] ↔ ∀ k ∈ es.map Prod.fst, ∃ f : Field, f.name = k := by
    simp only [unknownFields_eq_nil_iff, mem_names_iff]
  simp only [← hread, ← hnames]
  unfold ofEntries
  dsimp only
  split
  · next hs hx hm hp hu =>
      constructor
      · rintro ⟨⟩
        exact ⟨fun f => by cases f <;> assumption, hu⟩
      · rintro ⟨h, -⟩
        refine congrArg Except.ok (ext_fields fun f => ?_)
        refine Except.ok.inj (Eq.trans ?_ (h f))
        cases f <;> exact Eq.symm (by assumption)
  · next hno =>
      refine ⟨nofun, fun ⟨h, hu⟩ => ?_⟩
      exact absurd hu (hno _ _ _ _ (h .strict) (h .extended) (h .maxDepth) (h .precision))

theorem inRange_default : ({} : Settings).InRange := by decide

theorem fits_of_takes {f : Field} {d? : Option Datum} {default v : f.Value}
    (h : f.Takes d? default v) (hd : f.Fits default) : f.Fits v := by
  cases d? with
  | none => exact h ▸ hd
  | some d => exact fits_of_accept h

theorem inRange_of_ofEntries {es : Entries} {s : Settings} (h : ofEntries es = .ok s) :
    s.InRange :=
  inRange_iff.mpr fun f =>
    fits_of_takes ((ofEntries_eq_ok_iff.mp h).1 f) (inRange_iff.mp inRange_default f)

end Abacus.Settings
