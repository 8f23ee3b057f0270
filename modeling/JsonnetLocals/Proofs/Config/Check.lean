/-
  JsonnetLocals.Proofs.Config.Check — which settings pass the check.

  The check gives settings exactly when every single check gives its value (`Draft.check_eq_ok_iff`).
  So the separator of settings that passed holds nothing but separator characters
  (`Draft.separator_of_check`).
  - Each single check gives a value just when it was given that value, of the right kind; so what passes is
    the draft of the settings that it gives, and those are valid (`Draft.check_eq_ok_iff_draft`).
  - Only the check of the strategy can stop at a value that cannot be looked up, and it is reached when
    all that is checked before it is right (`Draft.check_stops_iff`).
-/

import JsonnetLocals.Config.Settings
import Mathlib.Tactic.Common

namespace JsonnetLocals

/-- A computation in sequence gives a value when both parts do. -/
theorem bind_eq_ok_iff {ε α β : Type} {x : Except ε α} {f : α → Except ε β} {b : β} :
    (x >>= f) = .ok b ↔ ∃ a, x = .ok a ∧ f a = .ok b := by
  cases x with
  | error e =>
    refine iff_of_false ?_ ?_
    · intro h
      cases h
    · rintro ⟨a, h, -⟩
      cases h
  | ok a =>
    constructor
    · intro h
      exact ⟨a, rfl, h⟩
    · rintro ⟨a', h, h'⟩
      cases h
      exact h'

namespace Draft

variable {d : Draft} {c : Config}

/-- Each setting passes its own check, with the value that it has in the settings. -/
structure Passes (d : Draft) (c : Config) : Prop where
  version : checkVersion d.version = .ok ()
  name : checkText .badName d.name = .ok c.name
  outputDir : checkText .badOutputDir d.outputDir = .ok c.outputDir
  separator : checkSeparator d.separator = .ok c.separator
  addHeader : checkAddHeader d.addHeader = .ok c.addHeader
  conflictStrategy : checkStrategy d.conflictStrategy = .ok c.conflictStrategy
  projectRoot : checkProjectRoot d.projectRoot = .ok c.projectRoot
  logLevel : checkLogLevel d.logLevel = .ok c.logLevel

theorem check_eq_ok_iff : d.check = .ok c ↔ d.Passes c := by
  unfold check
  simp only [bind_eq_ok_iff]
  constructor
  · rintro ⟨_, hversion, _, hname, _, hdir, _, hsep, _, hheader, _, hstrategy, _, hroot, _, hlevel, h⟩
    cases h
    exact ⟨hversion, hname, hdir, hsep, hheader, hstrategy, hroot, hlevel⟩
  · rintro ⟨hversion, hname, hdir, hsep, hheader, hstrategy, hroot, hlevel⟩
    exact ⟨_, hversion, _, hname, _, hdir, _, hsep, _, hheader, _, hstrategy, _, hroot, _, hlevel, rfl⟩

theorem separator_of_check (h : d.check = .ok c) : c.separator.chars.all isSeparatorChar = true := by
  have hsep := (check_eq_ok_iff.mp h).separator
  unfold checkSeparator at hsep
  split at hsep
  · split at hsep
    · rename_i hall
      obtain rfl := Except.ok.inj hsep
      exact hall
    · cases hsep
  · cases hsep

/-! ## The single checks -/

end Draft

theorem ConflictStrategy.ofLabel?_eq_some_iff {s : Text} {c : ConflictStrategy} : ofLabel? s = some c ↔ s = c.label := by
  constructor
  · intro h
    unfold ofLabel? at h
    have hlabel : (c.label == s) = true := by simpa using List.find?_some h
    exact (eq_of_beq hlabel).symm
  · rintro rfl
    cases c <;> decide +kernel

namespace Draft

section Single

variable {v : Json} {t : Text}

/-- A value that is kept under a condition. -/
theorem ite_eq_ok_iff {ε α : Type} {p : Prop} [Decidable p] {a b : α} {e : ε} :
    (if p then Except.ok a else .error e) = Except.ok b ↔ p ∧ a = b := by
  by_cases hp : p <;> simp [hp]

theorem checkVersion_eq_ok_iff {u : Unit} : checkVersion v = .ok u ↔ v = .str configVersion := by
  cases v with
  | str s => simp only [checkVersion, ite_eq_ok_iff, and_true, Json.str.injEq]
  | _ => simp [checkVersion]

theorem checkText_eq_ok_iff {e : ConfigError} : checkText e v = .ok t ↔ v = .str t ∧ t.isEmpty = false := by
  cases v with
  | str s =>
    cases hs : s.isEmpty with
    | true =>
      refine iff_of_false (by simp [checkText, hs]) ?_
      rintro ⟨h, ht⟩
      obtain rfl := Json.str.inj h
      rw [hs] at ht
      cases ht
    | false =>
      simp only [checkText, hs, Bool.false_eq_true, if_false, Except.ok.injEq, Json.str.injEq]
      exact ⟨fun h => ⟨h, h ▸ hs⟩, And.left⟩
  | _ => simp [checkText]

theorem checkSeparator_eq_ok_iff : checkSeparator v = .ok t ↔ v = .str t ∧ t.chars.all isSeparatorChar = true := by
  cases v with
  | str s =>
    simp only [checkSeparator, ite_eq_ok_iff, Json.str.injEq]
    constructor
    · rintro ⟨hs, rfl⟩
      exact ⟨rfl, hs⟩
    · rintro ⟨rfl, hs⟩
      exact ⟨hs, rfl⟩
  | _ => simp [checkSeparator]

theorem checkAddHeader_eq_ok_iff {b : Bool} : checkAddHeader v = .ok b ↔ v = .bool b := by
  cases v <;> simp [checkAddHeader]

theorem checkStrategy_eq_ok_iff {s : ConflictStrategy} : checkStrategy v = .ok s ↔ v = .str s.label := by
  cases v with
  | str t =>
    rw [Json.str.injEq, ← ConflictStrategy.ofLabel?_eq_some_iff]
    cases ht : ConflictStrategy.ofLabel? t <;> simp [checkStrategy, ht]
  | _ => simp [checkStrategy]

theorem checkProjectRoot_eq_ok_iff {r : Option Text} :
    checkProjectRoot v = .ok r ↔ v = match r with | none => .null | some s => .str s := by
  cases v <;> cases r <;> simp [checkProjectRoot]

theorem checkLogLevel_eq_ok_iff : checkLogLevel v = .ok t ↔ v = .str t ∧ (LogLevel.ofName? t).isSome = true := by
  cases v with
  | str s =>
    simp only [checkLogLevel, ite_eq_ok_iff, Json.str.injEq]
    constructor
    · rintro ⟨hs, rfl⟩
      exact ⟨rfl, hs⟩
    · rintro ⟨rfl, hs⟩
      exact ⟨hs, rfl⟩
  | _ => simp [checkLogLevel]

end Single

end Draft

/-! ## What passes -/

structure Config.Valid (c : Config) : Prop where
  name : c.name.isEmpty = false
  outputDir : c.outputDir.isEmpty = false
  separator : c.separator.chars.all isSeparatorChar = true
  logLevel : (LogLevel.ofName? c.logLevel).isSome = true

namespace Draft

variable {d : Draft} {c : Config}

/-- The check gives back what it was given. -/
theorem check_eq_ok_iff_draft : d.check = .ok c ↔ d = c.draft ∧ c.Valid := by
  rw [check_eq_ok_iff]
  constructor
  · intro h
    obtain ⟨hname, hname'⟩ := checkText_eq_ok_iff.mp h.name
    obtain ⟨hdir, hdir'⟩ := checkText_eq_ok_iff.mp h.outputDir
    obtain ⟨hsep, hsep'⟩ := checkSeparator_eq_ok_iff.mp h.separator
    obtain ⟨hlevel, hlevel'⟩ := checkLogLevel_eq_ok_iff.mp h.logLevel
    refine ⟨?_, hname', hdir', hsep', hlevel'⟩
    cases d
    exact (Draft.mk.injEq ..).mpr ⟨checkVersion_eq_ok_iff.mp h.version, hname, hdir, hsep, checkAddHeader_eq_ok_iff.mp h.addHeader,
      checkStrategy_eq_ok_iff.mp h.conflictStrategy, checkProjectRoot_eq_ok_iff.mp h.projectRoot, hlevel⟩
  · rintro ⟨rfl, h⟩
    exact {
      version := checkVersion_eq_ok_iff.mpr rfl
      name := checkText_eq_ok_iff.mpr ⟨rfl, h.name⟩
      outputDir := checkText_eq_ok_iff.mpr ⟨rfl, h.outputDir⟩
      separator := checkSeparator_eq_ok_iff.mpr ⟨rfl, h.separator⟩
      addHeader := checkAddHeader_eq_ok_iff.mpr rfl
      conflictStrategy := checkStrategy_eq_ok_iff.mpr rfl
      projectRoot := checkProjectRoot_eq_ok_iff.mpr rfl
      logLevel := checkLogLevel_eq_ok_iff.mpr ⟨rfl, h.logLevel⟩ }

/-! ## What cannot be looked up -/

/-- All that is checked before the strategy is right, and the strategy is a list or an object. -/
structure StopsAtStrategy (d : Draft) : Prop where
  version : d.version = .str configVersion
  name : ∃ t, d.name = .str t ∧ t.isEmpty = false
  outputDir : ∃ t, d.outputDir = .str t ∧ t.isEmpty = false
  separator : ∃ t, d.separator = .str t ∧ t.chars.all isSeparatorChar = true
  addHeader : ∃ b, d.addHeader = .bool b
  strategy : (∃ items, d.conflictStrategy = .arr items) ∨ ∃ fields, d.conflictStrategy = .obj fields

end Draft

namespace Draft

variable {d : Draft} {v : Json} {isList : Bool}

/-- A computation in sequence fails in its first part or in the second. -/
theorem bind_eq_error_iff {ε α β : Type} {x : Except ε α} {f : α → Except ε β} {e : ε} :
    (x >>= f) = .error e ↔ x = .error e ∨ ∃ a, x = .ok a ∧ f a = .error e := by
  cases x with
  | error e' =>
    have hbind : ((Except.error e' : Except ε α) >>= f) = .error e' := rfl
    simp [hbind]
  | ok a =>
    have hbind : ((Except.ok a : Except ε α) >>= f) = f a := rfl
    simp [hbind]

theorem checkVersion_ne_lookup : checkVersion v ≠ .error (.lookupStrategy isList) := by
  cases v with
  | str s => by_cases h : s = configVersion <;> simp [checkVersion, h]
  | _ => simp [checkVersion]

theorem checkText_ne_lookup {e : ConfigError} (he : e ≠ .lookupStrategy isList) :
    checkText e v ≠ .error (.lookupStrategy isList) := by
  cases v with
  | str s => cases h : s.isEmpty <;> simp [checkText, h, he]
  | _ => simp [checkText, he]

theorem checkSeparator_ne_lookup : checkSeparator v ≠ .error (.lookupStrategy isList) := by
  cases v with
  | str s => by_cases h : s.chars.all isSeparatorChar = true <;> simp [checkSeparator, h]
  | _ => simp [checkSeparator]

theorem checkAddHeader_ne_lookup : checkAddHeader v ≠ .error (.lookupStrategy isList) := by
  cases v <;> simp [checkAddHeader]

theorem checkProjectRoot_ne_lookup : checkProjectRoot v ≠ .error (.lookupStrategy isList) := by
  cases v <;> simp [checkProjectRoot]

theorem checkLogLevel_ne_lookup : checkLogLevel v ≠ .error (.lookupStrategy isList) := by
  cases v with
  | str s => cases h : (LogLevel.ofName? s).isSome <;> simp [checkLogLevel, h]
  | _ => simp [checkLogLevel]

theorem exists_checkStrategy_lookup_iff :
    (∃ isList, checkStrategy v = .error (.lookupStrategy isList)) ↔ (∃ items, v = .arr items) ∨ ∃ fields, v = .obj fields := by
  cases v with
  | str s => cases h : ConflictStrategy.ofLabel? s <;> simp [checkStrategy, h]
  | _ => simp [checkStrategy]

theorem check_stops_iff : (∃ isList, d.check = .error (.lookupStrategy isList)) ↔ d.StopsAtStrategy := by
  have hstop (isList : Bool) : d.check = .error (.lookupStrategy isList) ↔
      (∃ u, checkVersion d.version = .ok u) ∧ (∃ t, checkText .badName d.name = .ok t) ∧
      (∃ t, checkText .badOutputDir d.outputDir = .ok t) ∧ (∃ t, checkSeparator d.separator = .ok t) ∧
      (∃ b, checkAddHeader d.addHeader = .ok b) ∧ checkStrategy d.conflictStrategy = .error (.lookupStrategy isList) := by
    unfold check
    simp only [bind_eq_error_iff, checkVersion_ne_lookup, checkText_ne_lookup (e := .badName) (by simp),
      checkText_ne_lookup (e := .badOutputDir) (by simp), checkSeparator_ne_lookup, checkAddHeader_ne_lookup,
      checkProjectRoot_ne_lookup, checkLogLevel_ne_lookup, reduceCtorEq, and_false, exists_false, or_false, false_or,
      exists_and_right]
  simp only [hstop, exists_and_left, exists_const, exists_checkStrategy_lookup_iff, checkVersion_eq_ok_iff, checkText_eq_ok_iff,
    checkSeparator_eq_ok_iff, checkAddHeader_eq_ok_iff]
  constructor
  · rintro ⟨hversion, hname, hdir, hsep, hheader, hstrategy⟩
    exact ⟨hversion, hname, hdir, hsep, hheader, hstrategy⟩
  · intro h
    exact ⟨h.version, h.name, h.outputDir, h.separator, h.addHeader, h.strategy⟩

end Draft

end JsonnetLocals
