/-
  JsonnetLocals.Proofs.Bundle.Endings — how reading and renaming of a source can end.

  Reading a source ends in a tree or in a fault of syntax, except where a string with a lone surrogate is the first thing
  wrong in it (`SpellsLone`). Such a source has no reading either, and renaming it ends in an error that is no refusal.
  Renaming with checked settings ends so for one other reason: the source parses, and the identity has no bytes to make a
  tag of. So `source_ends` gives for each of the three the exact condition under which it ends as it should, and
  `lone_surrogate_escapes` a source that breaks it.
-/

import JsonnetLocals.Proofs.Bundle.Faithful
import JsonnetLocals.Proofs.Rename.NewNames
import JsonnetLocals.Proofs.Syntax.Faults

namespace JsonnetLocals

/-- The bytes are the text of a program, but for a string with a lone surrogate that is the first thing wrong in it. -/
def SpellsLone (file : Text) (source : Bytes) : Prop := ∃ text x, Utf8.decode source = .ok text ∧ HasLone file text x

theorem ParseError.isSyntax_eq_false_iff {e : ParseError} : e.isSyntax = false ↔ ∃ x, e = .loneSurrogate x := by
  cases e <;> simp [isSyntax]

section Source

variable {file : Text} {source : Bytes}

theorem spellsLone_iff : SpellsLone file source ↔ ∃ x, parse file source = .error (.loneSurrogate x) := by
  simp only [parse_loneSurrogate_iff, SpellsLone]
  exact exists_comm

theorem SpellsLone.not_of_ok {tree : Node} (h : parse file source = .ok tree) : ¬ SpellsLone file source := by
  rw [spellsLone_iff]
  rintro ⟨x, hx⟩
  rw [h] at hx
  cases hx

theorem SpellsLone.not_of_isSyntax {e : ParseError} (h : parse file source = .error e) (he : e.isSyntax = true) :
    ¬ SpellsLone file source := by
  rw [spellsLone_iff]
  rintro ⟨x, hx⟩
  rw [h] at hx
  obtain rfl := Except.error.inj hx
  cases he

/-- A source that spells no lone surrogate parses or has a fault of syntax. -/
theorem exists_of_not_spellsLone (h : ¬ SpellsLone file source) :
    (∃ tree, parse file source = .ok tree) ∨ ∃ e, parse file source = .error e ∧ e.isSyntax = true := by
  cases hp : parse file source with
  | ok tree => exact .inl ⟨tree, rfl⟩
  | error e =>
    refine .inr ⟨e, rfl, Bool.not_eq_false _ |>.mp fun he => h ?_⟩
    obtain ⟨x, rfl⟩ := ParseError.isSyntax_eq_false_iff.mp he
    exact spellsLone_iff.mpr ⟨x, hp⟩

theorem parse_ends_iff :
    ((∃ tree, parse file source = .ok tree) ∨ ∃ e, parse file source = .error e ∧ e.isSyntax = true) ↔
      ¬ SpellsLone file source := by
  refine ⟨?_, exists_of_not_spellsLone⟩
  rintro (⟨tree, htree⟩ | ⟨e, he, hsyntax⟩)
  · exact SpellsLone.not_of_ok htree
  · exact SpellsLone.not_of_isSyntax he hsyntax

end Source

/-! ## Readings -/

/-- The reading holds the source, and errors just when it has no tree. -/
structure Reading.Holds (r : Reading) (source : Bytes) : Prop where
  source_eq : r.source = source
  tree : r.isSuccess = true ↔ r.tree ≠ none
  errors : r.isSuccess = true ↔ r.errors = []

section Reading

variable {name : Text} {source : Bytes}

theorem Reading.ofSource_of_ok {tree : Node} (h : parse name source = .ok tree) :
    ∃ log, Reading.ofSource name source = .ok (⟨some tree, source, Path.ofText name, []⟩, log) := by
  unfold ofSource
  rw [h]
  exact ⟨_, rfl⟩

theorem Reading.ofSource_of_isSyntax {e : ParseError} (h : parse name source = .error e) (he : e.isSyntax = true) :
    ∃ log, Reading.ofSource name source =
      .ok (⟨none, source, Path.ofText name, ["Syntax error in " ++ e.message name]⟩, log) := by
  unfold ofSource
  rw [h]
  dsimp only
  rw [if_pos he]
  exact ⟨_, rfl⟩

theorem Reading.ofSource_of_lone {x : Utf16.Lone} (h : parse name source = .error (.loneSurrogate x)) :
    Reading.ofSource name source = .error (.loneSurrogate x) := by
  unfold ofSource
  rw [h]
  rfl

theorem Reading.ofSource_ends_iff :
    (∃ r log, Reading.ofSource name source = .ok (r, log) ∧ r.Holds source) ↔ ¬ SpellsLone name source := by
  constructor
  · rintro ⟨r, log, hread, -⟩ hlone
    obtain ⟨x, hx⟩ := spellsLone_iff.mp hlone
    rw [Reading.ofSource_of_lone hx] at hread
    cases hread
  · intro h
    rcases exists_of_not_spellsLone h with ⟨tree, htree⟩ | ⟨e, he, hsyntax⟩
    · obtain ⟨log, hread⟩ := Reading.ofSource_of_ok htree
      exact ⟨_, log, hread, rfl, by simp [isSuccess], by simp [isSuccess]⟩
    · obtain ⟨log, hread⟩ := Reading.ofSource_of_isSyntax he hsyntax
      exact ⟨_, log, hread, rfl, by simp [isSuccess], by simp [isSuccess]⟩

end Reading

/-! ## Renaming -/

theorem fileTag_of_encode_error {identity : Text} {u : Unencodable} (h : identity.encode = .error u) :
    fileTag identity = .error u := by
  unfold fileTag
  rw [h]
  rfl

namespace Bundler

variable {b : Bundler} {source : Bytes} {identity name : Text} {tree : Node}

def shownName (identity name : Text) : Text := if name = "" then identity else name

def Ends (outcome : Except RunError Renamed) : Prop := (∃ x, outcome = .ok x) ∨ ∃ r, outcome = .error (.refused r)

theorem renameSource_of_reading {r : Reading} {log : List Record}
    (h : Reading.ofSource (shownName identity name) source = .ok (r, log)) :
    (b.renameSource source identity name).2 = (b.rename r identity).2 := by
  unfold shownName at h
  unfold renameSource
  rw [h]

theorem renameSource_of_literal {e : ParseError} (h : Reading.ofSource (shownName identity name) source = .error e) :
    (b.renameSource source identity name).2 = .error (.literal e) := by
  unfold shownName at h
  unfold renameSource
  rw [h]

theorem ends_of_ok {sep bytes : Bytes} (h : parse (shownName identity name) source = .ok tree)
    (hs : b.config.separator.encode = .ok sep) (hi : identity.encode = .ok bytes) :
    Ends (b.renameSource source identity name).2 := by
  obtain ⟨log, hread⟩ := Reading.ofSource_of_ok h
  obtain ⟨text, -, -, hparsed⟩ := exists_parsed h
  obtain ⟨names, skipped, hrename, -⟩ := hparsed.renameLocals_eq (fileTag_of_encode hi) hs
  rw [renameSource_of_reading hread]
  unfold rename
  dsimp only
  rw [hrename]
  exact .inl ⟨_, rfl⟩

/-- Without bytes there is no tag. -/
theorem not_ends_of_unencodable {u : Unencodable} (h : parse (shownName identity name) source = .ok tree)
    (hi : identity.encode = .error u) : ¬ Ends (b.renameSource source identity name).2 := by
  obtain ⟨log, hread⟩ := Reading.ofSource_of_ok h
  have hrename : renameLocals tree source identity b.config.separator = ([], .error (.unencodable u)) := by
    unfold renameLocals Renamer.start
    rw [fileTag_of_encode_error hi]
    rfl
  rw [renameSource_of_reading hread]
  unfold rename
  dsimp only
  rw [hrename]
  rintro (⟨_, hx⟩ | ⟨_, hx⟩)
  · cases hx
  · cases hx

theorem ends_of_isSyntax {e : ParseError} (h : parse (shownName identity name) source = .error e) (he : e.isSyntax = true) :
    Ends (b.renameSource source identity name).2 := by
  obtain ⟨log, hread⟩ := Reading.ofSource_of_isSyntax h he
  rw [renameSource_of_reading hread]
  exact .inr ⟨_, rfl⟩

theorem not_ends_of_lone {x : Utf16.Lone} (h : parse (shownName identity name) source = .error (.loneSurrogate x)) :
    ¬ Ends (b.renameSource source identity name).2 := by
  rw [renameSource_of_literal (Reading.ofSource_of_lone h)]
  rintro (⟨_, hx⟩ | ⟨_, hx⟩)
  · cases hx
  · cases hx

theorem renameSource_ends_iff {sep : Bytes} (hs : b.config.separator.encode = .ok sep) :
    Ends (b.renameSource source identity name).2 ↔
      ¬ SpellsLone (shownName identity name) source ∧
        ((∃ bytes, identity.encode = .ok bytes) ∨ ∀ tree, parse (shownName identity name) source ≠ .ok tree) := by
  constructor
  · intro hends
    constructor
    · intro hlone
      obtain ⟨x, hx⟩ := spellsLone_iff.mp hlone
      exact not_ends_of_lone hx hends
    · cases hi : identity.encode with
      | ok bytes => exact .inl ⟨bytes, rfl⟩
      | error u => exact .inr fun tree htree => not_ends_of_unencodable htree hi hends
  · rintro ⟨hlone, hidentity⟩
    rcases exists_of_not_spellsLone hlone with ⟨tree, htree⟩ | ⟨e, he, hsyntax⟩
    · rcases hidentity with ⟨bytes, hbytes⟩ | hnone
      · exact ends_of_ok htree hs hbytes
      · exact (hnone tree htree).elim
    · exact ends_of_isSyntax he hsyntax

/-- Where no lone surrogate is spelled, reading a source ends in a tree or a fault of syntax, there is a reading that holds
    the source, and renaming with checked settings returns or refuses the source, provided that a source which parses has
    an identity with bytes. Nowhere else do they end so. -/
theorem source_ends {d : Draft} (hc : d.check = .ok b.config) (source : Bytes) (identity name : Text) :
    (((∃ tree, parse name source = .ok tree) ∨ ∃ e, parse name source = .error e ∧ e.isSyntax = true) ↔
      ¬ SpellsLone name source) ∧
    ((∃ r log, Reading.ofSource name source = .ok (r, log) ∧ r.Holds source) ↔ ¬ SpellsLone name source) ∧
    (Ends (b.renameSource source identity name).2 ↔
      ¬ SpellsLone (shownName identity name) source ∧
        ((∃ bytes, identity.encode = .ok bytes) ∨ ∀ tree, parse (shownName identity name) source ≠ .ok tree)) := by
  obtain ⟨seps, hseps, -⟩ := exists_separator (Draft.separator_of_check hc)
  have hencode : b.config.separator.encode = .ok (Utf8.encodeChars seps) := by
    rw [hseps]
    exact Text.encode_ofChars seps
  exact ⟨parse_ends_iff, Reading.ofSource_ends_iff, renameSource_ends_iff hencode⟩

/-- The two escapes of this source are one character beyond the first plane. -/
theorem source_ends_pair :
    (∃ r log, Reading.ofSource "a.jsonnet" (Utf8.encode "local x = \"\\ud83d\\ude00\"; x") = .ok (r, log) ∧
      r.Holds (Utf8.encode "local x = \"\\ud83d\\ude00\"; x")) ∧
    Ends ((intoOut none).renameSource (Utf8.encode "local x = \"\\ud83d\\ude00\"; x") "a.jsonnet" "a.jsonnet").2 := by
  have hcheck : Draft.check { Draft.default with outputDir := .str "out", separator := .str "_", addHeader := .bool false } =
      .ok (intoOut none).config := by rfl
  have hok : (parse "a.jsonnet" (Utf8.encode "local x = \"\\ud83d\\ude00\"; x")).isOk = true := by decide +kernel
  obtain ⟨hparse, hread, hrename⟩ :=
    source_ends hcheck (Utf8.encode "local x = \"\\ud83d\\ude00\"; x") "a.jsonnet" "a.jsonnet"
  have hlone := hparse.mp (.inl (exists_tree hok))
  exact ⟨hread.mpr hlone, hrename.mpr ⟨hlone, .inl ⟨_, Text.encode_ofString "a.jsonnet"⟩⟩⟩

/-- Half a pair stands for no character: neither a tree nor a fault of syntax, no reading, and an error that is no refusal. -/
theorem lone_surrogate_escapes :
    ∃ e, parse "" (Utf8.encode "\"\\ud800\"") = .error e ∧ e.isSyntax = false ∧
      Reading.ofSource "" (Utf8.encode "\"\\ud800\"") = .error e ∧
      ¬ Ends ((intoOut none).renameSource (Utf8.encode "\"\\ud800\"") "a.jsonnet" "").2 := by
  have hnone : ∀ name ∈ (["", "a.jsonnet"] : List Text),
      (Reading.ofSource name (Utf8.encode "\"\\ud800\"")).isOk = false := by decide +kernel
  have hlone : ∀ name ∈ (["", "a.jsonnet"] : List Text), SpellsLone name (Utf8.encode "\"\\ud800\"") := by
    intro name hname
    by_contra h
    obtain ⟨r, log, hread, -⟩ := Reading.ofSource_ends_iff.mpr h
    have hread' := hnone name hname
    rw [hread] at hread'
    cases hread'
  obtain ⟨x, hx⟩ := spellsLone_iff.mp (hlone "" (by simp))
  obtain ⟨y, hy⟩ := spellsLone_iff.mp (hlone "a.jsonnet" (by simp))
  exact ⟨_, hx, rfl, Reading.ofSource_of_lone hx, not_ends_of_lone hy⟩

end Bundler

end JsonnetLocals
