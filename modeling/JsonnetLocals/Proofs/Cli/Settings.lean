/-
  JsonnetLocals.Proofs.Cli.Settings — what becomes of wrong settings.

  The content of a settings file may be any bytes. Loading it gives settings that pass the check, or tells
  what is wrong with the content, and then the program has status 2 (`settings_reported_iff`). There is one
  exception, and the theorem says which: an object that is right up to the strategy, which is a list or an
  object itself. Such a value cannot be looked up among the strategies, and the error of that is not one
  that the program catches (`list_as_strategy_escapes`).
-/

import JsonnetLocals.Proofs.Cli.Status
import JsonnetLocals.Proofs.Json.Written

namespace JsonnetLocals

/-- Whether the error tells what is wrong with the content of the file. -/
def StoreError.blamesContent : StoreError → Bool
  | file _ => false
  | e => e.isReport

namespace Config

variable {path : Text} {data : Bytes}

/-- The content is an object that names its version, and its settings stop at the strategy. -/
def StopsAtStrategy (data : Bytes) : Prop :=
  ∃ cs fields, Utf8.decode data = .ok cs ∧ Json.read (Text.plainLines cs) = .ok (.obj fields) ∧
    (fields.lookup (Text.ofString "version")).isSome = true ∧ (Draft.ofFields fields).StopsAtStrategy

/-- The draft that an object makes, if it names its version. -/
theorem ofObject_eq (fields : List (Text × Json)) :
    Draft.ofObject fields =
      if (fields.lookup (Text.ofString "version")).isSome = true then .ok (Draft.ofFields fields) else .error .missingVersion := by
  have hget : (Json.obj fields).get? "version" = fields.lookup (Text.ofString "version") := rfl
  rw [Draft.ofObject, hget]
  cases fields.lookup (Text.ofString "version") <;> rfl

/-- What is read from a content: settings that pass the check, an error that tells what is wrong, or the strategy cannot be
    looked up. -/
theorem ofBytes_cases (path : Text) (data : Bytes) :
    (∃ c, ofBytes path data = .ok c ∧ c.draft.check = .ok c ∧ ¬ StopsAtStrategy data) ∨
      (∃ e, ofBytes path data = .error e ∧ e.blamesContent = true ∧ ¬ StopsAtStrategy data) ∨
      (∃ isList, ofBytes path data = .error (.invalid (.lookupStrategy isList)) ∧ StopsAtStrategy data) := by
  unfold ofBytes
  cases hdecode : Utf8.decode data with
  | error part =>
    refine .inr (.inl ⟨_, rfl, rfl, ?_⟩)
    rintro ⟨cs, fields, h, -⟩
    rw [hdecode] at h
    cases h
  | ok cs =>
    dsimp only
    cases hread : Json.read (Text.plainLines cs) with
    | error f =>
      refine .inr (.inl ⟨_, rfl, ?_, ?_⟩)
      · cases f.isSyntax <;> rfl
      · rintro ⟨cs', fields, h, h', -⟩
        obtain rfl := Except.ok.inj (hdecode.symm.trans h)
        rw [hread] at h'
        cases h'
    | ok v =>
      have hstops : StopsAtStrategy data ↔ ∃ fields, v = .obj fields ∧
          (fields.lookup (Text.ofString "version")).isSome = true ∧ (Draft.ofFields fields).StopsAtStrategy := by
        constructor
        · rintro ⟨cs', fields, h, h', hfields⟩
          obtain rfl := Except.ok.inj (hdecode.symm.trans h)
          exact ⟨fields, Except.ok.inj (hread.symm.trans h'), hfields⟩
        · rintro ⟨fields, rfl, hfields⟩
          exact ⟨cs, fields, hdecode, hread, hfields⟩
      cases v with
      | obj fields =>
        simp only [hstops, Json.obj.injEq, exists_eq_left']
        rw [ofObject_eq]
        by_cases hversion : (fields.lookup (Text.ofString "version")).isSome = true
        · rw [if_pos hversion]
          have hbind : ((.ok (Draft.ofFields fields) : Except ConfigError Draft) >>= Draft.check) =
              (Draft.ofFields fields).check := rfl
          rw [hbind, and_iff_right hversion, ← Draft.check_stops_iff]
          cases hcheck : (Draft.ofFields fields).check with
          | ok c =>
            have hdraft := (Draft.check_eq_ok_iff_draft.mp hcheck).1
            rw [hdraft] at hcheck
            exact .inl ⟨c, rfl, hcheck, by simp⟩
          | error e =>
            cases e with
            | lookupStrategy isList => exact .inr (.inr ⟨isList, rfl, isList, rfl⟩)
            | _ => exact .inr (.inl ⟨_, rfl, rfl, by simp⟩)
        · rw [if_neg hversion]
          exact .inr (.inl ⟨_, rfl, rfl, fun h => hversion h.1⟩)
      | _ => exact .inr (.inl ⟨_, rfl, rfl, by simp [hstops]⟩)

theorem load_eq {d : Disk} {cwd : Loc} {p : Path} (h : d.contents cwd p = .ok data) : load d cwd p = ofBytes p.text data := by
  rw [load, h]

/-- Loading the text of an object makes a draft of it and checks that. -/
theorem ofBytes_encode {text : String} {fields : List (Text × Json)}
    (h : Json.read (Text.plainLines text.toList) = .ok (.obj fields)) :
    ofBytes path (Utf8.encode text) = (Draft.ofObject fields >>= Draft.check).mapError .invalid := by
  rw [ofBytes, Utf8.encode, Utf8.decode_encodeChars]
  dsimp only
  rw [h]
  dsimp only
  cases Draft.ofObject fields >>= Draft.check <;> rfl

end Config

namespace Cli

/-- A settings file whose content is there gives settings that pass the check, or an error that tells what is wrong with it,
    exactly when its settings do not stop at the strategy; and when such a file cannot be loaded, the program has status 2 on
    the same condition. -/
theorem settings_reported_iff {d : Disk} {cwd : Loc} {p : Path} {data : Bytes} (hread : d.contents cwd p = .ok data) :
    (((∃ c, Config.load d cwd p = .ok c ∧ c.draft.check = .ok c) ∨
        (∃ e, Config.load d cwd p = .error e ∧ e.blamesContent = true)) ↔ ¬ Config.StopsAtStrategy data) ∧
    ∀ (i : Invocation) (a : Arguments) (path : Text) (e : StoreError), readArguments i.argv = .ok a → a.config = some (.text path) →
      i.env.cwd = cwd → Path.ofText path = p → Config.load d cwd p = .error e →
      ((run i d).status = .ok 2 ↔ ¬ Config.StopsAtStrategy data) := by
  rw [Config.load_eq hread]
  rcases Config.ofBytes_cases p.text data with ⟨c, hload, hcheck, hstops⟩ | ⟨e, hload, he, hstops⟩ | ⟨isList, hload, hstops⟩
  · refine ⟨iff_of_true (.inl ⟨c, hload, hcheck⟩) hstops, ?_⟩
    rintro i a path e - - - - herror
    rw [hload] at herror
    cases herror
  · refine ⟨iff_of_true (.inr ⟨e, hload, he⟩) hstops, ?_⟩
    rintro i a path e' ha hconfig rfl rfl herror
    obtain rfl := Except.error.inj (hload.symm.trans herror)
    have hreport : e.isReport = true := by
      cases e with
      | file x => cases he
      | _ => exact he
    rw [Invocation.status_of_load ha hconfig ((Config.load_eq hread).trans hload), if_pos hreport]
    exact iff_of_true rfl hstops
  · refine ⟨iff_of_false ?_ (not_not_intro hstops), ?_⟩
    · rw [hload]
      rintro (⟨c, h, -⟩ | ⟨e, h, he⟩)
      · cases h
      · cases h
        cases he
    · rintro i a path e' ha hconfig rfl rfl herror
      obtain rfl := Except.error.inj (hload.symm.trans herror)
      rw [Invocation.status_of_load ha hconfig ((Config.load_eq hread).trans hload)]
      exact iff_of_false (fun h => nomatch h) (not_not_intro hstops)

def withSettings (content : String) : Disk :=
  ⟨[(["a.jsonnet"], Disk.fileOf (Utf8.encode "1\n")), (["c.json"], Disk.fileOf (Utf8.encode content))], []⟩

/-- Settings of another version are reported. -/
theorem settings_reported_iff_version :
    (∃ e, Config.load (withSettings "\x7b\"version\": 2\x7d") [] (Path.ofText "c.json") = .error e ∧ e.blamesContent = true) ∧
    (run (calledWith (withOption "--config" "c.json")) (withSettings "\x7b\"version\": 2\x7d")).status = .ok 2 := by
  have hread : (withSettings "\x7b\"version\": 2\x7d").contents [] (Path.ofText "c.json") =
      .ok (Utf8.encode "\x7b\"version\": 2\x7d") := by
    decide +kernel
  have hkey := Json.readTextFrom_plain "version".toList rfl 1 2 [] ": 2\x7d".toList
  have hfields : Json.readFields 29 [] 1 ('"' :: ("version".toList ++ '"' :: ": 2\x7d".toList)) =
      .ok ⟨.obj [("version", .int 2)], 14, []⟩ := by
    rw [Json.readFields, hkey]
    rfl
  have hjson : Json.read (Text.plainLines "\x7b\"version\": 2\x7d".toList) = .ok (.obj [("version", .int 2)]) :=
    Json.read_of_ok (f := ⟨_, 14, []⟩) (by decide) hfields rfl
  have hload : Config.load (withSettings "\x7b\"version\": 2\x7d") [] (Path.ofText "c.json") =
      .error (.invalid (.badVersion (.int 2))) := by
    rw [Config.load_eq hread, Config.ofBytes_encode hjson]
    rfl
  obtain ⟨hiff, hstatus⟩ := settings_reported_iff hread
  have hstops := hiff.mp (.inr ⟨_, hload, rfl⟩)
  refine ⟨⟨_, hload, rfl⟩, ?_⟩
  exact (hstatus (calledWith (withOption "--config" "c.json")) { sourceOnly with config := some (.text "c.json") } "c.json" _
    (by decide +kernel) rfl rfl rfl hload).mpr hstops

/-- Settings that are right but for a strategy that is an empty list: the error of looking it up tells nothing of the content,
    and the program ends without a status. -/
theorem list_as_strategy_escapes :
    let disk := withSettings "\x7b\"version\": \"1.0\", \"conflict_strategy\": []\x7d"
    Config.load disk [] (Path.ofText "c.json") = .error (.invalid (.lookupStrategy true)) ∧
      StoreError.blamesContent (.invalid (.lookupStrategy true)) = false ∧
      (run (calledWith (withOption "--config" "c.json")) disk).status = .error (.settings (.invalid (.lookupStrategy true))) := by
  intro disk
  have hread : disk.contents [] (Path.ofText "c.json") =
      .ok (Utf8.encode "\x7b\"version\": \"1.0\", \"conflict_strategy\": []\x7d") := by
    decide +kernel
  have hversion := Json.readTextFrom_plain "version".toList rfl 1 2 []
    ": \"1.0\", \"conflict_strategy\": []\x7d".toList
  have hnumber := Json.readTextFrom_plain "1.0".toList rfl 12 13 [] ", \"conflict_strategy\": []\x7d".toList
  have hstrategy := Json.readTextFrom_plain "conflict_strategy".toList rfl 19 20 [] ": []\x7d".toList
  have hvalue : Json.readValue 86 12 ('"' :: ("1.0".toList ++ '"' :: ", \"conflict_strategy\": []\x7d".toList)) =
      .ok ⟨.str "1.0", 17, ", \"conflict_strategy\": []\x7d".toList⟩ := by
    rw [Json.readValue, hnumber]
    rfl
  have hlast : Json.readFields 86 [("version", .str "1.0")] 19
      ('"' :: ("conflict_strategy".toList ++ '"' :: ": []\x7d".toList)) =
      .ok ⟨.obj [("version", .str "1.0"), ("conflict_strategy", .arr [])], 43, []⟩ := by
    rw [Json.readFields, hstrategy]
    rfl
  have hfields : Json.readFields 87 [] 1
      ('"' :: ("version".toList ++ '"' :: ": \"1.0\", \"conflict_strategy\": []\x7d".toList)) =
      .ok ⟨.obj [("version", .str "1.0"), ("conflict_strategy", .arr [])], 43, []⟩ :=
    (Json.readFields_of_ok hversion rfl hvalue).trans hlast
  have hjson : Json.read (Text.plainLines "\x7b\"version\": \"1.0\", \"conflict_strategy\": []\x7d".toList) =
      .ok (.obj [("version", .str "1.0"), ("conflict_strategy", .arr [])]) :=
    Json.read_of_ok (f := ⟨_, 43, []⟩) (by decide) hfields rfl
  have hload : Config.load disk [] (Path.ofText "c.json") = .error (.invalid (.lookupStrategy true)) := by
    rw [Config.load_eq hread, Config.ofBytes_encode hjson]
    rfl
  refine ⟨hload, rfl, ?_⟩
  have ha : readArguments (calledWith (withOption "--config" "c.json")).argv =
      .ok { sourceOnly with config := some (.text "c.json") } := by
    decide +kernel
  rw [Invocation.status_of_load ha rfl hload]
  rfl

end Cli

end JsonnetLocals
