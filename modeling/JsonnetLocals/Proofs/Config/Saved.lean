/-
  JsonnetLocals.Proofs.Config.Saved — settings that are saved load back.

  Settings are a plain object, and what is written of such an object reads back with the halves of each
  character joined (`Config.ofBytes_fileText`). So settings that passed the check load back as they were
  exactly when none of their texts holds a character in halves, as no text of characters does
  (`saved_settings_load`). The directories of the path may be missing, and a file that stands at the path
  is written over; the path must lead to a place where a file can be (`Disk.Writable`).
-/

import JsonnetLocals.Config.Store
import JsonnetLocals.Proofs.Config.Check
import JsonnetLocals.Proofs.Files.Tree
import JsonnetLocals.Proofs.Json.Written
import Mathlib.Data.List.Nodup

namespace JsonnetLocals

/-! ## Files -/

namespace Disk

variable {d d' made : Disk} {cwd : Loc} {p : Path} {content : Bytes}

/-- The directories above the path can be made, and then it leads to a place that is no directory. -/
def Writable (d : Disk) (cwd : Loc) (p : Path) : Prop :=
  ∃ made l, d.ensureDir cwd p.parent = (made, .ok ()) ∧ made.locate cwd p = .ok l ∧ made.get? l ≠ some .dir

/-- What is written to a path is what the path then holds. -/
theorem exists_writeContents {l : Loc} (hlocate : made.locate cwd p = .ok l) (hl : made.get? l ≠ some .dir) (content : Bytes) :
    ∃ d', made.writeContents cwd p content = .ok d' ∧ d'.contents cwd p = .ok content := by
  have hne : l ≠ [] := by
    rintro rfl
    exact hl (get?_nil made)
  have hwrite : made.writeContents cwd p content = .ok (made.put l (fileOf content)) := by
    unfold writeContents
    rw [hlocate]
    dsimp only
    split
    · rename_i hdir
      exact absurd hdir hl
    · rfl
  have hdirs : ∀ k, made.get? k = some .dir → (made.put l (fileOf content)).get? k = some .dir := by
    intro k hk
    rw [get?_put_of_ne made hne, if_neg, hk]
    rintro rfl
    exact hl hk
  refine ⟨_, hwrite, contents_eq_ok_iff.mpr ⟨l, locate_mono hdirs hlocate, ?_⟩⟩
  rw [fileAt_eq_some_iff, get?_put_of_ne made hne, if_pos rfl]

end Disk

/-! ## Texts -/

theorem Text.plainLines_of_notMem {cs : List Char} (h : '\r' ∉ cs) : plainLines cs = cs := by
  induction cs with
  | nil => rfl
  | cons c cs ih =>
    rw [List.mem_cons, not_or] at h
    rw [plainLines, ih h.2]
    · exact fun _ hc => absurd hc.symm h.1
    · exact fun hc => absurd hc.symm h.1

/-! ## Settings as an object -/

def Config.texts (c : Config) : List Text := [c.name, c.outputDir, c.separator, c.logLevel] ++ c.projectRoot.toList

namespace Draft

variable {d : Draft} {c : Config}

def joined (d : Draft) : Draft :=
  ⟨d.version.joined, d.name.joined, d.outputDir.joined, d.separator.joined, d.addHeader.joined, d.conflictStrategy.joined,
    d.projectRoot.joined, d.logLevel.joined⟩

theorem joinedFields_toFields (d : Draft) : Json.joinedFields d.toFields = d.joined.toFields := rfl

/-- The object of a draft gives the draft back. -/
theorem ofObject_toFields (d : Draft) : ofObject d.toFields = .ok d := rfl

theorem keys_toFields (d : Draft) : ∀ x ∈ d.toFields, ∃ s, x.1 = Text.ofString s := by
  simp [toFields]

theorem plainFields_toFields (h : ∀ t ∈ c.texts, t.InRange) : Json.PlainFields c.draft.toFields where
  keys := by
    intro x hx
    obtain ⟨s, hs⟩ := keys_toFields _ x hx
    rw [hs]
    exact ⟨Text.inRange_ofChars s.toList, Text.whole_ofChars s.toList⟩
  values := by
    have hname : c.name.InRange := h _ (by simp [Config.texts])
    have hdir : c.outputDir.InRange := h _ (by simp [Config.texts])
    have hsep : c.separator.InRange := h _ (by simp [Config.texts])
    have hlevel : c.logLevel.InRange := h _ (by simp [Config.texts])
    have hversion : (Text.ofString configVersion).InRange := Text.inRange_ofChars _
    have hstrategy : c.conflictStrategy.label.InRange := by
      cases c.conflictStrategy <;> exact Text.inRange_ofChars _
    have hroot : c.draft.projectRoot.Plain := by
      cases hr : c.projectRoot with
      | none => simp [Config.draft, hr, Json.Plain]
      | some s => simpa [Config.draft, hr, Json.Plain] using h s (by simp [Config.texts, hr])
    simp only [toFields, List.forall_mem_cons, List.not_mem_nil, false_imp_iff, implies_true, and_true]
    exact ⟨hversion, hname, hdir, hsep, trivial, hstrategy, hroot, hlevel⟩
  nodup := by
    have hkeys : c.draft.toFields.map Prod.fst = ["version", "name", "output_dir", "separator", "add_header",
        "conflict_strategy", "project_root", "log_level"].map Text.ofString := rfl
    rw [hkeys]
    exact List.Nodup.map (fun _ _ => Text.ofString_injective) (by decide)

/-- Joining leaves the draft of settings as it is when none of their texts holds a character in halves. -/
theorem joined_draft_eq_self_iff : c.draft.joined = c.draft ↔ ∀ t ∈ c.texts, t.Whole := by
  have hstr (t : Text) : (Json.str t).joined = .str t ↔ t.Whole := by
    rw [Json.joined, Json.str.injEq, Text.joined_eq_self_iff]
  have hversion : (Json.str configVersion).joined = .str configVersion := (hstr _).mpr (Text.whole_ofChars _)
  have hstrategy : (Json.str c.conflictStrategy.label).joined = .str c.conflictStrategy.label := by
    cases c.conflictStrategy <;> exact (hstr _).mpr (Text.whole_ofChars _)
  have hheader : (Json.bool c.addHeader).joined = .bool c.addHeader := rfl
  have hroot : c.draft.projectRoot.joined = c.draft.projectRoot ↔ ∀ t ∈ c.projectRoot, t.Whole := by
    cases hr : c.projectRoot with
    | none => simp [Config.draft, hr, Json.joined]
    | some s => simp [Config.draft, hr, hstr]
  have hdraft : c.draft.joined = c.draft ↔ (Json.str configVersion).joined = .str configVersion ∧
      (Json.str c.name).joined = .str c.name ∧ (Json.str c.outputDir).joined = .str c.outputDir ∧
      (Json.str c.separator).joined = .str c.separator ∧ (Json.bool c.addHeader).joined = .bool c.addHeader ∧
      (Json.str c.conflictStrategy.label).joined = .str c.conflictStrategy.label ∧
      c.draft.projectRoot.joined = c.draft.projectRoot ∧ (Json.str c.logLevel).joined = .str c.logLevel :=
    iff_of_eq (Draft.mk.injEq ..)
  rw [hdraft, and_iff_right hversion, hstr, hstr, hstr, and_iff_right hheader, and_iff_right hstrategy, hroot, hstr]
  simp only [Config.texts, List.cons_append, List.nil_append, List.forall_mem_cons, Option.mem_toList]
  tauto

end Draft

namespace Config

variable {c : Config}

/-- What is read from the content that is written for settings. -/
theorem ofBytes_fileText (h : ∀ t ∈ c.texts, t.InRange) (path : Text) :
    ofBytes path (Utf8.encode c.draft.fileText) =
      match c.draft.joined.check with
      | .error e => .error (.invalid e)
      | .ok c' => .ok c' := by
  have hplain := Draft.plainFields_toFields h
  have hlines : Text.plainLines c.draft.fileText.toList = c.draft.fileText.toList :=
    Text.plainLines_of_notMem (Json.cr_notMem_write_obj hplain.values)
  have hread : Json.read c.draft.fileText.toList = .ok (.obj c.draft.joined.toFields) := by
    rw [← Draft.joinedFields_toFields]
    exact Json.read_write_obj (List.cons_ne_nil _ _) hplain
  unfold ofBytes
  rw [Utf8.encode, Utf8.decode_encodeChars]
  dsimp only
  rw [hlines, hread]
  dsimp only
  rw [Draft.ofObject_toFields]
  rfl

end Config

/-- Settings that pass the check can be saved at any path that can be written, whatever characters their texts hold; loading
    them gives them back, as their draft does. It gives them back unless one of the texts holds a character in halves, as two
    code points that are surrogates; a text of characters never does. -/
theorem saved_settings_load {d : Draft} {c : Config} {disk : Disk} {cwd : Loc} {p : Path} (hcheck : d.check = .ok c)
    (hrange : ∀ t ∈ c.texts, t.InRange) (hpath : disk.Writable cwd p) :
    c.draft = d ∧ Draft.ofObject d.toFields = .ok d ∧
    ∃ disk', d.save disk cwd p = (disk', .ok c) ∧
      (Config.load disk' cwd p = .ok c ↔ ∀ t ∈ c.texts, t.Whole) ∧
      ((∀ t ∈ c.texts, ∃ cs, t = Text.ofChars cs) → Config.load disk' cwd p = .ok c) := by
  obtain ⟨rfl, hvalid⟩ := Draft.check_eq_ok_iff_draft.mp hcheck
  obtain ⟨made, l, hmade, hlocate, hl⟩ := hpath
  obtain ⟨disk', hwrite, hcontents⟩ := Disk.exists_writeContents hlocate hl (Utf8.encode c.draft.fileText)
  have hsave : c.draft.save disk cwd p = (disk', .ok c) := by
    unfold Draft.save
    rw [hcheck]
    dsimp only
    rw [hmade]
    dsimp only
    rw [hwrite]
  have hload : Config.load disk' cwd p = .ok c ↔ ∀ t ∈ c.texts, t.Whole := by
    have hof : Config.load disk' cwd p = .ok c ↔ c.draft.joined.check = .ok c := by
      rw [Config.load, hcontents]
      dsimp only
      rw [Config.ofBytes_fileText hrange]
      cases c.draft.joined.check <;> simp
    rw [hof, Draft.check_eq_ok_iff_draft, and_iff_left hvalid, Draft.joined_draft_eq_self_iff]
  refine ⟨rfl, Draft.ofObject_toFields _, disk', hsave, hload, ?_⟩
  intro hchars
  refine hload.mpr ?_
  intro t ht
  obtain ⟨cs, rfl⟩ := hchars t ht
  exact Text.whole_ofChars cs

/-- Settings whose name holds a quote, a backslash, a line end, a letter beyond ASCII and one beyond the basic plane, and whose
    root has half of a character. -/
def oddSettings : Config :=
  ⟨"a\"\\\né😀", "out", "__", false, .rename, some ⟨[0xd83d]⟩, "info"⟩

/-- They are saved below a directory that is not there yet. -/
theorem saved_settings_load_odd :
    ∃ disk', oddSettings.draft.save ⟨[], []⟩ [] (Path.ofText "conf/bundle.json") = (disk', .ok oddSettings) ∧
      Config.load disk' [] (Path.ofText "conf/bundle.json") = .ok oddSettings := by
  have hcheck : oddSettings.draft.check = .ok oddSettings := by
    refine Draft.check_eq_ok_iff_draft.mpr ⟨rfl, ?_⟩
    exact ⟨by decide +kernel, by decide +kernel, by decide +kernel, by decide +kernel⟩
  have hrange : ∀ t ∈ oddSettings.texts, t.InRange := by
    show ∀ t ∈ oddSettings.texts, ∀ n ∈ t.codes, n < 0x110000
    decide +kernel
  have hpath : (⟨[], []⟩ : Disk).Writable [] (Path.ofText "conf/bundle.json") := by
    let ensured := (⟨[], []⟩ : Disk).ensureDir [] (Path.ofText "conf/bundle.json").parent
    have hnone : (ensured.1.get? ["conf", "bundle.json"]).isNone = true := by decide +kernel
    have hdir : ensured.1.get? ["conf", "bundle.json"] ≠ some .dir := by
      intro h
      rw [h] at hnone
      cases hnone
    exact ⟨ensured.1, ["conf", "bundle.json"], Prod.ext rfl (by decide +kernel), by decide +kernel, hdir⟩
  have hwhole : ∀ t ∈ oddSettings.texts, t.Whole := by
    show ∀ t ∈ oddSettings.texts, t.codes.IsChain fun a b => ¬ (Utf16.isHigh a ∧ Utf16.isLow b)
    decide +kernel
  obtain ⟨-, -, disk', hsave, hload, -⟩ := saved_settings_load hcheck hrange hpath
  exact ⟨disk', hsave, hload.mpr hwhole⟩

end JsonnetLocals
