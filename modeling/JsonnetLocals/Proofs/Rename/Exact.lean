/-
  JsonnetLocals.Proofs.Rename.Exact — when renaming edits the words that it means.

  - A text that is free of drift is renamed exactly: every bind and every reference to a bind
    is edited, nothing else is, and nothing is skipped (`rename_exact`).
  - Any text is renamed soundly, that is, only words that were meant are edited and each one that drifted
    is skipped, exactly when no drifted word has its name where it is looked for
    (`renames_soundly_iff`). The name may stand there by chance, in a string or at the end of a
    keyword; then renaming edits that place and reports nothing (`rename_edits_a_string`).
-/

import JsonnetLocals.Proofs.Rename.Outcome

namespace JsonnetLocals

open Utf8 (encodeChars encodeChars_append)

/-! ## Words that do not drift -/

theorem Word.target_of_drift {w : Word} (h : drift w.before = 0) : w.target = (encodeChars w.before).length := by
  have := resolved_add_drift w.before
  rw [h] at this
  exact this

/-- A word that did not drift is found. -/
theorem Word.Named.holds_of_drift {ws : List Word} {w : Word} (hn : w.Named ws) (h : drift w.before = 0) :
    w.holds (encodeChars (texts ws)) = true := by
  obtain ⟨after, hsplit⟩ := hn.split
  have hlen := length_encodeChars_of_all hn.isAscii
  rw [Word.holds, Word.target_of_drift h, hsplit, List.append_assoc, encodeChars_append, List.drop_left, encodeChars_append,
    ← hlen, List.take_left]
  exact beq_self_eq_true _

theorem Parsed.holds_of_drift {file : Text} {source : Bytes} {tree : Node} {ws : List Word} (h : Parsed file source tree ws)
    {w : Word} (hw : w ∈ ws) (hr : w.role ≠ none) (hd : drift w.before = 0) : w.holds source = true := by
  rw [h.encoded]
  exact (h.named hw hr).holds_of_drift hd

/-- What stands before the first edit can be told apart from the rest. -/
theorem Edit.weave_advance {source : Bytes} {text : Edit → Bytes} {pos n : Nat} {es : List Edit}
    (h : ∀ e ∈ es, ((pos + n : Nat) : Int) ≤ e.start) :
    weave source text pos es = (source.drop pos).take n ++ weave source text (pos + n) es := by
  cases es with
  | nil => rw [weave, weave, ← List.drop_drop, List.take_append_drop]
  | cons e es =>
    have he := h e List.mem_cons_self
    have hsub : e.start.toNat - pos = n + (e.start.toNat - (pos + n)) := by omega
    rw [weave, weave, hsub, List.take_add, List.drop_drop]
    simp only [List.append_assoc]

def Word.bytesWith (mark : Bytes) (isMarked : Word → Bool) (w : Word) : Bytes :=
  (if isMarked w then mark else []) ++ encodeChars w.text

section Weave

variable {file : Text} {ws all : List Word} {tag : String} {separator : Text} {sep source : Bytes} {p : Word → Bool}

/-- One word at the front: its edit, if there is one, stands exactly there. -/
theorem weave_word {w : Word} {rest : List Char} (hs : separator.encode = .ok sep)
    (he : source = encodeChars (w.before ++ (w.text ++ rest)))
    (hp : ∀ v ∈ w :: ws, p v = true → v.Named all ∧ drift v.before = 0)
    (hafter : ∀ v ∈ ws, ∃ between, v.before = w.before ++ w.text ++ between) :
    Edit.weave source Edit.bytes (encodeChars w.before).length (((w :: ws).filter p).map (Word.edit tag separator)) =
      w.bytesWith (Utf8.encode tag ++ sep) p ++
        Edit.weave source Edit.bytes (encodeChars (w.before ++ w.text)).length
          ((ws.filter p).map (Word.edit tag separator)) := by
  have hlen : (encodeChars (w.before ++ w.text)).length = (encodeChars w.before).length + (encodeChars w.text).length := by
    rw [encodeChars_append, List.length_append]
  cases hw : p w with
  | true =>
    obtain ⟨hn, hd⟩ := hp w List.mem_cons_self hw
    have htarget := Word.target_of_drift hd
    have hstop : (w.edit tag separator).stop.toNat = (encodeChars (w.before ++ w.text)).length := by
      rw [hlen, length_encodeChars_of_all hn.isAscii, ← htarget]
      rfl
    have hstart : (w.edit tag separator).start.toNat - (encodeChars w.before).length = 0 := by
      rw [← htarget]
      exact Nat.sub_self _
    rw [List.filter_cons_of_pos hw, List.map_cons, Edit.weave, hstart, hstop, Word.bytes_edit hs, Word.bytesWith, if_pos hw]
    rfl
  | false =>
    have hskip : ∀ e ∈ (ws.filter p).map (Word.edit tag separator),
        (((encodeChars w.before).length + (encodeChars w.text).length : Nat) : Int) ≤ e.start := by
      intro e he
      obtain ⟨v, hv, rfl⟩ := List.mem_map.mp he
      rw [List.mem_filter] at hv
      obtain ⟨between, hb⟩ := hafter v hv.1
      have htarget := Word.target_of_drift (hp v (List.mem_cons_of_mem w hv.1) hv.2).2
      rw [hb, encodeChars_append, List.length_append, hlen] at htarget
      exact Int.ofNat_le.mpr (by omega)
    rw [List.filter_cons_of_neg (by simp [hw]), Edit.weave_advance hskip, hlen, he, encodeChars_append, List.drop_left,
      encodeChars_append, List.take_left, Word.bytesWith, hw]
    rfl

/-- Weaving in the edits of words that did not drift goes word by word. -/
theorem Scans.weave_eq {s : State} {before cs : List Char} {e : Node} (h : Scans file s before cs ws e)
    (hs : separator.encode = .ok sep) (he : source = encodeChars (before ++ cs))
    (hp : ∀ w ∈ ws, p w = true → w.Named all ∧ drift w.before = 0) :
    Edit.weave source Edit.bytes (encodeChars before).length ((ws.filter p).map (Word.edit tag separator)) =
      ws.flatMap (Word.bytesWith (Utf8.encode tag ++ sep) p) := by
  induction h with
  | stop => rw [he, List.append_nil]; exact List.drop_length
  | skip _ _ hrest ih | take _ _ _ hrest ih =>
    refine (weave_word hs he hp hrest.exists_before_eq).trans ?_
    rw [List.flatMap_cons]
    exact congrArg _ (ih (by rw [he, List.append_assoc]) fun v hv => hp v (List.mem_cons_of_mem _ hv))

/-- The code when the words that are edited did not drift. -/
theorem Parsed.weave_eq {tree : Node} (h : Parsed file source tree ws) (hs : separator.encode = .ok sep)
    (hp : ∀ w ∈ ws, p w = true → w.role ≠ none ∧ drift w.before = 0) :
    Edit.weave source Edit.bytes 0 ((ws.filter p).map (Word.edit tag separator)) =
      ws.flatMap (Word.bytesWith (Utf8.encode tag ++ sep) p) :=
  h.scans.weave_eq hs h.encoded fun w hw hm => ⟨h.named hw (hp w hw hm).1, (hp w hw hm).2⟩

end Weave

/-! ## Exact renaming -/

/-- Only ASCII stands before each word that plays a part, on its line. -/
def DriftFree (ws : List Word) : Prop := ∀ w ∈ ws, w.role ≠ none → (lineTail w.before).all isAscii = true

theorem DriftFree.drift_eq_zero {ws : List Word} (hf : DriftFree ws) {w : Word} (hw : w ∈ ws) (hr : w.role ≠ none) :
    drift w.before = 0 :=
  (drift_eq_zero_iff w.before).mpr (hf w hw hr)

theorem countP_bind_isAttempted (names : List Text) (ws : List Word) :
    ws.countP (fun w => decide (w.role = some .bind) && isAttempted names w) = ws.countP fun w => w.role = some .bind := by
  refine List.countP_congr ?_
  intro w _
  by_cases h : w.role = some .bind <;> simp [isAttempted, h]

theorem countP_reference_isAttempted (names : List Text) (ws : List Word) :
    ws.countP (fun w => decide (w.role = some .reference) && isAttempted names w) =
      ws.countP fun w => w.role = some .reference && names.contains w.spelling := by
  refine List.countP_congr ?_
  intro w _
  by_cases h : w.role = some .reference <;> simp [isAttempted, h]

theorem isAttempted_congr {names names' : List Text} (h : ∀ n, n ∈ names ↔ n ∈ names') :
    isAttempted names = isAttempted names' := by
  funext w
  have hcontains : names.contains w.spelling = names'.contains w.spelling := by
    rw [Bool.eq_iff_iff, List.contains_iff_mem, List.contains_iff_mem, h]
  unfold isAttempted
  rw [hcontains]

section Exact

variable {file : Text} {source : Bytes} {tree : Node} {ws : List Word}

/-- Every word that is tried is found. -/
theorem Parsed.holds_of_attempted (h : Parsed file source tree ws) (hf : DriftFree ws) {w : Word}
    (hw : w ∈ attempted source ws) : w.holds source = true := by
  rw [attempted, List.mem_filter] at hw
  obtain ⟨hmem, hatt⟩ := hw
  have hrole := role_of_isAttempted hatt
  exact h.holds_of_drift hmem hrole (hf.drift_eq_zero hmem hrole)

theorem Parsed.accepted_of_driftFree (h : Parsed file source tree ws) (hf : DriftFree ws) :
    accepted source ws = attempted source ws := by
  unfold accepted
  rw [List.filter_eq_self]
  intro w hw
  exact h.holds_of_attempted hf hw

theorem Parsed.refused_of_driftFree (h : Parsed file source tree ws) (hf : DriftFree ws) :
    (attempted source ws).filter (fun w => !w.holds source) = [] := by
  rw [List.filter_eq_nil_iff]
  intro w hw
  rw [h.holds_of_attempted hf hw]
  decide

/-- All names of binds are bound. -/
theorem Parsed.mem_boundNames_of_driftFree (h : Parsed file source tree ws) (hf : DriftFree ws) (n : Text) :
    n ∈ boundNames source ws ↔ ∃ w ∈ ws, w.role = some .bind ∧ w.spelling = n := by
  rw [mem_boundNames]
  constructor
  · rintro ⟨w, hw, hb, _, hn⟩
    exact ⟨w, hw, hb, hn⟩
  · rintro ⟨w, hw, hb, hn⟩
    have hrole : w.role ≠ none := by simp [hb]
    exact ⟨w, hw, hb, h.holds_of_drift hw hrole (hf.drift_eq_zero hw hrole), hn⟩

/-- Renaming words that are free of drift. -/
theorem Parsed.renameLocals_of_driftFree {identity separator : Text} {tag : String} {sep : Bytes}
    (h : Parsed file source tree ws) (hf : DriftFree ws) (ht : fileTag identity = .ok tag)
    (hs : separator.encode = .ok sep) :
    ∃ names : List Text,
      names.Pairwise Text.Before ∧
      (∀ n, n ∈ names ↔ ∃ w ∈ ws, w.role = some .bind ∧ w.spelling = n) ∧
      renameLocals tree source identity separator = ([], .ok
        { code := ws.flatMap (Word.bytesWith (Utf8.encode tag ++ sep) (isAttempted names))
          tag := tag
          names := names
          bindCount := ws.countP fun w => w.role = some .bind
          referenceCount := ws.countP fun w => w.role = some .reference && names.contains w.spelling
          skipped := [] }) := by
  obtain ⟨names, skipped, heq, hsorted, hmem, hskipped⟩ := h.renameLocals_eq ht hs
  have hnames (n : Text) : n ∈ names ↔ ∃ w ∈ ws, w.role = some .bind ∧ w.spelling = n :=
    (hmem n).trans (h.mem_boundNames_of_driftFree hf n)
  have haccepted : accepted source ws = ws.filter (isAttempted names) := by
    rw [h.accepted_of_driftFree hf, attempted, isAttempted_congr hmem]
  have hnone : skipped = [] := by
    rw [h.refused_of_driftFree hf] at hskipped
    exact List.map_eq_nil_iff.mp hskipped.eq_nil
  have hundrifted : ∀ w ∈ ws, isAttempted names w = true → w.role ≠ none ∧ drift w.before = 0 := by
    intro w hw hm
    have hrole := role_of_isAttempted hm
    exact ⟨hrole, hf.drift_eq_zero hw hrole⟩
  refine ⟨names, hsorted, hnames, ?_⟩
  rw [heq, haccepted, h.weave_eq hs hundrifted, hnone, List.countP_filter, List.countP_filter,
    countP_bind_isAttempted, countP_reference_isAttempted]

end Exact

/-- A text that is free of drift is renamed exactly: the tag and the separator stand before the name
    of each bind and before each reference to a bound name, and nowhere else. -/
theorem rename_exact {file : Text} {source : Bytes} {tree : Node} {identity separator : Text} {tag : String} {sep : Bytes}
    {text : List Char} (hp : parse file source = .ok tree) (hd : Utf8.decode source = .ok text)
    (hf : DriftFree (words file text)) (ht : fileTag identity = .ok tag) (hs : separator.encode = .ok sep) :
    texts (words file text) = text ∧ Derives (.expr 1 tree) (significant (words file text)) ∧
      ∃ names : List Text,
        names.Pairwise Text.Before ∧
        (∀ n, n ∈ names ↔ ∃ w ∈ words file text, w.role = some .bind ∧ w.spelling = n) ∧
        renameLocals tree source identity separator = ([], .ok
          { code := (words file text).flatMap (Word.bytesWith (Utf8.encode tag ++ sep) (isAttempted names))
            tag := tag
            names := names
            bindCount := (words file text).countP fun w => w.role = some .bind
            referenceCount := (words file text).countP fun w => w.role = some .reference && names.contains w.spelling
            skipped := [] }) := by
  obtain ⟨text', hd', htexts, hr⟩ := exists_parsed hp
  obtain rfl : text' = text := Except.ok.inj (hd'.symm.trans hd)
  exact ⟨htexts, hr.scans.derives, hr.renameLocals_of_driftFree hf ht hs⟩

instance (ws : List Word) : Decidable (DriftFree ws) :=
  inferInstanceAs (Decidable (∀ w ∈ ws, w.role ≠ none → (lineTail w.before).all isAscii = true))

theorem exists_tree {file : Text} {source : Bytes} (h : (parse file source).isOk = true) :
    ∃ tree, parse file source = .ok tree := by
  cases hp : parse file source with
  | error => rw [hp] at h; cases h
  | ok tree => exact ⟨tree, rfl⟩

/-- A bind in an expression and one in an object, with references to both. -/
theorem rename_exact_object :
    ∃ tree, parse "" (Utf8.encode "local x=1;\x7blocal y=x,z:y\x7d") = .ok tree ∧
      ∃ names : List Text,
        (∀ n, n ∈ names ↔
          ∃ w ∈ words "" "local x=1;\x7blocal y=x,z:y\x7d".toList, w.role = some .bind ∧ w.spelling = n) ∧
        renameLocals tree (Utf8.encode "local x=1;\x7blocal y=x,z:y\x7d") "a" "_" = ([], .ok
          { code := (words "" "local x=1;\x7blocal y=x,z:y\x7d".toList).flatMap
              (Word.bytesWith (Utf8.encode "_e40c292c" ++ Utf8.encode "_") (isAttempted names))
            tag := "_e40c292c"
            names := names
            bindCount := (words "" "local x=1;\x7blocal y=x,z:y\x7d".toList).countP fun w => w.role = some .bind
            referenceCount := (words "" "local x=1;\x7blocal y=x,z:y\x7d".toList).countP
              fun w => w.role = some .reference && names.contains w.spelling
            skipped := [] }) := by
  obtain ⟨tree, hp⟩ : ∃ tree, parse "" (Utf8.encode "local x=1;\x7blocal y=x,z:y\x7d") = .ok tree :=
    exists_tree (by decide +kernel)
  obtain ⟨_, _, names, _, hnames, heq⟩ :=
    rename_exact hp (Utf8.decode_encodeChars _) (by decide +kernel) (show fileTag "a" = .ok "_e40c292c" by decide +kernel)
      (Text.encode_ofString "_")
  exact ⟨tree, hp, names, hnames, heq⟩

/-! ## Sound renaming -/

def steadyNames (ws : List Word) : List Text :=
  (ws.filter fun w => decide (w.role = some .bind) && drift w.before == 0).map Word.spelling

/-- Only words that are meant and did not drift are edited, and the other ones that are meant are skipped:
    binds, and references to binds that did not drift. -/
structure RenamesSoundly (ws : List Word) (mark code : Bytes) (skipped : List Skipped) : Prop where
  code_eq : code = ws.flatMap (Word.bytesWith mark fun w => isAttempted (steadyNames ws) w && drift w.before == 0)
  reported : (skipped.map (·.occurrence.mark)).Perm
    (marks (ws.filter fun w => isAttempted (steadyNames ws) w && drift w.before != 0))

/-- Where two properties, one implying the other, hold equally often, they hold together. -/
theorem of_countP_eq {p q : Word → Bool} {ws : List Word} (hpq : ∀ w ∈ ws, p w = true → q w = true)
    (h : ws.countP p = ws.countP q) : ∀ w ∈ ws, q w = true → p w = true := by
  induction ws with
  | nil => intro w hw; cases hw
  | cons v ws ih =>
    have hle : ws.countP p ≤ ws.countP q := List.countP_mono_left fun w hw => hpq w (List.mem_cons_of_mem v hw)
    have hv := hpq v List.mem_cons_self
    rw [List.countP_cons, List.countP_cons] at h
    have heq : ws.countP p = ws.countP q ∧ (q v = true → p v = true) := by
      by_cases hp : p v = true
      · rw [if_pos hp, if_pos (hv hp)] at h
        exact ⟨by omega, fun _ => hp⟩
      · rw [if_neg hp] at h
        by_cases hq : q v = true
        · rw [if_pos hq] at h
          omega
        · rw [if_neg hq] at h
          exact ⟨by omega, fun hq' => absurd hq' hq⟩
    intro w hw hqw
    rcases List.mem_cons.mp hw with rfl | hw
    · exact heq.2 hqw
    · exact ih (fun w hw => hpq w (List.mem_cons_of_mem v hw)) heq.1 w hw hqw

theorem length_marks {ws : List Word} (h : ∀ w ∈ ws, w.role ≠ none) : (marks ws).length = ws.length := by
  induction ws with
  | nil => rfl
  | cons w ws ih =>
    obtain ⟨k, hk⟩ := Option.ne_none_iff_exists'.mp (h w List.mem_cons_self)
    rw [marks_cons, List.length_append, ih fun v hv => h v (List.mem_cons_of_mem w hv)]
    simp [Word.mark?, hk, Nat.add_comm]

section Sound

variable {file : Text} {source : Bytes} {tree : Node} {ws : List Word}

/-- When no drifted bind is found, the names that are bound are those of the binds that did not drift. -/
theorem Parsed.isAttempted_eq (h : Parsed file source tree ws)
    (hno : ∀ w ∈ ws, w.role = some .bind → drift w.before ≠ 0 → w.holds source = false) :
    isAttempted (boundNames source ws) = isAttempted (steadyNames ws) := by
  have hnames : boundNames source ws = steadyNames ws := by
    refine congrArg _ (List.filter_congr fun w hw => ?_)
    by_cases hb : w.role = some .bind
    · by_cases hd : drift w.before = 0
      · simp [hd, h.holds_of_drift hw (by simp [hb]) hd]
      · simp [hd, hno w hw hb hd]
    · simp [hb]
  rw [hnames]

/-- If no drifted word is found, the words that are tried are found or not as they drifted or not. -/
theorem Parsed.filter_attempted (h : Parsed file source tree ws)
    (hno : ∀ w ∈ ws, isAttempted (boundNames source ws) w = true → drift w.before ≠ 0 → w.holds source = false)
    (p : Bool → Bool) :
    (attempted source ws).filter (fun w => p (w.holds source)) =
      ws.filter fun w => isAttempted (steadyNames ws) w && p (drift w.before == 0) := by
  have hbinds : ∀ w ∈ ws, w.role = some .bind → drift w.before ≠ 0 → w.holds source = false := by
    intro w hw hb
    exact hno w hw (by simp [isAttempted, hb])
  rw [h.isAttempted_eq hbinds] at hno
  rw [attempted, h.isAttempted_eq hbinds, List.filter_filter]
  refine List.filter_congr ?_
  intro w hw
  cases ha : isAttempted (steadyNames ws) w with
  | false => rw [Bool.and_false, Bool.false_and]
  | true =>
    rw [Bool.and_true, Bool.true_and]
    by_cases hd : drift w.before = 0
    · rw [h.holds_of_drift hw (role_of_isAttempted ha) hd, hd]
      rfl
    · rw [hno w hw ha hd, beq_false_of_ne hd]

/-- When what is reported is what drifted, no drifted word is found. -/
theorem Parsed.holds_of_reported (h : Parsed file source tree ws)
    (hp : (marks ((attempted source ws).filter fun w => !w.holds source)).Perm
      (marks (ws.filter fun w => isAttempted (steadyNames ws) w && drift w.before != 0))) :
    ∀ w ∈ ws, isAttempted (boundNames source ws) w = true → drift w.before ≠ 0 → w.holds source = false := by
  -- first the binds, which are all tried: counting them in both lists
  have hbinds : ∀ w ∈ ws, w.role = some .bind → drift w.before ≠ 0 → w.holds source = false := by
    have hlen := (hp.filter (·.kind = .bind)).length_eq
    rw [filter_marks, filter_marks, marksOf, marksOf, List.length_map, List.length_map, attempted, List.filter_filter,
      List.filter_filter, List.filter_filter, ← List.countP_eq_length_filter, ← List.countP_eq_length_filter] at hlen
    have hall := of_countP_eq (fun w hw hm => ?_) hlen
    · intro w hw hb hd
      simpa [hb, isAttempted] using hall w hw (by simp [hb, isAttempted, hd])
    · simp only [Bool.and_eq_true, decide_eq_true_eq, Bool.not_eq_true', bne_iff_ne] at hm ⊢
      obtain ⟨⟨hb, hh⟩, _⟩ := hm
      refine ⟨hb, by simp [isAttempted, hb], fun hd => ?_⟩
      rw [h.holds_of_drift hw (by simp [hb]) hd] at hh
      cases hh
  have hlen := hp.length_eq
  rw [attempted, h.isAttempted_eq hbinds, length_marks, length_marks, List.filter_filter, ← List.countP_eq_length_filter,
    ← List.countP_eq_length_filter] at hlen
  · have hall := of_countP_eq (fun w hw hm => ?_) hlen
    · intro w hw ha hd
      rw [h.isAttempted_eq hbinds] at ha
      simpa [ha] using hall w hw (by simp [ha, hd])
    · simp only [Bool.and_eq_true, Bool.not_eq_true', bne_iff_ne] at hm ⊢
      refine ⟨hm.2, fun hd => ?_⟩
      rw [h.holds_of_drift hw (role_of_isAttempted hm.2) hd] at hm
      cases hm.1
  · intro w hw
    exact role_of_isAttempted (Bool.and_eq_true_iff.mp (List.mem_filter.mp hw).2).1
  · intro w hw
    exact role_of_isAttempted (List.mem_filter.mp (List.mem_of_mem_filter hw)).2

end Sound

/-- Renaming is sound exactly when no word that it tries has drifted to a place that holds its name. -/
theorem renames_soundly_iff {file : Text} {source : Bytes} {tree : Node} {identity separator : Text} {tag : String}
    {sep : Bytes} {text : List Char} (hp : parse file source = .ok tree) (hd : Utf8.decode source = .ok text)
    (ht : fileTag identity = .ok tag) (hs : separator.encode = .ok sep) :
    ∃ skipped renamed, renameLocals tree source identity separator = (skipped, .ok renamed) ∧
      (RenamesSoundly (words file text) (Utf8.encode tag ++ sep) renamed.code skipped ↔
        ∀ w ∈ words file text, isAttempted (boundNames source (words file text)) w = true → drift w.before ≠ 0 →
          w.holds source = false) := by
  obtain ⟨text', hd', _, hr⟩ := exists_parsed hp
  obtain rfl : text' = text := Except.ok.inj (hd'.symm.trans hd)
  obtain ⟨names, skipped, heq, _, _, hskipped⟩ := hr.renameLocals_eq ht hs
  refine ⟨skipped, _, heq, ?_, ?_⟩
  · intro hsound
    exact hr.holds_of_reported (hskipped.symm.trans hsound.reported)
  · intro hno
    constructor
    · have haccepted : accepted source (words file text') = _ := hr.filter_attempted hno id
      dsimp only
      rw [haccepted]
      refine hr.weave_eq hs ?_
      intro w _ hm
      simp only [id, Bool.and_eq_true, beq_iff_eq] at hm
      exact ⟨role_of_isAttempted hm.1, hm.2⟩
    · rw [hr.filter_attempted hno not] at hskipped
      exact hskipped

/-- A reference that drifted to another text is left alone and reported. -/
theorem renames_soundly_array :
    ∃ tree, parse "" (Utf8.encode "local x=1;[\"é\",x]") = .ok tree ∧
      ∃ skipped renamed, renameLocals tree (Utf8.encode "local x=1;[\"é\",x]") "a" "_" = (skipped, .ok renamed) ∧
        RenamesSoundly (words "" "local x=1;[\"é\",x]".toList) (Utf8.encode "_e40c292c" ++ Utf8.encode "_") renamed.code
          skipped := by
  obtain ⟨tree, hp⟩ : ∃ tree, parse "" (Utf8.encode "local x=1;[\"é\",x]") = .ok tree := exists_tree (by decide +kernel)
  obtain ⟨skipped, renamed, heq, hiff⟩ :=
    renames_soundly_iff hp (Utf8.decode_encodeChars _) (show fileTag "a" = .ok "_e40c292c" by decide +kernel)
      (Text.encode_ofString "_")
  exact ⟨tree, hp, skipped, renamed, heq, hiff.mpr (by decide +kernel)⟩

/-- A reference that drifted by three bytes, to the same letter at the end of a string: the string is
    edited, the reference is not, and nothing is reported. -/
theorem rename_edits_a_string :
    ∃ tree, parse "" (Utf8.encode "local x=1;[\"😀x\",x]") = .ok tree ∧
      ∃ renamed, renameLocals tree (Utf8.encode "local x=1;[\"😀x\",x]") "a" "_" = ([], .ok renamed) ∧
        renamed.code = Utf8.encode "local _e40c292c_x=1;[\"😀_e40c292c_x\",x]" ∧
        ¬ RenamesSoundly (words "" "local x=1;[\"😀x\",x]".toList) (Utf8.encode "_e40c292c" ++ Utf8.encode "_")
          renamed.code [] := by
  obtain ⟨tree, hp⟩ : ∃ tree, parse "" (Utf8.encode "local x=1;[\"😀x\",x]") = .ok tree := exists_tree (by decide +kernel)
  obtain ⟨text, hd, _, hr⟩ := exists_parsed hp
  obtain rfl : text = _ := Except.ok.inj (hd.symm.trans (Utf8.decode_encodeChars _))
  obtain ⟨names, skipped, heq, _, _, hskipped⟩ :=
    hr.renameLocals_eq (show fileTag "a" = .ok "_e40c292c" by decide +kernel) (Text.encode_ofString "_")
  have hnone : skipped = [] := by
    refine List.map_eq_nil_iff.mp (List.length_eq_zero_iff.mp (hskipped.length_eq.trans ?_))
    decide +kernel
  subst hnone
  refine ⟨tree, hp, _, heq, by dsimp only; decide +kernel, fun hsound => ?_⟩
  have hlen := hsound.reported.length_eq
  revert hlen
  decide +kernel

end JsonnetLocals
