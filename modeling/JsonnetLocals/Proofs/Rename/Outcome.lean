/-
  JsonnetLocals.Proofs.Rename.Outcome — what renaming does to a text that was read, word by word.

  Renaming looks for a word where the line index puts the place after the text before it, and
  accepts it if its name stands there (`Word.holds`). It tries the names of binds and the references
  whose name is that of an accepted bind (`attempted`). `Parsed.renameLocals_eq` says what comes
  out: every accepted word is edited where it was looked for, the others that were tried are
  skipped. The edits stand one after another, since later words are looked for later
  (`Parsed.inOrder`).
-/

import JsonnetLocals.Proofs.Rename.Passes
import JsonnetLocals.Proofs.Source.Columns
import JsonnetLocals.Proofs.Source.Splice
import JsonnetLocals.Proofs.Text.Encoding

namespace JsonnetLocals

open Utf8 (encodeChars encodeChars_append)

/-! ## Texts that were read -/

/-- The tree is read from the bytes, whose text is cut into the words. -/
structure Parsed (file : Text) (source : Bytes) (tree : Node) (ws : List Word) : Prop where
  scans : Scans file .start [] (texts ws) ws tree
  encoded : source = encodeChars (texts ws)

theorem exists_parsed {file : Text} {source : Bytes} {tree : Node} (h : parse file source = .ok tree) :
    ∃ text, Utf8.decode source = .ok text ∧ texts (words file text) = text ∧ Parsed file source tree (words file text) := by
  rw [parse] at h
  split at h
  · cases h
  · rename_i text hd
    have hs : Scans file .start [] text (words file text) tree := scans_of_parseFrom h
    have ht := hs.texts_eq
    exact ⟨text, hd, ht, ⟨ht.symm ▸ hs, by rw [ht]; exact Utf8.eq_encodeChars_of_decode hd⟩⟩

theorem Lexeme.isAscii_of_isNameChar {c : Char} (h : Lexeme.isNameChar c = true) : isAscii c = true := by
  simp only [Lexeme.isNameChar, Lexeme.isNameStart, Lexeme.isDigit, Bool.or_eq_true, Bool.and_eq_true, beq_iff_eq,
    decide_eq_true_eq] at h
  refine decide_eq_true ?_
  have le_iff (a b : Char) : a ≤ b ↔ a.toNat ≤ b.toNat := Iff.rfl
  rcases h with ((rfl | ⟨_, h⟩) | ⟨_, h⟩) | ⟨_, h⟩
  · decide
  all_goals
    rw [le_iff] at h
    exact Nat.lt_of_le_of_lt h (by decide)

theorem length_encodeChars_of_all {cs : List Char} (h : cs.all isAscii = true) : (encodeChars cs).length = cs.length := by
  induction cs with
  | nil => rfl
  | cons c cs ih =>
    rw [List.all_cons, Bool.and_eq_true] at h
    rw [Utf8.encodeChars_cons, List.length_append, ih h.2, length_utf8EncodeChar_eq_one_iff.mpr h.1, List.length_cons]
    omega

namespace Word

def target (w : Word) : Nat := resolved w.before

def holds (source : Bytes) (w : Word) : Bool := (source.drop w.target).take w.text.length == encodeChars w.text

/-- What a word that plays a part looks like: name characters, in the text behind `before`. -/
structure Named (ws : List Word) (w : Word) : Prop where
  ne_nil : w.text ≠ []
  chars : w.text.all Lexeme.isNameChar = true
  placed : ∃ file, w.range = ⟨file, placeAfter w.before, placeAfter (w.before ++ w.text)⟩
  split : ∃ after, texts ws = w.before ++ w.text ++ after

end Word

theorem Parsed.named {file : Text} {source : Bytes} {tree : Node} {ws : List Word} (h : Parsed file source tree ws)
    {w : Word} (hw : w ∈ ws) (hr : w.role ≠ none) : w.Named ws := by
  obtain ⟨_, rest, hwidth⟩ := h.scans.isName w hw hr
  obtain ⟨us, vs, hsplit⟩ := List.append_of_mem hw
  have hb : w.before = texts us := h.scans.before_eq hsplit
  have hne : w.text ≠ [] := h.scans.text_ne_nil w hw
  refine ⟨hne, ((Lexeme.nameWidth_append hne).mp hwidth).2.1, ⟨file, h.scans.placed w hw⟩, texts vs, ?_⟩
  rw [hb, hsplit, texts_append, texts_cons, List.append_assoc]

/-! ## Looking for a word -/

section Word

variable {ws : List Word} {w : Word} {k : OccurrenceKind}

theorem Word.Named.newline_notMem (h : w.Named ws) : '\n' ∉ w.text := by
  intro hm
  have := List.all_eq_true.mp h.chars _ hm
  revert this
  decide

theorem Word.Named.isAscii (h : w.Named ws) : w.text.all isAscii = true :=
  List.all_eq_true.mpr fun c hc => Lexeme.isAscii_of_isNameChar (List.all_eq_true.mp h.chars c hc)

theorem Word.Named.resolved_end (h : w.Named ws) : resolved (w.before ++ w.text) = w.target + w.text.length :=
  resolved_append_of_notMem h.newline_notMem

theorem lineTail_append_of_notMem {cs ds : List Char} (h : '\n' ∉ ds) : lineTail (cs ++ ds) = lineTail cs ++ ds := by
  induction ds using List.reverseRecOn with
  | nil => simp
  | append_singleton ds d ih =>
    rw [List.mem_append, List.mem_singleton, not_or] at h
    rw [← List.append_assoc, lineTail_concat, if_neg (Ne.symm h.2), ih h.1, List.append_assoc]

/-- The mark of a word spans the word, whatever part it plays. -/
theorem Word.Named.mark_eq (h : w.Named ws) :
    w.mark k = ⟨k, w.spelling, placeAfter w.before, placeAfter (w.before ++ w.text)⟩ := by
  obtain ⟨file, hr⟩ := h.placed
  have hlen : w.spelling.length = w.text.length := List.length_map ..
  cases k with
  | reference => rw [Word.mark, Occurrence.mark, hr]; rfl
  | bind =>
    have hcount : w.text.count '\n' = 0 := List.count_eq_zero.mpr h.newline_notMem
    rw [Word.mark, Occurrence.mark, hr]
    simp only [Occurrence.stop, placeAfter, advance_eq, hlen, List.count_append, hcount,
      lineTail_append_of_notMem h.newline_notMem, List.length_append]
    congr 2
    push_cast
    omega

/-- The bytes of the text up to the end of a word are no fewer than those up to where it is looked for. -/
theorem Word.Named.target_le (h : w.Named ws) : w.target + w.text.length ≤ (encodeChars (texts ws)).length := by
  obtain ⟨after, hsplit⟩ := h.split
  have h1 := resolved_add_drift (w.before ++ w.text)
  have h2 := congrArg (fun cs => (encodeChars cs).length) hsplit
  simp only [encodeChars_append (w.before ++ w.text) after, List.length_append] at h2
  rw [h.resolved_end] at h1
  omega

theorem slice_eq {source : Bytes} {a n : Nat} (h : a + n ≤ source.length) :
    slice source (a : Int) ((a + n : Nat) : Int) = (source.drop a).take n := by
  have h1 : clampOffset source.length (a : Int) = a := by
    rw [clampOffset, if_neg (by omega)]
    omega
  have h2 : clampOffset source.length ((a + n : Nat) : Int) = a + n := by
    rw [clampOffset, if_neg (by omega)]
    omega
  rw [slice, h1, h2, Nat.add_sub_cancel_left]

/-- A word is located exactly when its name stands where it is looked for. -/
theorem Word.Named.locate_mark (h : w.Named ws) :
    (w.mark k).locate (encodeChars (texts ws)) (LineIndex.build (encodeChars (texts ws))) =
      let span : Span := ⟨w.target, (w.target + w.text.length : Nat)⟩
      if w.holds (encodeChars (texts ws)) then .ok span
      else .error (.mismatch (.differs w.spelling
        (.ofChars (Utf8.decodeLossy (((encodeChars (texts ws)).drop w.target).take w.text.length))) span)) := by
  obtain ⟨after, hsplit⟩ := h.split
  have hline : (placeAfter w.before).line ≠ 0 := by
    rw [placeAfter, advance_eq]
    dsimp only
    omega
  have hresolve : Span.resolve (LineIndex.build (encodeChars (texts ws))) (placeAfter w.before)
      (placeAfter (w.before ++ w.text)) = ⟨w.target, (w.target + w.text.length : Nat)⟩ := by
    have h1 := offset_advance w.before (w.text ++ after)
    have h2 := offset_advance (w.before ++ w.text) after
    rw [← List.append_assoc, ← hsplit] at h1
    rw [← hsplit, h.resolved_end] at h2
    rw [Span.resolve, placeAfter, placeAfter, h1, h2]
    rfl
  have hencode : w.spelling.encode = .ok (encodeChars w.text) := Text.encode_ofChars w.text
  rw [h.mark_eq, Mark.locate, if_pos (by simpa using hline), hresolve, Span.verify, hencode]
  simp only [slice_eq h.target_le, Word.holds, beq_iff_eq]

end Word

/-! ## The words that are tried -/

def Word.edit (tag : String) (separator : Text) (w : Word) : Edit :=
  ⟨w.target, (w.target + w.text.length : Nat), newName tag separator w.spelling, by omega⟩

def boundNames (source : Bytes) (ws : List Word) : List Text :=
  (ws.filter fun w => decide (w.role = some .bind) && w.holds source).map Word.spelling

/-- Whether renaming tries a word when it has bound `names`: a bind, or a reference to one of them. -/
def isAttempted (names : List Text) (w : Word) : Bool :=
  match w.role with
  | some .bind => true
  | some .reference => names.contains w.spelling
  | none => false

def attempted (source : Bytes) (ws : List Word) : List Word := ws.filter (isAttempted (boundNames source ws))

def accepted (source : Bytes) (ws : List Word) : List Word := (attempted source ws).filter (Word.holds source)

theorem mem_boundNames {source : Bytes} {ws : List Word} {n : Text} :
    n ∈ boundNames source ws ↔ ∃ w ∈ ws, w.role = some .bind ∧ w.holds source = true ∧ w.spelling = n := by
  simp [boundNames, and_assoc]

theorem role_of_isAttempted {names : List Text} {w : Word} (h : isAttempted names w = true) : w.role ≠ none := by
  intro hr
  simp [isAttempted, hr] at h

def Edit.bytes (e : Edit) : Bytes := e.text.encode.toOption.getD []

section Parsed

variable {file : Text} {source : Bytes} {tree : Node} {ws : List Word}

/-- Of two words that play a part, the later one is looked for after the earlier one. -/
theorem Parsed.pairwise_target (h : Parsed file source tree ws) :
    ws.Pairwise fun v w => v.role ≠ none → v.target + v.text.length ≤ w.target := by
  refine h.scans.pairwise.imp_of_mem ?_
  intro v w hv _ hvw hr
  obtain ⟨between, hb⟩ := hvw
  have hend := (h.named hv hr).resolved_end
  have hle := resolved_append_le (v.before ++ v.text) between
  show v.target + v.text.length ≤ resolved w.before
  rw [hb]
  omega

/-- The edits of words that play a part, in the order of the text. -/
theorem Parsed.inOrder (h : Parsed file source tree ws) {tag : String} {separator : Text} {us : List Word}
    (hs : us.Sublist ws) (hr : ∀ w ∈ us, w.role ≠ none) : Edit.InOrder source.length (us.map (Word.edit tag separator)) := by
  constructor
  · intro e he
    obtain ⟨w, hw, rfl⟩ := List.mem_map.mp he
    have hn := h.named (hs.subset hw) (hr w hw)
    have hlen := List.length_pos_iff.mpr hn.ne_nil
    have hle := hn.target_le
    rw [← h.encoded] at hle
    simp only [Word.edit]
    omega
  · rw [List.pairwise_map]
    refine (h.pairwise_target.sublist hs).imp_of_mem ?_
    intro v w hv _ hvw
    exact Int.ofNat_le.mpr (hvw (hr v hv))

theorem Word.encode_edit {tag : String} {separator : Text} {sep : Bytes} (hs : separator.encode = .ok sep) (w : Word) :
    (w.edit tag separator).text.encode = .ok (Utf8.encode tag ++ sep ++ encodeChars w.text) :=
  Text.encode_append (Text.encode_append (Text.encode_ofString tag) hs) (Text.encode_ofChars w.text)

theorem Word.bytes_edit {tag : String} {separator : Text} {sep : Bytes} (hs : separator.encode = .ok sep) (w : Word) :
    (w.edit tag separator).bytes = Utf8.encode tag ++ sep ++ encodeChars w.text := by
  rw [Edit.bytes, Word.encode_edit hs]
  rfl

/-! ## The outcome -/

def Renamer.Of (source : Bytes) (r : Renamer) : Prop := r.source = source ∧ r.lineStarts = LineIndex.build source

theorem Parsed.locate_mark (h : Parsed file source tree ws) {r : Renamer} (hr : r.Of source) {w : Word} (hw : w ∈ ws)
    {k : OccurrenceKind} (hk : w.role = some k) :
    (w.holds source = true →
        (w.mark k).locate r.source r.lineStarts = .ok ⟨w.target, (w.target + w.text.length : Nat)⟩) ∧
      (w.holds source = false → ∃ reason, (w.mark k).locate r.source r.lineStarts = .error (.mismatch reason)) := by
  have hl := (h.named hw (by simp [hk])).locate_mark (k := k)
  rw [← h.encoded] at hl
  rw [hr.1, hr.2, hl]
  exact ⟨fun hh => if_pos hh, fun hh => ⟨_, if_neg (by simp [hh])⟩⟩

theorem Parsed.edit?_mark (h : Parsed file source tree ws) {r : Renamer} (hr : r.Of source) {w : Word} (hw : w ∈ ws)
    {k : OccurrenceKind} (hk : w.role = some k) :
    r.edit? (w.mark k) = if w.holds source then some (w.edit r.tag r.separator) else none := by
  obtain ⟨h1, h2⟩ := h.locate_mark hr hw hk
  cases hh : w.holds source with
  | true => exact Renamer.edit?_of_locate (h1 hh) (by dsimp only; omega)
  | false =>
    obtain ⟨reason, hl⟩ := h2 hh
    simp [Renamer.edit?, hl]

theorem Parsed.settles_mark (h : Parsed file source tree ws) {r : Renamer} (hr : r.Of source) {w : Word} (hw : w ∈ ws)
    {k : OccurrenceKind} (hk : w.role = some k) : r.Settles (w.mark k) := by
  obtain ⟨h1, h2⟩ := h.locate_mark hr hw hk
  cases hh : w.holds source with
  | true => exact Or.inl ⟨_, h1 hh, by dsimp only; omega⟩
  | false => exact Or.inr (h2 hh)

end Parsed

/-! ## A pass over the occurrences of a tree -/

section Pass

variable {file : Text} {source : Bytes} {tree : Node} {ws us : List Word} {os : List Occurrence} {k : OccurrenceKind}
  {r : Renamer}

/-- The occurrences are the words `us` of the text, all in the part `k`. -/
structure Matches (ws : List Word) (k : OccurrenceKind) (os : List Occurrence) (us : List Word) : Prop where
  words : ∀ w ∈ us, w ∈ ws ∧ w.role = some k
  marks : (os.map Occurrence.mark).Perm (us.map (Word.mark k))

theorem Matches.exists_word (hm : Matches ws k os us) {o : Occurrence} (ho : o ∈ os) : ∃ w ∈ us, o.mark = w.mark k := by
  obtain ⟨w, hw, he⟩ := List.mem_map.mp (hm.marks.subset (List.mem_map_of_mem ho))
  exact ⟨w, hw, he.symm⟩

theorem Matches.settles (hm : Matches ws k os us) (h : Parsed file source tree ws) (hr : r.Of source) :
    ∀ o ∈ os, r.Settles o.mark := by
  intro o ho
  obtain ⟨w, hw, he⟩ := hm.exists_word ho
  rw [he]
  exact h.settles_mark hr (hm.words w hw).1 (hm.words w hw).2

/-- The edits of a pass are those of the words whose name stands where it is looked for. -/
theorem Matches.edits_perm (hm : Matches ws k os us) (h : Parsed file source tree ws) (hr : r.Of source) :
    (os.filterMap fun o => r.edit? o.mark).Perm ((us.filter (Word.holds source)).map (Word.edit r.tag r.separator)) := by
  have hp := hm.marks.filterMap r.edit?
  rw [List.filterMap_map, List.filterMap_map] at hp
  have hwords : us.filterMap (r.edit? ∘ Word.mark k) = (us.filter (Word.holds source)).map (Word.edit r.tag r.separator) := by
    rw [← List.filterMap_eq_map, List.filterMap_filter]
    refine List.filterMap_congr ?_
    intro w hw
    exact h.edit?_mark hr (hm.words w hw).1 (hm.words w hw).2
  rw [hwords] at hp
  exact hp

/-- A pass skips the other words. -/
theorem Matches.skipped_perm (hm : Matches ws k os us) (h : Parsed file source tree ws) (hr : r.Of source) :
    ((os.filterMap r.skip?).map (·.occurrence.mark)).Perm ((us.filter fun w => !w.holds source).map (Word.mark k)) := by
  rw [Renamer.map_skip? (hm.settles h hr)]
  have hp := hm.marks.filter fun m => (r.edit? m).isNone
  rw [List.filter_map (l := us)] at hp
  refine hp.trans (.of_eq (congrArg _ (List.filter_congr fun w hw => ?_)))
  have := h.edit?_mark hr (hm.words w hw).1 (hm.words w hw).2
  rw [Function.comp, this]
  cases w.holds source <;> rfl

/-- A pass counts the words that it edits. -/
theorem Matches.count_eq (hm : Matches ws k os us) (h : Parsed file source tree ws) (hr : r.Of source) :
    (os.filter fun o => (r.edit? o.mark).isSome).length = (us.filter (Word.holds source)).length := by
  have hp := (hm.edits_perm h hr).length_eq
  rw [List.length_map] at hp
  rw [← hp, ← List.countP_eq_length_filter, List.length_filterMap_eq_countP]

theorem Matches.mem_name (hm : Matches ws k os us) (h : Parsed file source tree ws) (hr : r.Of source) {n : Text} :
    (∃ o ∈ os, (r.edit? o.mark).isSome = true ∧ o.name = n) ↔ ∃ w ∈ us, w.holds source = true ∧ w.spelling = n := by
  have hedit : ∀ w ∈ us, (r.edit? (w.mark k)).isSome = w.holds source := by
    intro w hw
    rw [h.edit?_mark hr (hm.words w hw).1 (hm.words w hw).2]
    cases w.holds source <;> rfl
  constructor
  · rintro ⟨o, ho, hs, rfl⟩
    obtain ⟨w, hw, he⟩ := hm.exists_word ho
    refine ⟨w, hw, ?_, ?_⟩
    · rw [← hedit w hw, ← he, hs]
    · exact (congrArg Mark.name he).symm
  · rintro ⟨w, hw, hh, rfl⟩
    obtain ⟨o, ho, he⟩ := List.mem_map.mp (hm.marks.symm.subset (List.mem_map_of_mem hw))
    refine ⟨o, ho, ?_, congrArg Mark.name he⟩
    rw [he, hedit w hw, hh]

theorem Matches.kind_eq (hm : Matches ws k os us) : ∀ o ∈ os, o.kind = k := by
  intro o ho
  obtain ⟨w, _, he⟩ := hm.exists_word ho
  exact congrArg Mark.kind he

theorem Matches.countP_eq (hm : Matches ws k os us) (h : Parsed file source tree ws) (hr : r.Of source)
    (k' : OccurrenceKind) :
    (os.filter fun o => (r.edit? o.mark).isSome).countP (·.kind = k') =
      if k = k' then (us.filter (Word.holds source)).length else 0 := by
  have hk : ∀ o ∈ os.filter (fun o => (r.edit? o.mark).isSome), o.kind = k := fun o ho =>
    hm.kind_eq o (List.mem_of_mem_filter ho)
  split
  · rw [← hm.count_eq h hr, List.countP_eq_length]
    rintro o ho
    simpa [hk o ho]
  · rw [List.countP_eq_zero]
    rintro o ho
    simpa [hk o ho]

theorem Parsed.matches_binds (h : Parsed file source tree ws) :
    Matches ws .bind tree.bindOccurrences (ws.filter fun w => w.role = some .bind) := by
  refine ⟨fun w hw => by simpa using hw, ?_⟩
  have hp := h.scans.derives.bindOccurrences_perm
  rwa [marksOf_significant h.scans.isIgnored_eq_false] at hp

theorem Parsed.matches_references (h : Parsed file source tree ws) (names : List Text) :
    Matches ws .reference (tree.references.filter fun o => names.contains o.name)
      (ws.filter fun w => names.contains w.spelling && decide (w.role = some .reference)) := by
  refine ⟨fun w hw => ?_, ?_⟩
  · simp only [List.mem_filter, Bool.and_eq_true, decide_eq_true_eq] at hw
    exact ⟨hw.1, hw.2.2⟩
  have hp := h.scans.derives.references_perm
  rw [marksOf_significant h.scans.isIgnored_eq_false] at hp
  have hf := hp.filter fun m => names.contains m.name
  rw [List.filter_map, marksOf, List.filter_map, List.filter_filter] at hf
  exact hf

end Pass

/-! ## The outcome -/

theorem filter_isAttempted_perm (names : List Text) (p : Word → Bool) (ws : List Word) :
    ((ws.filter (isAttempted names)).filter p).Perm
      ((ws.filter fun w => w.role = some .bind).filter p ++
        (ws.filter fun w => names.contains w.spelling && decide (w.role = some .reference)).filter p) := by
  induction ws with
  | nil => rfl
  | cons w ws ih =>
    cases hr : w.role with
    | none => simpa [List.filter_cons, isAttempted, hr] using ih
    | some k =>
      cases k with
      | bind => cases hp : p w <;> simpa [List.filter_cons, isAttempted, hr, hp] using ih
      | reference =>
        cases hp : p w with
        | false => by_cases hc : w.spelling ∈ names <;> simpa [List.filter_cons, isAttempted, hr, hc, hp] using ih
        | true =>
          by_cases hc : w.spelling ∈ names
          · simpa [List.filter_cons, isAttempted, hr, hc, hp] using (ih.cons w).trans List.perm_middle.symm
          · simpa [List.filter_cons, isAttempted, hr, hc, hp] using ih

section Outcome

variable {file : Text} {source : Bytes} {tree : Node} {ws : List Word} {identity separator : Text} {tag : String}
  {sep : Bytes}

def Renamer.initial (source : Bytes) (tag : String) (separator : Text) : Renamer :=
  ⟨source, LineIndex.build source, tag, separator, [], [], [], 0, 0⟩

def Renamer.afterBinds (source : Bytes) (tag : String) (separator : Text) (tree : Node) : Renamer :=
  (Renamer.initial source tag separator).after tree.bindOccurrences

theorem Parsed.mem_bound (h : Parsed file source tree ws) {n : Text} :
    n ∈ (Renamer.afterBinds source tag separator tree).bound ↔ n ∈ boundNames source ws := by
  have hm := h.matches_binds
  have hr : (Renamer.initial source tag separator).Of source := ⟨rfl, rfl⟩
  rw [Renamer.afterBinds, Renamer.mem_bound_after, mem_boundNames]
  have hname := hm.mem_name h hr (n := n)
  simp only [List.mem_filter, decide_eq_true_eq, and_assoc] at hname
  rw [← hname]
  constructor
  · rintro (hn | ⟨o, ho, _, hs, hn⟩)
    · cases hn
    · exact ⟨o, ho, hs, hn⟩
  · rintro ⟨o, ho, hs, hn⟩
    exact Or.inr ⟨o, ho, hm.kind_eq o ho, hs, hn⟩

def Renamer.afterBoth (source : Bytes) (tag : String) (separator : Text) (tree : Node) : Renamer :=
  let r := Renamer.afterBinds source tag separator tree
  r.after (tree.references.filter fun o => r.bound.contains o.name)

/-- The references of the second pass. -/
theorem Parsed.matches_second (h : Parsed file source tree ws) (tag : String) (separator : Text) :
    Matches ws .reference
      (tree.references.filter fun o => (Renamer.afterBinds source tag separator tree).bound.contains o.name)
      (ws.filter fun w => (boundNames source ws).contains w.spelling && decide (w.role = some .reference)) := by
  have hc (n : Text) : (Renamer.afterBinds source tag separator tree).bound.contains n =
      (boundNames source ws).contains n := by
    rw [Bool.eq_iff_iff, List.contains_iff_mem, List.contains_iff_mem]
    exact h.mem_bound
  simp only [hc]
  exact h.matches_references _

theorem Renamer.of_initial (source : Bytes) (tag : String) (separator : Text) :
    (Renamer.initial source tag separator).Of source := ⟨rfl, rfl⟩

theorem Renamer.of_afterBinds (source : Bytes) (tag : String) (separator : Text) (tree : Node) :
    (Renamer.afterBinds source tag separator tree).Of source := ⟨rfl, rfl⟩

theorem Renamer.start_eq (ht : fileTag identity = .ok tag) :
    Renamer.start source identity separator = .ok (Renamer.initial source tag separator) := by
  rw [Renamer.start, ht]
  rfl

/-- The first pass goes through. -/
theorem Parsed.collectBinds_eq (h : Parsed file source tree ws) :
    (Renamer.initial source tag separator).collectBinds tree = (Renamer.afterBinds source tag separator tree, none) :=
  Renamer.recordAll_eq_after (h.matches_binds.settles h (Renamer.of_initial source tag separator))

/-- The second pass goes through. -/
theorem Parsed.collectReferences_eq (h : Parsed file source tree ws) :
    (Renamer.afterBinds source tag separator tree).collectReferences tree =
      (Renamer.afterBoth source tag separator tree, none) :=
  Renamer.recordAll_eq_after ((h.matches_second tag separator).settles h (Renamer.of_afterBinds source tag separator tree))

theorem Parsed.renameLocals_eq_afterBoth (h : Parsed file source tree ws) (ht : fileTag identity = .ok tag) :
    renameLocals tree source identity separator =
      ((Renamer.afterBoth source tag separator tree).skipped, (Renamer.afterBoth source tag separator tree).result) := by
  rw [renameLocals, Renamer.start_eq ht]
  simp only [Renamer.run, h.collectBinds_eq, h.collectReferences_eq]

theorem Parsed.edits_perm (h : Parsed file source tree ws) :
    (Renamer.afterBoth source tag separator tree).edits.Perm ((accepted source ws).map (Word.edit tag separator)) := by
  have h1 := h.matches_binds.edits_perm h (Renamer.of_initial source tag separator)
  have h2 := (h.matches_second tag separator).edits_perm h (Renamer.of_afterBinds source tag separator tree)
  refine (h1.append h2).trans ?_
  show (List.map (Word.edit tag separator) _ ++ List.map (Word.edit tag separator) _).Perm _
  rw [← List.map_append]
  exact (filter_isAttempted_perm _ _ ws).symm.map _

theorem Parsed.apply_eq (h : Parsed file source tree ws) (hs : separator.encode = .ok sep) :
    (Renamer.afterBoth source tag separator tree).apply =
      .ok (Edit.weave source Edit.bytes 0 ((accepted source ws).map (Word.edit tag separator))) := by
  refine Edit.applyAll_eq_weave h.edits_perm (h.inOrder ?_ fun w hw => ?_) fun e he => ?_
  · exact List.filter_sublist.trans List.filter_sublist
  · exact role_of_isAttempted (List.mem_filter.mp (List.mem_of_mem_filter hw)).2
  · obtain ⟨w, _, rfl⟩ := List.mem_map.mp he
    rw [Word.bytes_edit hs, Word.encode_edit hs]

theorem Parsed.skipped_perm (h : Parsed file source tree ws) :
    ((Renamer.afterBoth source tag separator tree).skipped.map (·.occurrence.mark)).Perm
      (marks ((attempted source ws).filter fun w => !w.holds source)) := by
  have h1 := h.matches_binds.skipped_perm h (Renamer.of_initial source tag separator)
  have h2 := (h.matches_second tag separator).skipped_perm h (Renamer.of_afterBinds source tag separator tree)
  have hmarks (k : OccurrenceKind) (us : List Word) (hu : ∀ w ∈ us, w.role = some k) : marks us = us.map (Word.mark k) := by
    rw [marks, ← List.filterMap_eq_map]
    exact List.filterMap_congr fun w hw => by simp [Word.mark?, hu w hw]
  have hperm := (filter_isAttempted_perm (boundNames source ws) (fun w => !w.holds source) ws).filterMap Word.mark?
  refine List.Perm.trans ?_ hperm.symm
  rw [List.filterMap_append]
  refine (List.Perm.of_eq List.map_append).trans (h1.append h2) |>.trans (.of_eq ?_)
  rw [← hmarks .bind, ← hmarks .reference]
  · rfl
  · simp
  · simp

theorem countP_role {k k' : OccurrenceKind} {us : List Word} (h : ∀ w ∈ us, w.role = some k) :
    us.countP (fun w => w.role = some k') = if k = k' then us.length else 0 := by
  split
  · subst k'
    exact List.countP_eq_length.mpr fun w hw => by simp [h w hw]
  · exact List.countP_eq_zero.mpr fun w hw => by simpa [h w hw]

/-- Both passes together count the accepted words of a kind. -/
theorem Parsed.count_eq (h : Parsed file source tree ws) (tag : String) (separator : Text) (k : OccurrenceKind) :
    (tree.bindOccurrences.filter fun o => ((Renamer.initial source tag separator).edit? o.mark).isSome).countP
        (·.kind = k) +
      ((tree.references.filter fun o => (Renamer.afterBinds source tag separator tree).bound.contains o.name).filter
        fun o => ((Renamer.afterBinds source tag separator tree).edit? o.mark).isSome).countP (·.kind = k) =
      (accepted source ws).countP fun w => w.role = some k := by
  have hp := (filter_isAttempted_perm (boundNames source ws) (Word.holds source) ws).countP_eq fun w => w.role = some k
  rw [h.matches_binds.countP_eq h (Renamer.of_initial source tag separator),
    (h.matches_second tag separator).countP_eq h (Renamer.of_afterBinds source tag separator tree), accepted, attempted,
    hp, List.countP_append, countP_role (k := .bind), countP_role (k := .reference)]
  · simp +contextual
  · simp +contextual

theorem kind_of_mem_references {tree : Node} {o : Occurrence} (h : o ∈ tree.references) : o.kind = .reference := by
  obtain ⟨m, _, hm⟩ := List.mem_filterMap.mp h
  unfold Node.reference? at hm
  split at hm
  · cases hm
    rfl
  · cases hm

/-- The second pass binds no names. -/
theorem Renamer.mem_bound_afterBoth {n : Text} :
    n ∈ (Renamer.afterBoth source tag separator tree).bound ↔
      n ∈ (Renamer.afterBinds source tag separator tree).bound := by
  rw [Renamer.afterBoth, Renamer.mem_bound_after]
  refine or_iff_left ?_
  rintro ⟨o, ho, hk, _⟩
  rw [kind_of_mem_references (List.mem_of_mem_filter ho)] at hk
  cases hk

theorem Parsed.mem_bound_afterBoth (h : Parsed file source tree ws) {n : Text} :
    n ∈ (Renamer.afterBoth source tag separator tree).bound ↔ n ∈ boundNames source ws := by
  rw [Renamer.mem_bound_afterBoth, h.mem_bound]

/-- What comes out of renaming a text that was read. -/
theorem Parsed.renameLocals_eq (h : Parsed file source tree ws) (ht : fileTag identity = .ok tag)
    (hs : separator.encode = .ok sep) :
    ∃ names skipped,
      renameLocals tree source identity separator = (skipped, .ok
        { code := Edit.weave source Edit.bytes 0 ((accepted source ws).map (Word.edit tag separator))
          tag := tag
          names := names
          bindCount := (accepted source ws).countP fun w => w.role = some .bind
          referenceCount := (accepted source ws).countP fun w => w.role = some .reference
          skipped := skipped }) ∧
      names.Pairwise Text.Before ∧ (∀ n, n ∈ names ↔ n ∈ boundNames source ws) ∧
      (skipped.map (·.occurrence.mark)).Perm (marks ((attempted source ws).filter fun w => !w.holds source)) := by
  have hb : (Renamer.afterBoth source tag separator tree).bindCount = _ :=
    (congrArg (· + _) (Nat.zero_add _)).trans (h.count_eq tag separator .bind)
  have hr : (Renamer.afterBoth source tag separator tree).referenceCount = _ :=
    (congrArg (· + _) (Nat.zero_add _)).trans (h.count_eq tag separator .reference)
  refine ⟨(Renamer.afterBoth source tag separator tree).bound.mergeSort Text.precedes,
    (Renamer.afterBoth source tag separator tree).skipped, ?_, ?_, fun n => ?_, h.skipped_perm⟩
  · rw [h.renameLocals_eq_afterBoth ht, Renamer.result, h.apply_eq hs, hb, hr]
    rfl
  · exact Text.mergeSort_increasing (Renamer.nodup_bound_after (Renamer.nodup_bound_after .nil))
  · rw [List.mem_mergeSort]
    exact h.mem_bound_afterBoth

end Outcome

end JsonnetLocals
