/-
  JsonnetLocals.Proofs.Rename.Reparse — reading the renamed code again.

  The run of the machine over the code goes hand in hand with the run over the source
  (`Scans.retag`): before each word the two states agree up to names and places, the same terminal
  is taken in both texts, with the tag in front where the word is renamed, and the two states after
  it agree again. So the code is read, and its tree is the tree of the source under the new names
  (`rename_reparses`).
-/

import JsonnetLocals.Config.Settings
import JsonnetLocals.Proofs.Rename.Exact
import JsonnetLocals.Proofs.Syntax.Equivariance
import JsonnetLocals.Proofs.Syntax.Relex
import JsonnetLocals.Proofs.Text.Hex

namespace JsonnetLocals

open Lexeme
open Utf8 (encodeChars encodeChars_append)

/-! ## New names -/

def Renaming.tagged (tag : List Char) (names : List Text) : Renaming where
  name n := if names.contains n then .ofChars tag ++ n else n
  spell cs := if names.contains (.ofChars cs) then tag ++ cs else cs
  name_ofChars cs := by
    split
    · rw [Text.ofChars_append]
    · rfl

def Word.retext (r : Renaming) (w : Word) : List Char := (w.token.rename r w.role.isSome).text

section Retag

variable {file file' : Text} {tag : List Char} {names : List Text}

/-- A word gets the tag or stays. -/
theorem Word.retext_tagged (w : Word) :
    w.retext (.tagged tag names) = if w.role.isSome && names.contains w.spelling then tag ++ w.text else w.text := by
  unfold Word.retext Token.rename
  cases w.role.isSome
  · rfl
  · rfl

theorem Scans.inserted {s : State} {before cs : List Char} {ws : List Word} {e : Node} (h : Scans file s before cs ws e) :
    Inserted tag cs (ws.flatMap (Word.retext (.tagged tag names))) := by
  rw [← h.texts_eq, texts]
  have hname := h.isName
  have hne := h.text_ne_nil
  clear h
  induction ws with
  | nil => exact .nil
  | cons w ws ih =>
    rw [List.flatMap_cons, List.flatMap_cons]
    refine .append ?_ (ih (fun v hv => hname v (List.mem_cons_of_mem w hv)) fun v hv => hne v (List.mem_cons_of_mem w hv))
    rw [Word.retext_tagged]
    split
    · rename_i hr
      rw [Bool.and_eq_true, Option.isSome_iff_ne_none] at hr
      obtain ⟨_, rest, hwidth⟩ := hname w List.mem_cons_self hr.1
      obtain ⟨c, xs, hc⟩ := List.exists_cons_of_ne_nil (hne w List.mem_cons_self)
      have hstart := ((nameWidth_append (hne w List.mem_cons_self)).mp hwidth).1
      rw [hc] at hstart ⊢
      exact .insert c hstart (.refl xs)
    · exact .refl w.text

theorem nextToken_skip {w : Word} (h : w.isIgnored = true) (ws : List Word) : nextToken (w :: ws) = nextToken ws := by
  rw [nextToken, nextToken, significant_skip h]

theorem nextToken_take {w : Word} (h : w.isIgnored = false) (ws : List Word) : nextToken (w :: ws) = some w.token := by
  rw [nextToken, significant_take h]
  rfl

/-- Whether a name that was just read is an occurrence when the words come next. -/
def opensOccurrence (ws : List Word) : Bool := !(nextToken ws).any (·.isSymbol .eq)

/-- The terminal of a word is taken in the new text, with the new spelling. -/
theorem first_retext (ht : IsTag tag) {ctx : Context} {t : Terminal} {cs ds : List Char} {w : Word} (hne : w.text ≠ [])
    (h : Inserted tag cs ds) (hname : w.role.isSome = true → t = .name)
    (hf : Terminal.first ctx.admits (w.text ++ cs) = some (t, w.text.length)) :
    Terminal.first ctx.admits (w.retext (.tagged tag names) ++ ds) = some (t, (w.retext (.tagged tag names)).length) := by
  rw [Word.retext_tagged]
  split
  · rename_i hr
    rw [Bool.and_eq_true] at hr
    obtain rfl := hname hr.1
    exact Terminal.first_tag ht h hne hf
  · exact Terminal.first_inserted ht h hne hf

/-- A run over a text, from a state that agrees up to names and places, over the text with the tag
    in front of the names of the list. -/
theorem Scans.retag (ht : IsTag tag) {s u : State} {before before' cs : List Char} {ws : List Word} {e : Node}
    (h : Scans file s before cs ws e)
    (hu : u.rename .same (opensOccurrence ws) = s.rename (.tagged tag names) (opensOccurrence ws)) :
    ∃ ws' e', Scans file' u before' (ws.flatMap (Word.retext (.tagged tag names))) ws' e' ∧
      e'.rename .same = e.rename (.tagged tag names) := by
  induction h generalizing u before' with
  | @stop s before e hf hn =>
    have hfinish := State.finish_rename (r := .same) (b := opensOccurrence []) u
    rw [hu, State.finish_rename, hf] at hfinish
    obtain ⟨e', he', hsame⟩ := Option.map_eq_some_iff.mp hfinish.symm
    have hfault : u.fault = s.fault := by simpa [State.rename] using congrArg State.fault hu
    exact ⟨[], e', .stop he' (hfault.trans hn), hsame⟩
  | @skip s before text rest t ws e hm hi hrest ih =>
    have hins : Inserted tag rest (ws.flatMap (Word.retext (.tagged tag names))) := hrest.inserted
    have hfirst := Terminal.first_inserted ht hins (JsonnetLocals.text_ne_nil hm) hm
    have hnext : opensOccurrence (⟨before, tokenAt file before t text, none⟩ :: ws) = opensOccurrence ws := by
      rw [opensOccurrence, nextToken_skip (by exact hi), opensOccurrence]
    rw [hnext] at hu
    rw [← State.context_eq hu] at hfirst
    obtain ⟨ws', e', hscans, htree⟩ := ih hu
    exact ⟨_, e', .skip hfirst hi hscans, htree⟩
  | @take s s' before text rest t ws e hm hi hf hrest ih =>
    have hins : Inserted tag rest (ws.flatMap (Word.retext (.tagged tag names))) := hrest.inserted
    generalize hw : Word.mk before (tokenAt file before t text)
      (s.focus.role (tokenAt file before t text) (nextToken ws)) = w at *
    have hname : w.role.isSome = true → t = .name := by
      subst hw
      intro hr
      by_contra hne
      rw [show s.focus.role (tokenAt file before t text) (nextToken ws) = none from if_neg hne] at hr
      cases hr
    have hfirst : Terminal.first s.focus.context.admits (w.retext (.tagged tag names) ++ _) = some (t, _) :=
      first_retext ht (by subst hw; exact JsonnetLocals.text_ne_nil hm) hins hname (by subst hw; exact hm)
    have hnext : opensOccurrence (w :: ws) = !w.token.isSymbol .eq := by
      rw [opensOccurrence, nextToken_take (by subst hw; exact hi)]
      rfl
    rw [hnext] at hu
    rw [← State.context_eq hu] at hfirst
    -- the token at its new place, with its new text
    have htoken : (tokenAt file' before' t (w.retext (.tagged tag names))).rename .same true =
        w.token.rename (.tagged tag names) (s.focus.role w.token (nextToken ws)).isSome := by
      subst hw
      rfl
    obtain ⟨u', hu', hstates⟩ := State.exists_feed hu htoken (by subst hw; exact hf) hrest.fault_eq_none
    obtain ⟨ws', e', hscans, htree⟩ := ih hstates
    rw [List.flatMap_cons]
    exact ⟨_, e', .take hfirst hi hu' hscans, htree⟩

end Retag

/-! ## Tags -/

theorem toList_tagOf (bs : Bytes) : (tagOf bs).toList = '_' :: (Utf8.hexDigits 8 (Fnv.hash bs).toNat).toList := by
  rw [tagOf, String.toList_append]
  rfl

/-- The tag of a file is a tag. -/
theorem isTag_tagOf (bs : Bytes) : IsTag (tagOf bs).toList := by
  rw [toList_tagOf]
  refine ⟨rfl, ?_⟩
  rw [List.all_cons, all_hexDigits (by decide)]
  rfl

/-- A separator may hold the characters of names. -/
theorem isSeparatorChar_eq (c : Char) : isSeparatorChar c = isNameChar c := by
  have halphanum : c.isAlphanum = (c.isUpper || c.isLower || c.isDigit) := rfl
  have hupper : c.isUpper = decide ('A' ≤ c ∧ c ≤ 'Z') := rfl
  have hlower : c.isLower = (decide ('a' ≤ c) && decide (c ≤ 'z')) := rfl
  have hdigit : c.isDigit = (decide ('0' ≤ c) && decide (c ≤ '9')) := rfl
  rw [Bool.eq_iff_iff]
  simp only [isSeparatorChar, isNameChar, isNameStart, isDigit, halphanum, hupper, hlower, hdigit, Bool.or_eq_true,
    Bool.and_eq_true, decide_eq_true_eq, beq_iff_eq]
  constructor
  · rintro (((h | h) | h) | h)
    · exact .inl (.inr h)
    · exact .inl (.inl (.inr h))
    · exact .inr h
    · exact .inl (.inl (.inl h))
  · rintro (((h | h) | h) | h)
    · exact .inr h
    · exact .inl (.inl (.inr h))
    · exact .inl (.inl (.inl h))
    · exact .inl (.inr h)

/-- A separator is a text of name characters. -/
theorem exists_separator {separator : Text} (h : separator.chars.all isSeparatorChar = true) :
    ∃ seps, separator = .ofChars seps ∧ seps.all isNameChar = true := by
  refine ⟨separator.chars, ?_, ?_⟩
  · obtain ⟨codes⟩ := separator
    rw [Text.ofChars, Text.mk.injEq, Text.chars, List.map_map]
    refine (List.map_id' codes).symm.trans (List.map_congr_left fun n hn => ?_)
    -- the replacement of a code that is no character is no separator
    have hc : isSeparatorChar ((Text.char? n).getD Text.replacement) = true :=
      List.all_eq_true.mp h _ (List.mem_map_of_mem hn)
    cases hd : Text.char? n with
    | none =>
      rw [hd] at hc
      cases hc
    | some c =>
      obtain rfl := Text.char?_eq_some_iff.mp hd
      simp [Text.char?_toNat]
  · rw [← h]
    congr 1
    funext c
    exact (isSeparatorChar_eq c).symm

/-! ## The renamed code -/

section Code

variable {file : Text} {source : Bytes} {tree : Node} {ws : List Word} {names : List Text}

/-- The names of the binds of the tree are those of the words that name a bind. -/
theorem Parsed.exists_bind_iff (h : Parsed file source tree ws) (n : Text) :
    (∃ w ∈ ws, w.role = some .bind ∧ w.spelling = n) ↔ ∃ o ∈ tree.bindOccurrences, o.name = n := by
  have hnames := h.matches_binds.marks.map Mark.name
  rw [List.map_map, List.map_map] at hnames
  have hmem := hnames.mem_iff (a := n)
  simp only [List.mem_map, List.mem_filter, decide_eq_true_eq, Function.comp_apply, Occurrence.name_mark, Word.name_mark] at hmem
  rw [hmem]
  simp only [and_assoc]

/-- The code spells the words under the new names. -/
theorem flatMap_bytesWith (tag : String) (seps : List Char) (hb : ∀ w ∈ ws, w.role = some .bind → w.spelling ∈ names) :
    ws.flatMap (Word.bytesWith (Utf8.encode tag ++ encodeChars seps) (isAttempted names)) =
      encodeChars (ws.flatMap (Word.retext (.tagged (tag.toList ++ seps) names))) := by
  induction ws with
  | nil => rfl
  | cons w ws ih =>
    have hw : isAttempted names w = (w.role.isSome && names.contains w.spelling) := by
      cases hr : w.role with
      | none => simp [isAttempted, hr]
      | some k =>
        cases k with
        | bind => simp [isAttempted, hr, hb w List.mem_cons_self hr]
        | reference => simp [isAttempted, hr]
    rw [List.flatMap_cons, List.flatMap_cons, encodeChars_append, ih fun v hv => hb v (List.mem_cons_of_mem w hv),
      Word.bytesWith, Word.retext_tagged, hw]
    split
    · rw [encodeChars_append, encodeChars_append]
      rfl
    · rfl

theorem name_tagged (tag : String) (seps : List Char) (n : Text) :
    (Renaming.tagged (tag.toList ++ seps) names).name n =
      if names.contains n then newName tag (.ofChars seps) n else n := by
  show (if names.contains n then Text.ofChars (tag.toList ++ seps) ++ n else n) = _
  rw [Text.ofChars_append]
  rfl

theorem isTag_append {tag seps : List Char} (h : IsTag tag) (hs : seps.all isNameChar = true) : IsTag (tag ++ seps) := by
  obtain ⟨rest, rfl⟩ := h.exists_eq
  exact ⟨rfl, by rw [List.all_append, h.2, hs, Bool.and_self]⟩

theorem isTag_of_fileTag {identity : Text} {tag : String} (h : fileTag identity = .ok tag) : IsTag tag.toList := by
  unfold fileTag at h
  cases he : identity.encode with
  | error => rw [he] at h; cases h
  | ok bs =>
    rw [he] at h
    cases h
    exact isTag_tagOf bs

/-- Words that are free of drift, renamed and read again. -/
theorem Parsed.exists_reparsed (h : Parsed file source tree ws) (hf : DriftFree ws) {identity separator : Text} {tag : String}
    (ht : fileTag identity = .ok tag) (hs : separator.chars.all isSeparatorChar = true) (file' : Text) :
    ∃ renamed tree',
      renameLocals tree source identity separator = ([], .ok renamed) ∧
      (∀ n, n ∈ renamed.names ↔ ∃ o ∈ tree.bindOccurrences, o.name = n) ∧
      parse file' renamed.code = .ok tree' ∧
      tree'.relabel id id =
        tree.relabel (fun n => if renamed.names.contains n then newName tag separator n else n) id := by
  obtain ⟨seps, rfl, hseps⟩ := exists_separator hs
  obtain ⟨names, _, hnames, heq⟩ := h.renameLocals_of_driftFree hf ht (Text.encode_ofChars seps)
  have hbinds : ∀ w ∈ ws, w.role = some .bind → w.spelling ∈ names := by
    intro w hw hb
    exact (hnames _).mpr ⟨w, hw, hb, rfl⟩
  have htag : IsTag (tag.toList ++ seps) := isTag_append (isTag_of_fileTag ht) hseps
  have hstart : State.start.rename .same (opensOccurrence ws) =
      State.start.rename (.tagged (tag.toList ++ seps) names) (opensOccurrence ws) := rfl
  obtain ⟨ws', tree', hscans, htree⟩ : ∃ ws' tree',
      Scans file' .start [] (ws.flatMap (Word.retext (.tagged (tag.toList ++ seps) names))) ws' tree' ∧
        tree'.rename .same = tree.rename (.tagged (tag.toList ++ seps) names) := h.scans.retag htag hstart
  refine ⟨_, tree', heq, fun n => (hnames n).trans (h.exists_bind_iff n), ?_, ?_⟩
  · rw [flatMap_bytesWith tag seps hbinds, parse, Utf8.decode_encodeChars]
    exact hscans.parseFrom_eq .origin
  · have hname : (Renaming.tagged (tag.toList ++ seps) names).name =
        fun n => if names.contains n then newName tag (.ofChars seps) n else n := funext (name_tagged tag seps)
    rw [Node.rename, Node.rename, hname] at htree
    exact htree

end Code

/-- The code of a text that is free of drift is read again, and its tree is the tree of the text under
    the new names: only the names of binds and of references to them differ, and places. -/
theorem rename_reparses {file : Text} {source : Bytes} {tree : Node} {identity separator : Text} {tag : String}
    {text : List Char} (hp : parse file source = .ok tree) (hd : Utf8.decode source = .ok text)
    (hf : DriftFree (words file text)) (ht : fileTag identity = .ok tag)
    (hs : separator.chars.all isSeparatorChar = true) (file' : Text) :
    ∃ renamed tree',
      renameLocals tree source identity separator = ([], .ok renamed) ∧
      (∀ n, n ∈ renamed.names ↔ ∃ o ∈ tree.bindOccurrences, o.name = n) ∧
      parse file' renamed.code = .ok tree' ∧
      tree'.relabel id id =
        tree.relabel (fun n => if renamed.names.contains n then newName tag separator n else n) id := by
  obtain ⟨text', hd', _, hr⟩ := exists_parsed hp
  obtain rfl : text' = text := Except.ok.inj (hd'.symm.trans hd)
  exact hr.exists_reparsed hf ht hs file'

/-- Names that stand right behind keywords. -/
theorem rename_reparses_glued :
    ∃ tree, parse "" (Utf8.encode "local b=1;if b thenb elseb in[b]") = .ok tree ∧
      ∃ renamed tree',
        renameLocals tree (Utf8.encode "local b=1;if b thenb elseb in[b]") "a" "_" = ([], .ok renamed) ∧
        parse "" renamed.code = .ok tree' ∧
        tree'.relabel id id =
          tree.relabel (fun n => if renamed.names.contains n then newName "_e40c292c" "_" n else n) id := by
  obtain ⟨tree, hp⟩ : ∃ tree, parse "" (Utf8.encode "local b=1;if b thenb elseb in[b]") = .ok tree :=
    exists_tree (by decide +kernel)
  obtain ⟨renamed, tree', heq, _, hp', htree⟩ :=
    rename_reparses hp (Utf8.decode_encodeChars _) (by decide +kernel) (show fileTag "a" = .ok "_e40c292c" by decide +kernel)
      (show (Text.chars "_").all isSeparatorChar = true by decide +kernel) ""
  exact ⟨tree, hp, renamed, tree', heq, hp', htree⟩

end JsonnetLocals
