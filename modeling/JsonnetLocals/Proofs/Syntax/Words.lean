/-
  JsonnetLocals.Proofs.Syntax.Words — the words that a text is cut into while it is read.

  A word is a token, or a piece of layout or comment, with the text in front of it and the part it
  plays: the name of a bind, a reference, or neither. A name that begins an argument is a
  reference unless `=` follows, so its part is known one token later (`Focus.role`).

  `words` lists the words of a text, `Scans` is the same run as a relation, one constructor for
  each move of `parseFrom`:
  - a text is read exactly when it scans (`scans_of_parseFrom`, `Scans.parseFrom_eq`), and then in
    one way (`Scans.words_eq`),
  - the words make up the text (`Scans.texts_eq`), and each stands where the text before it ends
    (`Scans.placed`),
  - only names play a part (`Scans.isName`).
-/

import JsonnetLocals.Proofs.Syntax.Lexeme
import JsonnetLocals.Rename.Renamer
import Mathlib.Tactic.Common

namespace JsonnetLocals

/-- A piece of a text, with the text in front of it and the part it plays. -/
structure Word where
  before : List Char
  token : Token
  role : Option OccurrenceKind

namespace Word

def text (w : Word) : List Char := w.token.text

def range (w : Word) : Range := w.token.range

def spelling (w : Word) : Text := w.token.spelling

def isIgnored (w : Word) : Bool := w.token.terminal.isIgnored

def Is (w : Word) (s : Symbol) : Prop := w.token.terminal = .symbol s ∧ w.role = none

def IsName (w : Word) (role : Option OccurrenceKind) : Prop := w.token.terminal = .name ∧ w.role = role

end Word

def texts (ws : List Word) : List Char := ws.flatMap Word.text

@[simp] theorem texts_nil : texts [] = [] := rfl
@[simp] theorem texts_cons (w : Word) (ws : List Word) : texts (w :: ws) = w.text ++ texts ws := List.flatMap_cons
theorem texts_append (us ws : List Word) : texts (us ++ ws) = texts us ++ texts ws := List.flatMap_append

/-- The words that are no layout and no comment. -/
def significant (ws : List Word) : List Word := ws.filter fun w => !w.isIgnored

theorem significant_skip {w : Word} (h : w.isIgnored = true) (ws : List Word) : significant (w :: ws) = significant ws :=
  List.filter_cons_of_neg (by simp [h])

theorem significant_take {w : Word} (h : w.isIgnored = false) (ws : List Word) :
    significant (w :: ws) = w :: significant ws :=
  List.filter_cons_of_pos (by simp [h])

def nextToken (ws : List Word) : Option Token := (significant ws).head?.map Word.token

/-- The part that a token plays at a focus, when `next` is the token after it. -/
def Focus.role (f : Focus) (t : Token) (next : Option Token) : Option OccurrenceKind :=
  if t.terminal = .name then
    match f with
    | .bindName _ => some .bind
    | .argument _ _ => if next.any (·.isSymbol .eq) then none else some .reference
    | f => if f.context.startsOperand then some .reference else none
  else none

def placeAfter (before : List Char) : Position := Position.origin.advance before

def tokenAt (file : Text) (before : List Char) (t : Terminal) (text : List Char) : Token :=
  ⟨t, text, ⟨file, placeAfter before, placeAfter (before ++ text)⟩⟩

/-- The words of a text that is read from the state `s` on. -/
def wordsFrom (file : Text) (s : State) (before : List Char) : List Char → List Word
  | [] => []
  | c :: rest =>
    match _h : Terminal.first s.focus.context.admits (c :: rest) with
    | none => []
    | some (t, w) =>
      let text := (c :: rest).take w
      let token := tokenAt file before t text
      if t.isIgnored then ⟨before, token, none⟩ :: wordsFrom file s (before ++ text) ((c :: rest).drop w)
      else
        match s.feed token with
        | none => []
        | some s' =>
          let ws := wordsFrom file s' (before ++ text) ((c :: rest).drop w)
          ⟨before, token, s.focus.role token (nextToken ws)⟩ :: ws
termination_by cs => cs.length
decreasing_by
  all_goals
    have := Terminal.first_pos _h
    simp only [List.length_drop, List.length_cons]
    omega

def words (file : Text) (text : List Char) : List Word := wordsFrom file .start [] text

/-! ## Runs -/

/-- From the state `s`, behind `before`, the text is cut into the words and gives the tree. -/
inductive Scans (file : Text) : State → List Char → List Char → List Word → Node → Prop
  | stop {s : State} {before : List Char} {e : Node} : s.finish = some e → s.fault = none → Scans file s before [] [] e
  | skip {s : State} {before text rest : List Char} {t : Terminal} {ws : List Word} {e : Node} :
      Terminal.first s.focus.context.admits (text ++ rest) = some (t, text.length) → t.isIgnored = true →
      Scans file s (before ++ text) rest ws e →
      Scans file s before (text ++ rest) (⟨before, tokenAt file before t text, none⟩ :: ws) e
  | take {s s' : State} {before text rest : List Char} {t : Terminal} {ws : List Word} {e : Node} :
      Terminal.first s.focus.context.admits (text ++ rest) = some (t, text.length) → t.isIgnored = false →
      s.feed (tokenAt file before t text) = some s' → Scans file s' (before ++ text) rest ws e →
      Scans file s before (text ++ rest)
        (⟨before, tokenAt file before t text, s.focus.role (tokenAt file before t text) (nextToken ws)⟩ :: ws) e

theorem placeAfter_append (before text : List Char) :
    placeAfter (before ++ text) = (placeAfter before).advance text := List.foldl_append

/-- A text in which a terminal is found is its spelling and a rest. -/
theorem exists_split {allowed : Terminal → Bool} {cs : List Char} {t : Terminal} {w : Nat}
    (h : Terminal.first allowed cs = some (t, w)) :
    ∃ text rest, cs = text ++ rest ∧ text.length = w ∧ text ≠ [] := by
  obtain ⟨_, hpos, hle⟩ := Terminal.first_width h
  have hlen : (cs.take w).length = w := by rw [List.length_take, Nat.min_eq_left hle]
  refine ⟨cs.take w, cs.drop w, (List.take_append_drop w cs).symm, hlen, ?_⟩
  intro e
  rw [e] at hlen
  simp at hlen
  omega

section Moves

variable {file : Text} {s s' : State} {before text rest : List Char} {t : Terminal}

theorem text_ne_nil (h : Terminal.first s.focus.context.admits (text ++ rest) = some (t, text.length)) : text ≠ [] := by
  rintro rfl
  exact absurd (Terminal.first_width h).2.1 (Nat.lt_irrefl 0)

theorem parseFrom_skip {last : Position} (h : Terminal.first s.focus.context.admits (text ++ rest) = some (t, text.length))
    (hi : t.isIgnored = true) :
    parseFrom file s (placeAfter before) last (text ++ rest) = parseFrom file s (placeAfter (before ++ text)) last rest := by
  obtain ⟨c, cs, rfl⟩ := List.exists_cons_of_ne_nil (text_ne_nil h)
  rw [List.cons_append] at h ⊢
  rw [parseFrom]
  split
  · simp_all
  · rename_i u w hu
    obtain ⟨rfl, rfl⟩ : u = t ∧ w = (c :: cs).length := by simpa [hu] using h
    rw [if_pos hi, ← List.cons_append, List.take_left, List.drop_left, placeAfter_append]

theorem parseFrom_take {last : Position} (h : Terminal.first s.focus.context.admits (text ++ rest) = some (t, text.length))
    (hi : t.isIgnored = false) (hf : s.feed (tokenAt file before t text) = some s') :
    parseFrom file s (placeAfter before) last (text ++ rest) =
      parseFrom file s' (placeAfter (before ++ text)) (placeAfter before) rest := by
  obtain ⟨c, cs, rfl⟩ := List.exists_cons_of_ne_nil (text_ne_nil h)
  rw [List.cons_append] at h ⊢
  rw [parseFrom]
  split
  · simp_all
  · rename_i u w hu
    obtain ⟨rfl, rfl⟩ : u = t ∧ w = (c :: cs).length := by simpa [hu] using h
    rw [if_neg (by simp [hi]), ← List.cons_append, List.take_left, List.drop_left, ← placeAfter_append]
    have : s.feed ⟨u, c :: cs, ⟨file, placeAfter before, placeAfter (before ++ c :: cs)⟩⟩ = some s' := hf
    rw [this]

theorem parseFrom_refuse {last : Position} (h : Terminal.first s.focus.context.admits (text ++ rest) = some (t, text.length))
    (hi : t.isIgnored = false) (hf : s.feed (tokenAt file before t text) = none) :
    parseFrom file s (placeAfter before) last (text ++ rest) = .error (.unexpectedToken t.label text (placeAfter before)) := by
  obtain ⟨c, cs, rfl⟩ := List.exists_cons_of_ne_nil (text_ne_nil h)
  rw [List.cons_append] at h ⊢
  rw [parseFrom]
  split
  · simp_all
  · rename_i u w hu
    obtain ⟨rfl, rfl⟩ : u = t ∧ w = (c :: cs).length := by simpa [hu] using h
    rw [if_neg (by simp [hi]), ← List.cons_append, List.take_left, ← placeAfter_append]
    have : s.feed ⟨u, c :: cs, ⟨file, placeAfter before, placeAfter (before ++ c :: cs)⟩⟩ = none := hf
    rw [this]

theorem wordsFrom_skip (h : Terminal.first s.focus.context.admits (text ++ rest) = some (t, text.length))
    (hi : t.isIgnored = true) :
    wordsFrom file s before (text ++ rest) =
      ⟨before, tokenAt file before t text, none⟩ :: wordsFrom file s (before ++ text) rest := by
  obtain ⟨c, cs, rfl⟩ := List.exists_cons_of_ne_nil (text_ne_nil h)
  rw [List.cons_append] at h ⊢
  rw [wordsFrom]
  split
  · simp_all
  · rename_i u w hu
    obtain ⟨rfl, rfl⟩ : u = t ∧ w = (c :: cs).length := by simpa [hu] using h
    rw [if_pos hi, ← List.cons_append, List.take_left, List.drop_left]

theorem wordsFrom_take (h : Terminal.first s.focus.context.admits (text ++ rest) = some (t, text.length))
    (hi : t.isIgnored = false) (hf : s.feed (tokenAt file before t text) = some s') :
    wordsFrom file s before (text ++ rest) =
      ⟨before, tokenAt file before t text,
        s.focus.role (tokenAt file before t text) (nextToken (wordsFrom file s' (before ++ text) rest))⟩ ::
          wordsFrom file s' (before ++ text) rest := by
  obtain ⟨c, cs, rfl⟩ := List.exists_cons_of_ne_nil (text_ne_nil h)
  rw [List.cons_append] at h ⊢
  rw [wordsFrom]
  split
  · simp_all
  · rename_i u w hu
    obtain ⟨rfl, rfl⟩ : u = t ∧ w = (c :: cs).length := by simpa [hu] using h
    rw [if_neg (by simp [hi]), ← List.cons_append, List.take_left, List.drop_left, hf]

/-- Words end where a token cannot stand. -/
theorem wordsFrom_refuse (h : Terminal.first s.focus.context.admits (text ++ rest) = some (t, text.length))
    (hi : t.isIgnored = false) (hf : s.feed (tokenAt file before t text) = none) :
    wordsFrom file s before (text ++ rest) = [] := by
  obtain ⟨c, cs, rfl⟩ := List.exists_cons_of_ne_nil (text_ne_nil h)
  rw [List.cons_append] at h ⊢
  rw [wordsFrom]
  split
  · rfl
  · rename_i u w hu
    obtain ⟨rfl, rfl⟩ : u = t ∧ w = (c :: cs).length := by simpa [hu] using h
    rw [if_neg (by simp [hi]), ← List.cons_append, List.take_left, hf]

end Moves

/-! ## What a run says of its words -/

section Runs

variable {file : Text} {s : State} {before cs : List Char} {ws : List Word} {e : Node}

/-- A run that scans is a successful parse. -/
theorem Scans.parseFrom_eq (h : Scans file s before cs ws e) (last : Position) :
    parseFrom file s (placeAfter before) last cs = .ok e := by
  induction h generalizing last with
  | stop hf hn => rw [parseFrom, State.result, hf, hn]
  | skip hm hi _ ih => rw [parseFrom_skip hm hi, ih]
  | take hm hi hs _ ih => rw [parseFrom_take hm hi hs, ih]

/-- The words of a run are those of the text. -/
theorem Scans.words_eq (h : Scans file s before cs ws e) : ws = wordsFrom file s before cs := by
  induction h with
  | stop => rw [wordsFrom]
  | skip hm hi _ ih => rw [wordsFrom_skip hm hi, ih]
  | take hm hi hs _ ih => rw [wordsFrom_take hm hi hs, ← ih]

theorem scans_of_parseFrom {last : Position} (h : parseFrom file s (placeAfter before) last cs = .ok e) :
    Scans file s before cs (wordsFrom file s before cs) e := by
  -- on the length of what is left: every move takes at least one character
  induction hn : cs.length using Nat.strongRecOn generalizing s before last cs with
  | _ n ih =>
    subst hn
    match cs with
    | [] =>
      rw [parseFrom, State.result] at h
      split at h
      · cases h
      · split at h
        · cases h
          rw [wordsFrom]
          exact .stop ‹_› ‹_›
        · cases h
    | c :: rest =>
      cases hm : Terminal.first s.focus.context.admits (c :: rest) with
      | none => rw [parseFrom] at h; split at h <;> simp_all
      | some p =>
        obtain ⟨t, w⟩ := p
        obtain ⟨text, rest', hc, rfl, hne⟩ := exists_split hm
        have hlt : rest'.length < (c :: rest).length := by
          rw [hc, List.length_append]
          have := List.length_pos_iff.mpr hne
          omega
        rw [hc] at h hm ⊢
        cases hi : t.isIgnored with
        | true =>
          rw [parseFrom_skip hm hi] at h
          rw [wordsFrom_skip hm hi]
          exact .skip hm hi (ih _ hlt h rfl)
        | false =>
          cases hf : s.feed (tokenAt file before t text) with
          | none => rw [parseFrom_refuse hm hi hf] at h; cases h
          | some s' =>
            rw [parseFrom_take hm hi hf] at h
            rw [wordsFrom_take hm hi hf]
            exact .take hm hi hf (ih _ hlt h rfl)

/-- The words make up the text. -/
theorem Scans.texts_eq (h : Scans file s before cs ws e) : texts ws = cs := by
  induction h with
  | stop => rfl
  | skip _ _ _ ih => rw [texts_cons, ih]; rfl
  | take _ _ _ _ ih => rw [texts_cons, ih]; rfl

/-- Each word stands where the text before it ends. -/
theorem Scans.placed (h : Scans file s before cs ws e) :
    ∀ w ∈ ws, w.range = ⟨file, placeAfter w.before, placeAfter (w.before ++ w.text)⟩ := by
  induction h with
  | stop => intro w hw; cases hw
  | skip _ _ _ ih | take _ _ _ _ ih =>
    intro w hw
    rcases List.mem_cons.mp hw with rfl | hw
    · rfl
    · exact ih w hw

/-- The text before a word is what was read when the run began and the words before it. -/
theorem Scans.before_eq (h : Scans file s before cs ws e) {us vs : List Word} {w : Word} (hw : ws = us ++ w :: vs) :
    w.before = before ++ texts us := by
  induction h generalizing us with
  | stop => simp at hw
  | skip _ _ _ ih | take _ _ _ _ ih =>
    cases us with
    | nil =>
      cases hw
      simp
    | cons u us =>
      rw [List.cons_append, List.cons.injEq] at hw
      rw [ih hw.2, ← hw.1, texts_cons, List.append_assoc]
      rfl

theorem Scans.exists_before_eq (h : Scans file s before cs ws e) : ∀ w ∈ ws, ∃ between, w.before = before ++ between := by
  intro w hw
  obtain ⟨us, vs, hsplit⟩ := List.append_of_mem hw
  exact ⟨texts us, h.before_eq hsplit⟩

/-- A later word has the earlier one in the text before it. -/
theorem Scans.pairwise (h : Scans file s before cs ws e) :
    ws.Pairwise fun v w => ∃ between, w.before = v.before ++ v.text ++ between := by
  induction h with
  | stop => exact .nil
  | skip _ _ hrest ih | take _ _ _ hrest ih => exact .cons hrest.exists_before_eq ih

theorem Scans.text_ne_nil (h : Scans file s before cs ws e) : ∀ w ∈ ws, w.text ≠ [] := by
  induction h with
  | stop => intro w hw; cases hw
  | skip hm _ _ ih | take hm _ _ _ ih =>
    intro w hw
    rcases List.mem_cons.mp hw with rfl | hw
    · exact JsonnetLocals.text_ne_nil hm
    · exact ih w hw

/-- Only names play a part. -/
theorem Scans.isName (h : Scans file s before cs ws e) :
    ∀ w ∈ ws, w.role ≠ none → w.token.terminal = .name ∧ ∃ rest, Lexeme.nameWidth (w.text ++ rest) = w.text.length := by
  induction h with
  | stop => intro w hw; cases hw
  | skip _ _ _ ih =>
    intro w hw hr
    rcases List.mem_cons.mp hw with rfl | hw
    · exact absurd rfl hr
    · exact ih w hw hr
  | @take _ _ _ text rest t _ _ hm _ _ _ ih =>
    intro w hw hr
    rcases List.mem_cons.mp hw with rfl | hw
    · have ht : t = .name := by
        by_contra hne
        exact hr (if_neg hne)
      subst ht
      exact ⟨rfl, rest, (Terminal.first_width hm).1⟩
    · exact ih w hw hr

/-- Layout and comments play no part. -/
theorem Scans.isIgnored_eq_false (h : Scans file s before cs ws e) : ∀ w ∈ ws, w.role ≠ none → w.isIgnored = false := by
  intro w hw hr
  rw [Word.isIgnored, (h.isName w hw hr).1]
  rfl

end Runs

end JsonnetLocals
