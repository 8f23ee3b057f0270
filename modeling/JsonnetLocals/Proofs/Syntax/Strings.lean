/-
  JsonnetLocals.Proofs.Syntax.Strings — what quoted and verbatim strings stand for.

  A program that is one string is the value of the string, or has the fault of its literal
  (`parse_string`).
  - A quoted string is read from left to right into 16-bit units, each backslash with the escape that
    it begins (`Writes`, `unescape_append`). Every spelling of a character (`SpellsChar`) writes the
    units of that character, and the units of characters read back as them (`decode_units`).
  - The first backslash that begins no escape is the fault of the literal, and there is no such fault
    without one (`unescape_error_iff`).
  - In a verbatim string only the quote is written in another way: twice (`verbatimFrom_doubled`).
  The main statement is `strings_decode`.
-/

import JsonnetLocals.Proofs.Syntax.Spelling
import JsonnetLocals.Proofs.Text.Hex
import JsonnetLocals.Proofs.Text.Utf8

namespace JsonnetLocals

open Lexeme
open Utf8 (encodeChars decode_encodeChars)

/-! ## Programs that are one string -/

def wholeRange (file : Text) (text : List Char) : Range := ⟨file, .origin, placeAfter text⟩

theorem feed_string {file : Text} {t : Terminal} {kind : StringKind} {text : List Char}
    (hk : StringKind.ofTerminal t = some kind) :
    State.start.feed (tokenAt file [] t text) =
      some (State.perform [] none (State.stringMove kind (tokenAt file [] t text) fun e => .whole e .afterString)) := by
  cases t with
  | textBlock | stringDouble | stringSingle | verbatimDouble | verbatimSingle =>
    cases hk
    rfl
  | _ => cases hk

/-- A program that is one string is the value of the string, or has the fault of its literal. -/
theorem parse_string {file : Text} {t : Terminal} {kind : StringKind} {text : List Char}
    (hk : StringKind.ofTerminal t = some kind) (hne : text ≠ []) (hw : t.width text = text.length) :
    parse file (encodeChars text) =
      (Literal.stringValue kind text .origin).map fun value => .string (.ofChars value) kind (wholeRange file text) := by
  have hplain : t.isIgnored = false ∧ State.start.focus.context.admits t = true := by
    cases t with
    | textBlock | stringDouble | stringSingle | verbatimDouble | verbatimSingle => exact ⟨rfl, rfl⟩
    | _ => cases hk
  have hfirst := Terminal.first_of_whole hplain.2 hplain.1 hne hw layoutNext_nil
  have hparse : parse file (encodeChars text) = parseFrom file .start (placeAfter []) .origin (text ++ []) := by
    rw [parse, decode_encodeChars, List.append_nil]
    rfl
  rw [hparse, parseFrom_take hfirst hplain.1 (feed_string hk), parseFrom, State.stringMove]
  have htext : (tokenAt file [] t text).text = text := rfl
  have hplace : (tokenAt file [] t text).range.start = .origin := rfl
  rw [htext, hplace]
  cases Literal.stringValue kind text .origin with
  | ok value => rfl
  | error fault => rfl

/-! ## Escapes -/

/-- The short escapes: what stands behind the backslash, and the character that it means. -/
def shortEscapes : List (Char × Char) :=
  [('"', '"'), ('\'', '\''), ('\\', '\\'), ('/', '/'), ('b', '\x08'), ('f', '\x0c'), ('n', '\n'), ('r', '\r'), ('t', '\t')]

/-- The text is the four hexadecimal digits of a 16-bit unit, each in either case. -/
def UnitDigits (unit : Nat) (digits : List Char) : Prop :=
  digits.map Literal.hexValue = [unit / 4096, unit / 256 % 16, unit / 16 % 16, unit % 16].map some

instance (unit : Nat) (digits : List Char) : Decidable (UnitDigits unit digits) := inferInstanceAs (Decidable (_ = _))

/-- The text writes the units, from left to right: a character that is no backslash writes its own, and
    each backslash begins an escape. -/
inductive Writes : List Nat → List Char → Prop
  | nil : Writes [] []
  | plain {c : Char} {us : List Nat} {text : List Char} :
      c ≠ '\\' → Writes us text → Writes (Utf16.unitsOf c.toNat ++ us) (c :: text)
  | short {e c : Char} {us : List Nat} {text : List Char} :
      (e, c) ∈ shortEscapes → Writes us text → Writes (c.toNat :: us) ('\\' :: e :: text)
  | unit {u : Nat} {digits : List Char} {us : List Nat} {text : List Char} :
      UnitDigits u digits → Writes us text → Writes (u :: us) ('\\' :: 'u' :: digits ++ text)

/-- The first backslash of the text that begins no escape stands in front of `c`. -/
def FirstUnknown (body : List Char) (c : Char) : Prop :=
  ∃ us front rest, body = front ++ '\\' :: c :: rest ∧ Writes us front ∧ c ∉ shortEscapes.map Prod.fst ∧
    ∀ u digits rest', UnitDigits u digits → c :: rest ≠ 'u' :: digits ++ rest'

theorem Writes.append {us vs : List Nat} {a b : List Char} (ha : Writes us a) (hb : Writes vs b) :
    Writes (us ++ vs) (a ++ b) := by
  induction ha with
  | nil => exact hb
  | plain hc _ ih =>
    rw [List.append_assoc]
    exact .plain hc ih
  | short he _ ih => exact .short he ih
  | unit hd _ ih =>
    rw [List.append_assoc]
    exact .unit hd ih

/-! ### Digits -/

theorem UnitDigits.exists_eq {u : Nat} {digits : List Char} (h : UnitDigits u digits) :
    ∃ a b c d, digits = [a, b, c, d] ∧ Literal.hexValue a = some (u / 4096) ∧ Literal.hexValue b = some (u / 256 % 16) ∧
      Literal.hexValue c = some (u / 16 % 16) ∧ Literal.hexValue d = some (u % 16) := by
  obtain ⟨a, digits, rfl, ha, h⟩ := List.map_eq_cons_iff.mp h
  obtain ⟨b, digits, rfl, hb, h⟩ := List.map_eq_cons_iff.mp h
  obtain ⟨c, digits, rfl, hc, h⟩ := List.map_eq_cons_iff.mp h
  obtain ⟨d, digits, rfl, hd, h⟩ := List.map_eq_cons_iff.mp h
  obtain rfl := List.map_eq_nil_iff.mp h
  exact ⟨a, b, c, d, rfl, ha, hb, hc, hd⟩

theorem UnitDigits.length_eq {u : Nat} {digits : List Char} (h : UnitDigits u digits) : digits.length = 4 := by
  obtain ⟨a, b, c, d, rfl, -⟩ := h.exists_eq
  rfl

theorem UnitDigits.lt {u : Nat} {digits : List Char} (h : UnitDigits u digits) : u < 0x10000 := by
  obtain ⟨a, b, c, d, -, ha, -⟩ := h.exists_eq
  have := hexValue_lt ha
  omega

theorem UnitDigits.hex4_eq {u : Nat} {digits : List Char} (h : UnitDigits u digits) (rest : List Char) :
    Literal.hex4 (digits ++ rest) = some u := by
  obtain ⟨a, b, c, d, rfl, ha, hb, hc, hd⟩ := h.exists_eq
  simp only [List.cons_append, Literal.hex4, ha, hb, hc, hd, Option.some.injEq]
  omega

theorem exists_unitDigits {u : Nat} {text : List Char} (h : Literal.hex4 text = some u) :
    ∃ digits rest, text = digits ++ rest ∧ UnitDigits u digits := by
  unfold Literal.hex4 at h
  split at h
  · rename_i a b c d rest
    split at h
    · rename_i va vb vc vd ha hb hc hd
      have h1 := hexValue_lt ha
      have h2 := hexValue_lt hb
      have h3 := hexValue_lt hc
      have h4 := hexValue_lt hd
      cases h
      refine ⟨[a, b, c, d], rest, rfl, ?_⟩
      unfold UnitDigits
      simp only [List.map_cons, List.map_nil, ha, hb, hc, hd, List.cons.injEq, Option.some.injEq, and_true]
      omega
    · cases h
  · cases h

/-! ### Reading escapes -/

theorem shortEscape_of_mem {e c : Char} (h : (e, c) ∈ shortEscapes) : Literal.shortEscape e = some c.toNat := by
  have hall : ∀ p ∈ shortEscapes, Literal.shortEscape p.1 = some p.2.toNat := by decide
  exact hall (e, c) h

theorem exists_mem_shortEscapes {e : Char} {n : Nat} (h : Literal.shortEscape e = some n) :
    ∃ c, (e, c) ∈ shortEscapes ∧ n = c.toNat := by
  unfold Literal.shortEscape at h
  split at h
  · rename_i he
    cases h
    refine ⟨e, ?_, rfl⟩
    rcases he with rfl | rfl | rfl | rfl <;> decide
  · refine ⟨Char.ofNat n, ?_⟩
    repeat' split at h
    all_goals cases h
    all_goals
      subst_vars
      exact ⟨by decide, rfl⟩

theorem unescape_plain {c : Char} (hc : c ≠ '\\') (read : List Nat) (rest : List Char) :
    Literal.unescape read (c :: rest) = Literal.unescape ((Utf16.unitsOf c.toNat).reverse ++ read) rest := by
  rw [Literal.unescape]
  intro d rest' h
  exact absurd h hc

theorem unescape_short {e c : Char} (h : (e, c) ∈ shortEscapes) (read : List Nat) (rest : List Char) :
    Literal.unescape read ('\\' :: e :: rest) = Literal.unescape (c.toNat :: read) rest := by
  have hu : ∀ p ∈ shortEscapes, p.1 ≠ 'u' := by decide
  rw [Literal.unescape, if_neg (hu _ h), shortEscape_of_mem h]

theorem unescape_unit {u : Nat} {digits : List Char} (h : UnitDigits u digits) (read : List Nat) (rest : List Char) :
    Literal.unescape read ('\\' :: 'u' :: digits ++ rest) = Literal.unescape (u :: read) rest := by
  rw [List.cons_append, List.cons_append, Literal.unescape, if_pos rfl, h.hex4_eq, ← h.length_eq, List.drop_left]

/-- What a text writes is read in front of what follows. -/
theorem unescape_append {us : List Nat} {text : List Char} (h : Writes us text) (read : List Nat) (rest : List Char) :
    Literal.unescape read (text ++ rest) = Literal.unescape (us.reverse ++ read) rest := by
  induction h generalizing read with
  | nil => rfl
  | plain hc _ ih => rw [List.cons_append, unescape_plain hc, ih, List.reverse_append, List.append_assoc]
  | short he _ ih => rw [List.cons_append, List.cons_append, unescape_short he, ih, List.reverse_cons, List.append_assoc]; rfl
  | unit hd _ ih => rw [List.append_assoc, unescape_unit hd, ih, List.reverse_cons, List.append_assoc]; rfl

theorem unescape_of_writes {us : List Nat} {text : List Char} (h : Writes us text) : Literal.unescape [] text = .ok us := by
  have happend := unescape_append h [] []
  rw [List.append_nil, List.append_nil, Literal.unescape, List.reverse_reverse] at happend
  exact happend

theorem FirstUnknown.cons {front body : List Char} {us : List Nat} {c : Char} (hf : Writes us front)
    (h : FirstUnknown body c) : FirstUnknown (front ++ body) c := by
  obtain ⟨vs, front', rest, rfl, hw, hshort, hunit⟩ := h
  exact ⟨us ++ vs, front ++ front', rest, (List.append_assoc ..).symm, hf.append hw, hshort, hunit⟩

theorem firstUnknown_of_unescape {read : List Nat} {body : List Char} {c : Char}
    (h : Literal.unescape read body = .error c) : FirstUnknown body c := by
  fun_induction Literal.unescape read body with
  | case1 => cases h
  | case2 read e rest u hu ih =>
    obtain ⟨rfl, hhex⟩ : e = 'u' ∧ Literal.hex4 rest = some u := by simpa using hu
    obtain ⟨digits, rest, rfl, hd⟩ := exists_unitDigits hhex
    rw [← hd.length_eq, List.drop_left] at ih h
    simpa using (ih h).cons (.unit hd .nil)
  | case3 read e rest hu n hn ih =>
    obtain ⟨x, hx, rfl⟩ := exists_mem_shortEscapes hn
    exact (ih h).cons (.short hx .nil)
  | case4 read e rest hu hn =>
    cases h
    refine ⟨[], [], rest, rfl, .nil, ?_, ?_⟩
    · intro hmem
      obtain ⟨⟨e, x⟩, hx, rfl⟩ := List.mem_map.mp hmem
      rw [shortEscape_of_mem hx] at hn
      cases hn
    · rintro u digits rest' hd heq
      obtain ⟨rfl, rfl⟩ := List.cons.inj heq
      have hnone : Literal.hex4 (digits ++ rest') = none := by simpa using hu
      rw [hd.hex4_eq] at hnone
      cases hnone
  | case5 read e rest hlast ih =>
    by_cases he : e = '\\'
    · -- a backslash at the very end is read as it stands
      subst he
      cases rest with
      | nil =>
        rw [Literal.unescape] at h
        cases h
      | cons d rest => exact (hlast d rest rfl rfl).elim
    · simpa using (ih h).cons (.plain he .nil)

/-- The reading of escapes stops at the first backslash that begins none, and only there. -/
theorem unescape_error_iff {body : List Char} {c : Char} :
    Literal.unescape [] body = .error c ↔ FirstUnknown body c := by
  refine ⟨firstUnknown_of_unescape, ?_⟩
  rintro ⟨us, front, rest, rfl, hw, hshort, hunit⟩
  have hn : Literal.shortEscape c = none := by
    cases hn : Literal.shortEscape c with
    | none => rfl
    | some n =>
      obtain ⟨x, hx, -⟩ := exists_mem_shortEscapes hn
      exact (hshort (List.mem_map_of_mem hx)).elim
  have hu : (if c = 'u' then Literal.hex4 rest else none) = none := by
    by_cases hc : c = 'u'
    · subst hc
      rw [if_pos rfl]
      cases hhex : Literal.hex4 rest with
      | none => rfl
      | some u =>
        obtain ⟨digits, rest', rfl, hd⟩ := exists_unitDigits hhex
        exact (hunit u digits rest' hd rfl).elim
    · rw [if_neg hc]
  rw [unescape_append hw, Literal.unescape, hu, hn]

/-! ### Units of characters -/

theorem decodeFrom_units (cs : List Char) (index : Nat) (read : List Char) :
    Utf16.decodeFrom index read (cs.flatMap fun c => Utf16.unitsOf c.toNat) = .ok (read.reverse ++ cs) := by
  induction cs generalizing index read with
  | nil => rw [List.flatMap_nil, Utf16.decodeFrom, List.append_nil]
  | cons c cs ih =>
    have hread : (c :: read).reverse ++ cs = read.reverse ++ c :: cs := by simp
    have hvalid : c.toNat < 0xd800 ∨ 0xdfff < c.toNat ∧ c.toNat < 0x110000 := c.valid
    rw [List.flatMap_cons, Utf16.unitsOf]
    split
    · have hhigh : Utf16.isHigh c.toNat = false := by simp [Utf16.isHigh]; omega
      have hlow : Utf16.isLow c.toNat = false := by simp [Utf16.isLow]; omega
      rw [List.singleton_append, Utf16.decodeFrom.eq_def]
      simp only [hhigh, hlow, Bool.false_eq_true, if_false, Char.ofNat_toNat]
      exact (ih _ _).trans (congrArg _ hread)
    · have hhigh : Utf16.isHigh (0xd800 + (c.toNat - 0x10000) / 0x400) = true := by simp [Utf16.isHigh]; omega
      have hlow : Utf16.isLow (0xdc00 + (c.toNat - 0x10000) % 0x400) = true := by simp [Utf16.isLow]; omega
      have hpair : 0x10000 + (0xd800 + (c.toNat - 0x10000) / 0x400 - 0xd800) * 0x400 +
          (0xdc00 + (c.toNat - 0x10000) % 0x400 - 0xdc00) = c.toNat := by omega
      rw [List.cons_append, List.singleton_append, Utf16.decodeFrom.eq_def]
      simp only [hhigh, hlow, if_true, hpair, Char.ofNat_toNat]
      exact (ih _ _).trans (congrArg _ hread)

/-- The units of characters read back as the characters. -/
theorem decode_units (cs : List Char) : Utf16.decode (cs.flatMap fun c => Utf16.unitsOf c.toNat) = .ok cs :=
  decodeFrom_units cs 0 []

/-! ## Spellings -/

inductive SpellsChar (quote : Char) : Char → List Char → Prop
  | itself {c : Char} : c ≠ quote → c ≠ '\\' → SpellsChar quote c [c]
  | short {e c : Char} : (e, c) ∈ shortEscapes → SpellsChar quote c ['\\', e]
  | unit {c : Char} {digits : List Char} : UnitDigits c.toNat digits → SpellsChar quote c ('\\' :: 'u' :: digits)
  /-- A character beyond the first plane, as a high and a low surrogate. -/
  | pair {c : Char} {high low : Nat} {hs ls : List Char} :
      0xd800 ≤ high → high < 0xdc00 → 0xdc00 ≤ low → low < 0xe000 →
      c.toNat = 0x10000 + (high - 0xd800) * 0x400 + (low - 0xdc00) →
      UnitDigits high hs → UnitDigits low ls → SpellsChar quote c ('\\' :: 'u' :: hs ++ '\\' :: 'u' :: ls)

/-- A way to spell a text between two quotes, character by character. -/
inductive Spells (quote : Char) : List Char → List Char → Prop
  | nil : Spells quote [] []
  | cons {c : Char} {spelling cs body : List Char} :
      SpellsChar quote c spelling → Spells quote cs body → Spells quote (c :: cs) (spelling ++ body)

/-- What can stand between two quotes: no quote but behind a backslash, and no backslash at the end. -/
inductive QuotedBody (quote : Char) : List Char → Prop
  | nil : QuotedBody quote []
  | plain {c : Char} {text : List Char} : c ≠ quote → c ≠ '\\' → QuotedBody quote text → QuotedBody quote (c :: text)
  | escape {c : Char} {text : List Char} : QuotedBody quote text → QuotedBody quote ('\\' :: c :: text)

def quotedKinds : List (StringKind × Char) := [(.double, '"'), (.single, '\'')]

def verbatimKinds : List (StringKind × Char) := [(.verbatimDouble, '"'), (.verbatimSingle, '\'')]

def doubled (quote : Char) (cs : List Char) : List Char := cs.flatMap fun c => if c = quote then [quote, quote] else [c]

section Spellings

variable {quote : Char} {cs body spelling : List Char}

theorem SpellsChar.writes {c : Char} (h : SpellsChar quote c spelling) : Writes (Utf16.unitsOf c.toNat) spelling := by
  cases h with
  | itself _ hc => simpa using Writes.plain hc .nil
  | short hs =>
    have hlt : ∀ p ∈ shortEscapes, p.2.toNat < 0x10000 := by decide
    rw [Utf16.unitsOf, if_pos (hlt _ hs)]
    exact .short hs .nil
  | unit hd =>
    rw [Utf16.unitsOf, if_pos hd.lt]
    simpa using Writes.unit hd .nil
  | @pair _ high low hs ls h1 h2 h3 h4 hc hhigh hlow =>
    have hunits : Utf16.unitsOf c.toNat = [high] ++ [low] := by
      rw [Utf16.unitsOf, if_neg (by omega)]
      simp only [List.cons_append, List.nil_append, List.cons.injEq, and_true]
      omega
    rw [hunits]
    exact Writes.append (by simpa using Writes.unit hhigh .nil) (by simpa using Writes.unit hlow .nil)

theorem Spells.writes (h : Spells quote cs body) : Writes (cs.flatMap fun c => Utf16.unitsOf c.toNat) body := by
  induction h with
  | nil => exact .nil
  | cons hc _ ih =>
    rw [List.flatMap_cons]
    exact hc.writes.append ih

/-- Every spelling of a text is read as the text. -/
theorem Spells.quotedValue_eq (h : Spells quote cs body) (place : Position) :
    Literal.quotedValue body place = .ok cs := by
  rw [Literal.quotedValue, unescape_of_writes h.writes]
  simp only [decode_units]

/-! ## Where a string ends -/

theorem QuotedBody.append {a b : List Char} (ha : QuotedBody quote a) (hb : QuotedBody quote b) : QuotedBody quote (a ++ b) := by
  induction ha with
  | nil => exact hb
  | plain hq hc _ ih => exact .plain hq hc ih
  | escape _ ih => exact .escape ih

/-- Digits do not end a string whose quote is no digit. -/
theorem UnitDigits.quotedBody {u : Nat} {digits : List Char} (h : UnitDigits u digits) (hq : Literal.hexValue quote = none) :
    QuotedBody quote ('\\' :: 'u' :: digits) := by
  have hplain {c : Char} {v : Nat} (hv : Literal.hexValue c = some v) : c ≠ quote ∧ c ≠ '\\' := by
    constructor
    · rintro rfl
      rw [hq] at hv
      cases hv
    · rintro rfl
      cases hv
  obtain ⟨a, b, c, d, rfl, ha, hb, hc, hd⟩ := h.exists_eq
  refine .escape (.plain (hplain ha).1 (hplain ha).2 (.plain (hplain hb).1 (hplain hb).2 ?_))
  exact .plain (hplain hc).1 (hplain hc).2 (.plain (hplain hd).1 (hplain hd).2 .nil)

theorem SpellsChar.quotedBody {c : Char} (h : SpellsChar quote c spelling) (hq : Literal.hexValue quote = none) :
    QuotedBody quote spelling := by
  cases h with
  | itself hne hc => exact .plain hne hc .nil
  | short => exact .escape .nil
  | unit hd => exact hd.quotedBody hq
  | pair _ _ _ _ _ hhigh hlow => exact (hhigh.quotedBody hq).append (hlow.quotedBody hq)

theorem Spells.quotedBody (h : Spells quote cs body) (hq : Literal.hexValue quote = none) : QuotedBody quote body := by
  induction h with
  | nil => exact .nil
  | cons hc _ ih => exact (hc.quotedBody hq).append ih

theorem QuotedBody.quotedRest_eq (h : QuotedBody quote body) (hq : quote ≠ '\\') (n : Nat) :
    quotedRest quote n (body ++ [quote]) = n + body.length + 1 := by
  induction h generalizing n with
  | nil => rw [List.nil_append, quotedRest_cons hq, if_pos rfl]; rfl
  | plain hne hc _ ih =>
    rw [List.cons_append, quotedRest_cons hc, if_neg hne, ih, List.length_cons]
    omega
  | escape _ ih =>
    rw [List.cons_append, List.cons_append, quotedRest_escape, ih, List.length_cons, List.length_cons]
    omega

theorem QuotedBody.quotedWidth_eq (h : QuotedBody quote body) (hq : quote ≠ '\\') :
    quotedWidth quote (quote :: body ++ [quote]) = (quote :: body ++ [quote]).length := by
  rw [List.cons_append, quotedWidth, if_pos rfl, h.quotedRest_eq hq]
  simp
  omega

theorem doubled_cons (c : Char) (cs : List Char) :
    doubled quote (c :: cs) = (if c = quote then [quote, quote] else [c]) ++ doubled quote cs := List.flatMap_cons

/-- A quote that is written twice does not end a verbatim string. -/
theorem verbatimRest_doubled (cs : List Char) (n fallback : Nat) :
    verbatimRest quote n fallback (doubled quote cs ++ [quote]) = n + (doubled quote cs).length + 1 := by
  induction cs generalizing n fallback with
  | nil => simp [doubled, verbatimRest_cons]
  | cons c cs ih =>
    rw [doubled_cons]
    by_cases hc : c = quote
    · subst hc
      rw [if_pos rfl, List.cons_append, List.singleton_append, List.cons_append, List.cons_append, verbatimRest_cons, if_pos rfl,
        List.head?_cons, if_pos rfl, List.tail_cons, ih, List.length_cons, List.length_cons]
      omega
    · rw [if_neg hc, List.singleton_append, List.cons_append, verbatimRest_cons, if_neg hc, ih, List.length_cons]
      omega

theorem verbatimWidth_doubled (cs : List Char) :
    verbatimWidth quote ('@' :: quote :: doubled quote cs ++ [quote]) = ('@' :: quote :: doubled quote cs ++ [quote]).length := by
  rw [List.cons_append, List.cons_append, verbatimWidth_cons, if_pos ⟨rfl, rfl⟩, List.tail_cons, verbatimRest_doubled]
  simp
  omega

theorem verbatimFrom_of_ne {c : Char} (hc : c ≠ quote) (read rest : List Char) :
    Literal.verbatimFrom quote read (c :: rest) = Literal.verbatimFrom quote (c :: read) rest := by
  cases rest with
  | nil => rfl
  | cons d rest => rw [Literal.verbatimFrom, if_neg fun h => hc h.1]

theorem verbatimFrom_doubled (cs read : List Char) :
    Literal.verbatimFrom quote read (doubled quote cs) = read.reverse ++ cs := by
  induction cs generalizing read with
  | nil => simp [doubled, Literal.verbatimFrom]
  | cons c cs ih =>
    rw [doubled_cons]
    by_cases hc : c = quote
    · subst hc
      rw [if_pos rfl, List.cons_append, List.singleton_append, Literal.verbatimFrom, if_pos ⟨rfl, rfl⟩, ih]
      simp
    · rw [if_neg hc, List.singleton_append, verbatimFrom_of_ne hc, ih]
      simp

end Spellings

/-! ## The value of a string -/

section Values

variable {file : Text} {kind : StringKind} {quote : Char} {body : List Char}

theorem plain_of_mem_quotedKinds (h : (kind, quote) ∈ quotedKinds) : Literal.hexValue quote = none ∧ quote ≠ '\\' := by
  have hall : ∀ p ∈ quotedKinds, Literal.hexValue p.2 = none ∧ p.2 ≠ '\\' := by decide
  exact hall _ h

theorem parse_quoted (hk : (kind, quote) ∈ quotedKinds) (hb : QuotedBody quote body) :
    parse file (encodeChars (quote :: body ++ [quote])) =
      (Literal.quotedValue body .origin).map fun value =>
        .string (.ofChars value) kind (wholeRange file (quote :: body ++ [quote])) := by
  have hw := hb.quotedWidth_eq (plain_of_mem_quotedKinds hk).2
  have hne : quote :: body ++ [quote] ≠ [] := List.cons_ne_nil _ _
  have hbody : ((quote :: body ++ [quote]).drop 1).dropLast = body := by simp
  simp only [quotedKinds, List.mem_cons, Prod.mk.injEq, List.not_mem_nil, or_false] at hk
  rcases hk with ⟨rfl, rfl⟩ | ⟨rfl, rfl⟩
  · rw [parse_string (t := .stringDouble) rfl hne hw, Literal.stringValue, hbody]
  · rw [parse_string (t := .stringSingle) rfl hne hw, Literal.stringValue, hbody]

theorem parse_verbatim (hk : (kind, quote) ∈ verbatimKinds) (cs : List Char) :
    parse file (encodeChars ('@' :: quote :: doubled quote cs ++ [quote])) =
      .ok (.string (.ofChars cs) kind (wholeRange file ('@' :: quote :: doubled quote cs ++ [quote]))) := by
  have hw : verbatimWidth quote ('@' :: quote :: doubled quote cs ++ [quote]) = _ := verbatimWidth_doubled cs
  have hne : '@' :: quote :: doubled quote cs ++ [quote] ≠ [] := List.cons_ne_nil _ _
  have hvalue : Literal.verbatimValue quote (('@' :: quote :: doubled quote cs ++ [quote]).drop 2).dropLast = cs := by
    have hbody : (('@' :: quote :: doubled quote cs ++ [quote]).drop 2).dropLast = doubled quote cs := by simp
    rw [hbody, Literal.verbatimValue, verbatimFrom_doubled, List.reverse_nil, List.nil_append]
  simp only [verbatimKinds, List.mem_cons, Prod.mk.injEq, List.not_mem_nil, or_false] at hk
  rcases hk with ⟨rfl, rfl⟩ | ⟨rfl, rfl⟩
  · rw [parse_string (t := .verbatimDouble) rfl hne hw, Literal.stringValue, hvalue]
    rfl
  · rw [parse_string (t := .verbatimSingle) rfl hne hw, Literal.stringValue, hvalue]
    rfl

theorem quotedValue_unknown_iff {c : Char} {place p : Position} :
    Literal.quotedValue body place = .error (.unknownEscape c p) ↔ p = place ∧ FirstUnknown body c := by
  rw [← unescape_error_iff, Literal.quotedValue]
  cases hu : Literal.unescape [] body with
  | error d =>
    simp only [Except.error.injEq, ParseError.unknownEscape.injEq]
    exact ⟨fun h => ⟨h.2.symm, h.1⟩, fun h => ⟨h.2, h.1.symm⟩⟩
  | ok units =>
    dsimp only
    cases Utf16.decode units <;> simp

end Values

/-- However a text is spelled between two quotes, the string is that text, and so it is in a verbatim string with each
    quote written twice. A quoted string is refused for an unknown escape exactly when some backslash of it, read from left
    to right, begins none; the first such backslash is named. -/
theorem strings_decode (file : Text) :
    (∀ kind quote cs body, (kind, quote) ∈ quotedKinds → Spells quote cs body →
      parse file (encodeChars (quote :: body ++ [quote])) =
        .ok (.string (.ofChars cs) kind (wholeRange file (quote :: body ++ [quote])))) ∧
    (∀ kind quote cs, (kind, quote) ∈ verbatimKinds →
      parse file (encodeChars ('@' :: quote :: doubled quote cs ++ [quote])) =
        .ok (.string (.ofChars cs) kind (wholeRange file ('@' :: quote :: doubled quote cs ++ [quote])))) ∧
    ∀ kind quote body, (kind, quote) ∈ quotedKinds → QuotedBody quote body → ∀ c place,
      parse file (encodeChars (quote :: body ++ [quote])) = .error (.unknownEscape c place) ↔
        place = .origin ∧ FirstUnknown body c := by
  refine ⟨?_, fun kind quote cs hk => parse_verbatim hk cs, ?_⟩
  · intro kind quote cs body hk hs
    rw [parse_quoted hk (hs.quotedBody (plain_of_mem_quotedKinds hk).1), hs.quotedValue_eq]
    rfl
  · intro kind quote body hk hb c place
    rw [parse_quoted hk hb, ← quotedValue_unknown_iff]
    cases Literal.quotedValue body .origin with
    | ok value => simp [Except.map]
    | error e => simp [Except.map]

/-- A pair of surrogates with digits in both cases, a backslash in front of what looks like an escape, and the quote; a
    verbatim string that ends in a backslash; and a string whose third backslash begins no escape. -/
theorem strings_decode_mixed :
    parse "" (Utf8.encode "'\\uD83d\\uDe00\\\\u0041\\''") = .ok (.string "😀\\u0041'" .single ⟨"", ⟨1, 1⟩, ⟨1, 24⟩⟩) ∧
    parse "" (Utf8.encode "@\"a\"\"\\\"") = .ok (.string "a\"\\" .verbatimDouble ⟨"", ⟨1, 1⟩, ⟨1, 8⟩⟩) ∧
    ∃ c, parse "" (Utf8.encode "\"\\\\\\u12\"") = .error (.unknownEscape c .origin) := by
  obtain ⟨hquoted, hverbatim, hunknown⟩ := strings_decode ""
  have hpair : SpellsChar '\'' '😀' ('\\' :: 'u' :: ['D', '8', '3', 'd'] ++ '\\' :: 'u' :: ['D', 'e', '0', '0']) :=
    .pair (by decide : 0xd800 ≤ 0xd83d) (by decide) (by decide : 0xdc00 ≤ 0xde00) (by decide) (by decide) (by decide) (by decide)
  have hspells : Spells '\'' "😀\\u0041'".toList "\\uD83d\\uDe00\\\\u0041\\'".toList :=
    .cons hpair (.cons (.short (e := '\\') (by decide)) (.cons (.itself (by decide) (by decide))
      (.cons (.itself (by decide) (by decide)) (.cons (.itself (by decide) (by decide))
        (.cons (.itself (by decide) (by decide)) (.cons (.itself (by decide) (by decide))
          (.cons (.short (e := '\'') (by decide)) .nil)))))))
  have hbody : QuotedBody '"' "\\\\\\u12".toList :=
    .escape (.escape (.plain (by decide) (by decide) (.plain (by decide) (by decide) .nil)))
  have hfirst : FirstUnknown "\\\\\\u12".toList 'u' := by
    refine ⟨_, ['\\', '\\'], ['1', '2'], rfl, .short (c := '\\') (by decide) .nil, by decide, ?_⟩
    intro u digits rest hd heq
    have hlen := congrArg List.length heq
    simp [hd.length_eq] at hlen
    omega
  exact ⟨hquoted .single '\'' _ _ (by decide) hspells, hverbatim .verbatimDouble '"' "a\"\\".toList (by decide),
    'u', (hunknown .double '"' _ (by decide) hbody 'u' .origin).mpr ⟨rfl, hfirst⟩⟩

end JsonnetLocals
