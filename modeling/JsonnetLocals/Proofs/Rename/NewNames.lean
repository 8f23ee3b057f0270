/-
  JsonnetLocals.Proofs.Rename.NewNames — new names are names, and two of them agree only when they must.

  A tag has nine characters whatever the identity is, and its digits read back as the hash
  (`hexNumber_hexDigits`), so a tag says no more and no less than the hash (`tagOf_eq_iff`). A new name
  is thus cut after nine characters and the separator in one way only, even where the separator or
  the old name looks like a tag:
  - `new_names_apart`: a new name is read as one name wherever a name may stand and is no reserved
    word, and two new names are equal just when the hashes and the old names are.
-/

import JsonnetLocals.Proofs.Config.Check
import JsonnetLocals.Proofs.Rename.Insertions

namespace JsonnetLocals

open Lexeme

/-! ## Tags -/

/-- A tag says no more and no less than the hash. -/
theorem tagOf_eq_iff {as bs : Bytes} : (tagOf as).toList = (tagOf bs).toList ↔ Fnv.hash as = Fnv.hash bs := by
  rw [toList_tagOf, toList_tagOf]
  constructor
  · intro h
    have hdigits := (List.cons.inj h).2
    apply UInt32.toNat_inj.mp
    calc (Fnv.hash as).toNat
        = hexNumber (Utf8.hexDigits 8 (Fnv.hash as).toNat).toList := (hexNumber_hexDigits 8 _).symm
      _ = hexNumber (Utf8.hexDigits 8 (Fnv.hash bs).toNat).toList := by rw [hdigits]
      _ = (Fnv.hash bs).toNat := hexNumber_hexDigits 8 _
  · intro h
    rw [h]

/-! ## Names -/

/-- The text of a name as some text holds it. What stands behind it matters: a reserved word is a
    name where a letter follows that names cannot have. -/
def IsNameText (text : List Char) : Prop := text ≠ [] ∧ ∃ rest, Terminal.name.width (text ++ rest) = text.length

/-- The text is read as one name wherever a name may stand, up to a character that names cannot have. -/
def ReadsAsName (text : List Char) : Prop :=
  ∀ allowed rest, allowed .name = true → rest.head?.any isNameChar = false →
    Terminal.first allowed (text ++ rest) = some (.name, text.length)

theorem IsNameText.all {text : List Char} (h : IsNameText text) : text.all isNameChar = true := by
  obtain ⟨hne, rest, hw⟩ := h
  exact ((nameWidth_append hne).mp hw).2.1

/-- A tag in front of name characters is read as a name. -/
theorem IsTag.readsAsName {tag : List Char} (h : IsTag tag) : ReadsAsName tag := by
  intro allowed rest ha hrest
  obtain ⟨tag', rfl⟩ := h.exists_eq
  have hw : Terminal.name.width ('_' :: tag' ++ rest) = ('_' :: tag').length :=
    (nameWidth_append (List.cons_ne_nil _ _)).mpr ⟨rfl, h.2, hrest, startsReserved_underscore _⟩
  -- names are tried before everything else
  refine Terminal.first_eq_some_iff.mpr ⟨ha, hw, by simp, [], Terminal.ranked.tail, rfl, ?_⟩
  intro u hu
  cases hu

theorem IsTag.notMem_reserved {tag : List Char} (h : IsTag tag) {w : String} (hw : w ∈ reserved) : tag ≠ w.toList := by
  have hheads : ∀ w ∈ reserved, w.toList.head? ≠ some '_' := by decide
  rintro rfl
  exact hheads w hw h.1

theorem newName_ofChars (tag : String) (seps x : List Char) :
    newName tag (.ofChars seps) (.ofChars x) = .ofChars (tag.toList ++ seps ++ x) := by
  rw [Text.ofChars_append, Text.ofChars_append]
  rfl

/-- Two new names with the same separator: what stands behind the nine characters of the tags and the
    separator is the old names. -/
theorem newName_eq_iff {as bs : Bytes} {seps x y : List Char} :
    newName (tagOf as) (.ofChars seps) (.ofChars x) = newName (tagOf bs) (.ofChars seps) (.ofChars y) ↔
      Fnv.hash as = Fnv.hash bs ∧ x = y := by
  rw [newName_ofChars, newName_ofChars, List.append_assoc, List.append_assoc]
  constructor
  · intro h
    obtain ⟨htags, hrest⟩ := List.append_inj (Text.ofChars_injective h) (by rw [length_tagOf, length_tagOf])
    exact ⟨tagOf_eq_iff.mp htags, List.append_cancel_left hrest⟩
  · rintro ⟨htags, rfl⟩
    rw [tagOf_eq_iff.mpr htags]

theorem fileTag_of_encode {identity : Text} {bs : Bytes} (h : identity.encode = .ok bs) :
    fileTag identity = .ok (tagOf bs) := by
  unfold fileTag
  rw [h]
  rfl

/-- A new name is read as one name wherever a name may stand and is no reserved word. Under one
    separator two new names are equal just when the hashes of the identities and the old names are. -/
theorem new_names_apart {a b : Text} {as bs : Bytes} {d : Draft} {c : Config} {x y : List Char}
    (ha : a.encode = .ok as) (hb : b.encode = .ok bs) (hc : d.check = .ok c) (hx : IsNameText x) :
    ∃ s t,
      fileTag a = .ok s ∧ fileTag b = .ok t ∧
      (∃ text, newName s c.separator (.ofChars x) = .ofChars text ∧ ReadsAsName text ∧ ∀ w ∈ reserved, text ≠ w.toList) ∧
      (newName s c.separator (.ofChars x) = newName t c.separator (.ofChars y) ↔ Fnv.hash as = Fnv.hash bs ∧ x = y) := by
  obtain ⟨seps, hseps, hall⟩ := exists_separator (Draft.separator_of_check hc)
  have htag : IsTag ((tagOf as).toList ++ seps ++ x) := isTag_append (isTag_append (isTag_tagOf as) hall) hx.all
  refine ⟨tagOf as, tagOf bs, fileTag_of_encode ha, fileTag_of_encode hb, ?_, ?_⟩
  · rw [hseps]
    exact ⟨_, newName_ofChars _ _ _, htag.readsAsName, fun w hw => htag.notMem_reserved hw⟩
  · rw [hseps]
    exact newName_eq_iff

/-- Two identities of one hash, a separator of digits only, and a name that is a reserved word but for
    the letter behind it. -/
theorem new_names_apart_one_hash :
    ∃ s t,
      fileTag "costarring" = .ok s ∧ fileTag "liquid" = .ok t ∧
      (∃ text, newName s "00" "if" = .ofChars text ∧ ReadsAsName text) ∧ newName s "00" "if" = newName t "00" "if" := by
  have hif : IsNameText ['i', 'f'] := ⟨List.cons_ne_nil _ _, ['é'], by decide +kernel⟩
  obtain ⟨s, t, hs, ht, ⟨text, htext, hreads, -⟩, hiff⟩ :=
    new_names_apart (Text.encode_ofString "costarring") (Text.encode_ofString "liquid")
      (show Draft.check { Draft.default with separator := .str "00" } =
        .ok ⟨"default", "output", "00", true, .overwrite, none, "INFO"⟩ by rfl) hif (y := ['i', 'f'])
  exact ⟨s, t, hs, ht, ⟨text, htext, hreads⟩, hiff.mpr ⟨by decide +kernel, rfl⟩⟩

end JsonnetLocals
