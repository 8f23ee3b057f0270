/-
  JsonnetLocals.Proofs.Rename.Records — renaming records every occurrence of a tree once.

  The tree may be made by hand and its places may be wrong. An occurrence whose name is not empty and
  whose columns count from one is edited if its name stands where its place resolves to, else it is
  skipped (`Occurrence.stands_or_not`): a span that holds a name is never inverted. So both passes go
  through and leave one record for each bind and for each variable whose name was bound, and
  no other (`passes_record_once`).
-/

import JsonnetLocals.Proofs.Rename.Outcome
import JsonnetLocals.Proofs.Syntax.Fields

namespace JsonnetLocals

/-! ## One occurrence -/

def Occurrence.span (source : Bytes) (o : Occurrence) : Span := Span.resolve (LineIndex.build source) o.range.start o.stop

def Occurrence.StandsIn (source : Bytes) (o : Occurrence) : Prop :=
  o.range.isSet = true ∧ o.name.encode = .ok (slice source (o.span source).start (o.span source).stop)

/-- The name is a text that is not empty, and the columns count from one. -/
structure Occurrence.WellFormed (o : Occurrence) : Prop where
  name : ∃ cs, cs ≠ [] ∧ o.name = .ofChars cs
  columns : o.range.isSet = true → 1 ≤ o.range.start.column ∧ 1 ≤ o.range.stop.column

theorem LineIndex.offset_nonneg {starts : List Nat} {line column : Int} (h : 0 ≤ column) : 0 ≤ offset starts line column := by
  unfold offset
  split
  · exact Int.le_refl 0
  · split
    · exact Int.le_refl 0
    · omega

/-- A slice that holds something begins before it ends. -/
theorem lt_of_slice_ne_nil {α : Type} {items : List α} {start stop : Int} (h1 : 0 ≤ start) (h2 : 0 ≤ stop)
    (h : slice items start stop ≠ []) : start < stop := by
  by_contra hle
  refine h ?_
  have hclamp : clampOffset items.length stop ≤ clampOffset items.length start := by
    unfold clampOffset
    rw [if_neg (by omega), if_neg (by omega)]
    omega
  rw [slice, Nat.sub_eq_zero_of_le hclamp, List.take_zero]

theorem encodeChars_ne_nil {cs : List Char} (h : cs ≠ []) : Utf8.encodeChars cs ≠ [] := by
  have h1 := List.length_pos_iff.mpr h
  have h2 := length_le_encodeChars cs
  exact List.length_pos_iff.mp (by omega)

theorem Occurrence.WellFormed.one_le_stop {o : Occurrence} (h : o.WellFormed) (hset : o.range.isSet = true) :
    1 ≤ o.stop.column := by
  obtain ⟨h1, h2⟩ := h.columns hset
  unfold Occurrence.stop
  split
  · show 1 ≤ o.range.start.column + (o.name.length : Int)
    omega
  · exact h2

/-- The name stands at the place, and the span is in order, or the occurrence is refused. -/
theorem Occurrence.WellFormed.stands_or_not {o : Occurrence} (h : o.WellFormed) (source : Bytes) :
    (o.StandsIn source ∧ o.locate source (LineIndex.build source) = .ok (o.span source) ∧
        (o.span source).start ≤ (o.span source).stop) ∨
      (¬o.StandsIn source ∧ ∃ reason, o.locate source (LineIndex.build source) = .error (.mismatch reason)) := by
  obtain ⟨cs, hne, hname⟩ := h.name
  have hencode : o.name.encode = .ok (Utf8.encodeChars cs) := by rw [hname, Text.encode_ofChars]
  by_cases hset : o.range.isSet = true
  · have hlocate : o.locate source (LineIndex.build source) = Span.verify source (o.span source) o.name := if_pos hset
    by_cases hslice : slice source (o.span source).start (o.span source).stop = Utf8.encodeChars cs
    · left
      have hstart : 0 ≤ (o.span source).start := LineIndex.offset_nonneg (by have := (h.columns hset).1; omega)
      have hstop : 0 ≤ (o.span source).stop := LineIndex.offset_nonneg (by have := h.one_le_stop hset; omega)
      have hlt := lt_of_slice_ne_nil hstart hstop (by rw [hslice]; exact encodeChars_ne_nil hne)
      refine ⟨⟨hset, by rw [hencode, hslice]⟩, ?_, by omega⟩
      rw [hlocate, Span.verify, hencode]
      exact if_pos hslice
    · right
      constructor
      · rintro ⟨_, hstands⟩
        rw [hencode] at hstands
        exact hslice (Except.ok.inj hstands).symm
      · rw [hlocate, Span.verify, hencode]
        exact ⟨_, if_neg hslice⟩
  · right
    exact ⟨fun hstands => hset hstands.1, .unlocated o.name, if_neg hset⟩

/-! ## The records of a pass -/

/-- An occurrence with its record: the edit that is queued for it, or what is reported of it. -/
abbrev Recorded := Occurrence × (Edit ⊕ Skipped)

/-- An edit is queued exactly for an occurrence whose name stands at its place; it covers the span and
    puts the new name there. -/
def Recorded.Faithful (source : Bytes) (tag : String) (separator : Text) (record : Recorded) : Prop :=
  match record with
  | (o, .inl e) => o.StandsIn source ∧ ⟨e.start, e.stop⟩ = o.span source ∧ e.text = newName tag separator o.name
  | (o, .inr s) => ¬o.StandsIn source ∧ s.occurrence = o

section Pass

variable {source : Bytes} {r : Renamer} {o : Occurrence} {os : List Occurrence}

theorem Renamer.Of.settles (hr : r.Of source) (ho : o.WellFormed) : r.Settles o.mark := by
  unfold Renamer.Settles
  rw [hr.1, hr.2]
  rcases ho.stands_or_not source with ⟨_, hl, hle⟩ | ⟨_, reason, hl⟩
  · exact .inl ⟨_, hl, hle⟩
  · exact .inr ⟨reason, hl⟩

/-- The record of one occurrence. -/
theorem Renamer.Of.exists_record (hr : r.Of source) (ho : o.WellFormed) :
    ∃ x : Edit ⊕ Skipped, x.getLeft? = r.edit? o.mark ∧ x.getRight? = r.skip? o ∧
      Recorded.Faithful source r.tag r.separator (o, x) := by
  have hlocate : o.mark.locate r.source r.lineStarts = o.locate source (LineIndex.build source) := by
    rw [hr.1, hr.2]
    rfl
  rcases ho.stands_or_not source with ⟨hstands, hl, hle⟩ | ⟨hstands, reason, hl⟩
  · have hedit := Renamer.edit?_of_locate (hlocate.trans hl) hle
    have hskip : r.skip? o = none := by rw [Renamer.skip?, hlocate, hl]
    exact ⟨.inl ⟨_, _, newName r.tag r.separator o.name, hle⟩, hedit.symm, hskip.symm, hstands, rfl, rfl⟩
  · have hedit : r.edit? o.mark = none := by rw [Renamer.edit?, hlocate, hl]
    have hskip : r.skip? o = some ⟨o, reason⟩ := by rw [Renamer.skip?, hlocate, hl]
    exact ⟨.inr ⟨o, reason⟩, hedit.symm, hskip.symm, hstands, rfl⟩

/-- The records of occurrences, in their order. -/
theorem Renamer.Of.exists_records (hr : r.Of source) (hos : ∀ o ∈ os, o.WellFormed) :
    ∃ records : List Recorded, records.map Prod.fst = os ∧
      records.filterMap (·.2.getLeft?) = os.filterMap (fun o => r.edit? o.mark) ∧
      records.filterMap (·.2.getRight?) = os.filterMap r.skip? ∧
      ∀ record ∈ records, Recorded.Faithful source r.tag r.separator record ∧ record.2.getLeft? = r.edit? record.1.mark := by
  induction os with
  | nil => exact ⟨[], rfl, rfl, rfl, fun record h => nomatch h⟩
  | cons o os ih =>
    obtain ⟨x, hleft, hright, hx⟩ := hr.exists_record (hos o List.mem_cons_self)
    obtain ⟨records, hfst, hedits, hskips, hall⟩ := ih fun o' ho' => hos o' (List.mem_cons_of_mem o ho')
    refine ⟨(o, x) :: records, ?_, ?_, ?_, ?_⟩
    · rw [List.map_cons, hfst]
    · simp only [List.filterMap_cons, hleft, hedits]
    · simp only [List.filterMap_cons, hright, hskips]
    · intro record hm
      rcases List.mem_cons.mp hm with rfl | hm
      · exact ⟨hx, hleft⟩
      · exact hall record hm

/-- The names that a pass binds are those of the binds it has an edit for. -/
theorem Renamer.mem_bound_after_iff {records : List Recorded} (hfst : records.map Prod.fst = os)
    (hedit : ∀ record ∈ records, record.2.getLeft? = r.edit? record.1.mark) {n : Text} :
    n ∈ (r.after os).bound ↔ n ∈ r.bound ∨ ∃ o e, (o, Sum.inl e) ∈ records ∧ o.kind = .bind ∧ o.name = n := by
  rw [Renamer.mem_bound_after]
  refine or_congr_right ?_
  constructor
  · rintro ⟨o, ho, hk, hs, rfl⟩
    rw [← hfst] at ho
    obtain ⟨⟨o, x⟩, hm, rfl⟩ := List.mem_map.mp ho
    rw [← hedit _ hm] at hs
    cases x with
    | inl e => exact ⟨o, e, hm, hk, rfl⟩
    | inr => cases hs
  · rintro ⟨o, e, hm, hk, rfl⟩
    have hs : r.edit? o.mark = some e := (hedit _ hm).symm
    exact ⟨o, hfst ▸ List.mem_map_of_mem hm, hk, by rw [hs]; rfl, rfl⟩

end Pass

/-! ## Both passes -/

theorem kind_of_mem_bindOccurrences {tree : Node} {o : Occurrence} (h : o ∈ tree.bindOccurrences) : o.kind = .bind := by
  obtain ⟨m, _, hm⟩ := List.mem_flatMap.mp h
  obtain ⟨b, _, rfl⟩ := List.mem_map.mp hm
  rfl

/-- What the passes look at: the binds, then the variables whose name is one of `names`. -/
theorem Node.filter_occurrences_perm (tree : Node) (names : List Text) :
    (tree.occurrences.filter fun o => o.kind = .bind || names.contains o.name).Perm
      (tree.bindOccurrences ++ tree.references.filter fun o => names.contains o.name) := by
  refine (tree.occurrences_perm.filter _).trans (.of_eq ?_)
  rw [List.filter_append]
  congr 1
  · rw [List.filter_eq_self]
    intro o ho
    simp [kind_of_mem_bindOccurrences ho]
  · refine List.filter_congr ?_
    intro o ho
    simp [kind_of_mem_references ho]

theorem Renamer.exists_initial {source : Bytes} {identity separator : Text} {r : Renamer}
    (h : Renamer.start source identity separator = .ok r) : ∃ tag, r = Renamer.initial source tag separator := by
  unfold Renamer.start at h
  cases ht : fileTag identity with
  | error => rw [ht] at h; cases h
  | ok tag =>
    rw [ht] at h
    cases h
    exact ⟨tag, rfl⟩

/-- Both passes go through and leave one record for each bind and for each variable whose name was bound. -/
theorem passes_record_once {source : Bytes} {tree : Node} {identity separator : Text} {initial : Renamer}
    (hstart : Renamer.start source identity separator = .ok initial)
    (hnames : ∀ o ∈ tree.occurrences, ∃ cs, cs ≠ [] ∧ o.name = .ofChars cs)
    (hcolumns : ∀ o ∈ tree.occurrences, o.range.isSet = true → 1 ≤ o.range.start.column ∧ 1 ≤ o.range.stop.column)
    (hshared : tree.SharesBodies) :
    (∀ o, o ∈ tree.occurrences ↔ ∃ m, tree.Within m ∧ o ∈ m.ownOccurrences) ∧
    ∃ (afterBinds afterBoth : Renamer) (records : List Recorded),
      initial.collectBinds tree = (afterBinds, none) ∧
      afterBinds.collectReferences tree = (afterBoth, none) ∧
      (records.map Prod.fst).Perm
        (tree.occurrences.filter fun o => o.kind = .bind || afterBoth.bound.contains o.name) ∧
      afterBoth.edits = records.filterMap (·.2.getLeft?) ∧
      afterBoth.skipped = records.filterMap (·.2.getRight?) ∧
      (∀ n, n ∈ afterBoth.bound ↔ ∃ o e, (o, Sum.inl e) ∈ records ∧ o.kind = .bind ∧ o.name = n) ∧
      ∀ record ∈ records, record.Faithful source initial.tag separator := by
  obtain ⟨tag, rfl⟩ := Renamer.exists_initial hstart
  have hwell : ∀ o ∈ tree.occurrences, o.WellFormed := fun o ho => ⟨hnames o ho, hcolumns o ho⟩
  have hbinds : ∀ o ∈ tree.bindOccurrences, o.WellFormed := by
    intro o ho
    exact hwell o (tree.occurrences_perm.symm.subset (List.mem_append_left _ ho))
  have hreferences : ∀ o ∈ tree.references.filter fun o =>
      (Renamer.afterBinds source tag separator tree).bound.contains o.name, o.WellFormed := by
    intro o ho
    exact hwell o (tree.occurrences_perm.symm.subset (List.mem_append_right _ (List.mem_of_mem_filter ho)))
  have hof := Renamer.of_initial source tag separator
  have hof' := Renamer.of_afterBinds source tag separator tree
  obtain ⟨rs, hfst, hedits, hskips, hrs⟩ := hof.exists_records hbinds
  obtain ⟨rs', hfst', hedits', hskips', hrs'⟩ := hof'.exists_records hreferences
  refine ⟨fun o => hshared.mem_occurrences_iff, Renamer.afterBinds source tag separator tree,
    Renamer.afterBoth source tag separator tree, rs ++ rs', ?_, ?_, ?_, ?_, ?_, ?_, ?_⟩
  · exact Renamer.recordAll_eq_after fun o ho => hof.settles (hbinds o ho)
  · exact Renamer.recordAll_eq_after fun o ho => hof'.settles (hreferences o ho)
  · have hcontains (n : Text) : (Renamer.afterBoth source tag separator tree).bound.contains n =
        (Renamer.afterBinds source tag separator tree).bound.contains n := by
      rw [Bool.eq_iff_iff, List.contains_iff_mem, List.contains_iff_mem, Renamer.mem_bound_afterBoth]
    rw [List.map_append, hfst, hfst']
    simp only [hcontains]
    exact (tree.filter_occurrences_perm _).symm
  · rw [List.filterMap_append, hedits, hedits']
    rfl
  · rw [List.filterMap_append, hskips, hskips']
    rfl
  · intro n
    rw [Renamer.afterBoth, Renamer.mem_bound_after_iff hfst' fun record hm => (hrs' record hm).2, Renamer.afterBinds,
      Renamer.mem_bound_after_iff hfst fun record hm => (hrs record hm).2]
    simp only [List.mem_append, or_and_right, exists_or]
    exact or_congr_left (or_iff_right List.not_mem_nil)
  · intro record hm
    rcases List.mem_append.mp hm with hm | hm
    · exact (hrs record hm).1
    · exact (hrs' record hm).1

def handMade : Node :=
  .localIn [⟨"f", .var "x" .unset, some (.function [] (.var "x" .unset) .unset), ⟨"", ⟨1, 7⟩, ⟨1, 13⟩⟩⟩]
    (.objectLocal ⟨"y", .var "f" ⟨"", ⟨9, 1⟩, ⟨9, 2⟩⟩, none, .unset⟩ .unset) .unset

theorem occurrences_handMade :
    handMade.occurrences =
      [⟨.bind, "f", ⟨"", ⟨1, 7⟩, ⟨1, 13⟩⟩⟩, ⟨.reference, "x", .unset⟩, ⟨.bind, "y", .unset⟩,
        ⟨.reference, "f", ⟨"", ⟨9, 1⟩, ⟨9, 2⟩⟩⟩] := by
  simp [handMade, Node.occurrences, Node.occurrencesOfBinds, Node.occurrencesOfParams]

theorem sharesBodies_handMade : handMade.SharesBodies := by
  have hvar (name : Text) (range : Range) : (Node.var name range).SharesBodies :=
    .intro (by simp [Node.binds]) (by simp) (by simp [Node.fields])
  have hfunction : (Node.function [] (.var "x" .unset) .unset).SharesBodies :=
    .intro (by simp [Node.binds]) (by simp) (by simpa [Node.fields] using hvar _ _)
  have hlocal : (Node.objectLocal ⟨"y", .var "f" ⟨"", ⟨9, 1⟩, ⟨9, 2⟩⟩, none, .unset⟩ .unset).SharesBodies :=
    .intro (by simp [Node.binds]) (by simp) (by simpa [Node.fields, Bind.fields] using hvar _ _)
  refine .intro ?_ (by simp [handMade]) ?_
  · simp [handMade, Node.binds, Node.HasBody]
  · simp [handMade, Node.fields, Bind.fields, hvar, hfunction, hlocal]

/-- Both passes over the tree made by hand. -/
theorem passes_record_once_handMade :
    ∃ (initial afterBinds afterBoth : Renamer) (records : List Recorded),
      Renamer.start (Utf8.encode "local f()=x;0") "a" "_" = .ok initial ∧
      initial.collectBinds handMade = (afterBinds, none) ∧
      afterBinds.collectReferences handMade = (afterBoth, none) ∧
      (records.map Prod.fst).Perm
        (handMade.occurrences.filter fun o => o.kind = .bind || afterBoth.bound.contains o.name) := by
  have hstart : Renamer.start (Utf8.encode "local f()=x;0") "a" "_" =
      .ok (Renamer.initial (Utf8.encode "local f()=x;0") "_e40c292c" "_") :=
    Renamer.start_eq (by decide +kernel)
  obtain ⟨_, afterBinds, afterBoth, records, h1, h2, h3, _⟩ := passes_record_once hstart
    (by
      rw [occurrences_handMade]
      simp only [List.mem_cons, List.not_mem_nil, or_false, forall_eq_or_imp, forall_eq]
      exact ⟨⟨['f'], by decide, rfl⟩, ⟨['x'], by decide, rfl⟩, ⟨['y'], by decide, rfl⟩, ⟨['f'], by decide, rfl⟩⟩)
    (by rw [occurrences_handMade]; decide) sharesBodies_handMade
  exact ⟨_, afterBinds, afterBoth, records, hstart, h1, h2, h3⟩

end JsonnetLocals
