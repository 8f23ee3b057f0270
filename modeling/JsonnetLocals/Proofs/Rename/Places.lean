/-
  JsonnetLocals.Proofs.Rename.Places — what renaming makes of wrong places.

  The tree may be made by hand, with places that are wrong or beyond the source. The source is compared by a
  slice, and a slice stops at the end of the source: that says of an edit that it begins inside, covers
  something and holds the name, but not that it ends inside (`Occurrence.FromOne.coveredBy`).
  - `Renamer.Sound` is kept by recording any occurrence (`Renamer.Sound.record`), so it holds wherever
    a run ends, also one that fails (`Renamer.run_cases`): every edit that is queued covers a name, and what
    is skipped does not stand at its place.
  - Renaming comes to a result exactly when the edits are apart and end inside
    (`rename_returns_iff`). A reference to the last name of the source that is said to end later
    is edited all the same, and then there is no result (`rename_beyond_the_end`).
-/

import JsonnetLocals.Proofs.Rename.Records
import JsonnetLocals.Proofs.Source.Simultaneous

namespace JsonnetLocals

/-- A slice that holds something begins inside, and ends where it is told to or at the end. -/
theorem slice_bounds {α : Type} {items : List α} {start stop : Int} (h1 : 0 ≤ start) (h2 : 0 ≤ stop)
    (h : slice items start stop ≠ []) :
    start < stop ∧ start + (slice items start stop).length = min stop items.length := by
  have hlt := lt_of_slice_ne_nil h1 h2 h
  have hlen : (slice items start stop).length = min stop.toNat items.length - min start.toNat items.length := by
    rw [slice, clampOffset, clampOffset, if_neg (by omega), if_neg (by omega), List.length_take, List.length_drop]
    omega
  have hpos := List.length_pos_iff.mpr h
  omega

/-- A slice that ends at or beyond the end is all that is left. -/
theorem slice_eq_drop {α : Type} {items : List α} {start stop : Int} (h1 : 0 ≤ start) (h2 : items.length ≤ stop) :
    slice items start stop = items.drop start.toNat := by
  have hstop : clampOffset items.length stop = items.length := by
    rw [clampOffset, if_neg (by omega)]
    omega
  have hstart : clampOffset items.length start = min start.toNat items.length := if_neg (by omega)
  rw [slice, hstop, hstart, List.take_of_length_le (by rw [List.length_drop])]
  by_cases hle : start.toNat ≤ items.length
  · rw [Nat.min_eq_left hle]
  · rw [Nat.min_eq_right (by omega), List.drop_length, List.drop_of_length_le (by omega)]

/-- Offsets are no further apart than their columns. -/
theorem LineIndex.offset_add_le {starts : List Nat} {line column : Int} {n : Nat} :
    offset starts line (column + n) ≤ offset starts line column + n := by
  unfold offset
  split
  · omega
  · split
    · omega
    · omega

/-! ## One occurrence -/

namespace Occurrence

/-- The name is not empty, and the columns count from one. -/
structure FromOne (o : Occurrence) : Prop where
  name : o.name ≠ ""
  columns : o.range.isSet = true → 1 ≤ o.range.start.column ∧ 1 ≤ o.range.stop.column

/-- If the occurrence has a place, its name has bytes to compare with. -/
def Comparable (o : Occurrence) : Prop := o.range.isSet = true → ∃ bytes, o.name.encode = .ok bytes

/-- The edit covers the name of the occurrence. It ends inside the source, or it is that of a reference whose name is all that
    is left of the source. -/
structure CoveredBy (o : Occurrence) (source : Bytes) (e : Edit) : Prop where
  replaces : e.Replaces
  holds : o.name.encode = .ok (slice source e.start e.stop)
  ends : e.stop ≤ source.length ∨ o.kind = .reference ∧ o.name.encode = .ok (source.drop e.start.toNat)

namespace FromOne

variable {o : Occurrence} {source bytes : Bytes}

theorem wellFormed (h : o.FromOne) (hb : o.name.encode = .ok bytes) : o.WellFormed := by
  obtain ⟨cs, hname, -⟩ := Text.encode_eq_ok_iff.mp hb
  refine ⟨⟨cs, ?_, hname⟩, h.columns⟩
  rintro rfl
  exact h.name hname

/-- An occurrence is found at its place, or is not, or cannot be compared. -/
theorem locate_cases (h : o.FromOne) (source : Bytes) :
    (o.StandsIn source ∧ o.Comparable ∧ o.locate source (LineIndex.build source) = .ok (o.span source) ∧
        (o.span source).start ≤ (o.span source).stop) ∨
      (¬ o.StandsIn source ∧ o.Comparable ∧ ∃ reason, o.locate source (LineIndex.build source) = .error (.mismatch reason)) ∨
      (¬ o.Comparable ∧ ∃ u, o.locate source (LineIndex.build source) = .error (.unencodable u)) := by
  cases hname : o.name.encode with
  | ok bytes =>
    have hcomparable : o.Comparable := fun _ => ⟨bytes, hname⟩
    rcases (h.wellFormed hname).stands_or_not source with ⟨hstands, hl, hle⟩ | ⟨hstands, hl⟩
    · exact .inl ⟨hstands, hcomparable, hl, hle⟩
    · exact .inr (.inl ⟨hstands, hcomparable, hl⟩)
  | error u =>
    by_cases hset : o.range.isSet = true
    · refine .inr (.inr ⟨?_, u, ?_⟩)
      · intro hcomparable
        obtain ⟨bytes, hbytes⟩ := hcomparable hset
        rw [hname] at hbytes
        cases hbytes
      · rw [locate, if_pos hset, Span.verify, hname]
    · exact .inr (.inl ⟨fun hstands => hset hstands.1, fun hset' => absurd hset' hset, .unlocated o.name, if_neg hset⟩)

/-- What stands at the place of an occurrence begins inside the source. -/
theorem bounds (h : o.FromOne) (hstands : o.StandsIn source) :
    ∃ cs, o.name = .ofChars cs ∧ 0 ≤ (o.span source).start ∧ (o.span source).start < (o.span source).stop ∧
      (o.span source).start + (Utf8.encodeChars cs).length = min (o.span source).stop source.length := by
  obtain ⟨hset, hname⟩ := hstands
  obtain ⟨cs, hcs, hslice⟩ := Text.encode_eq_ok_iff.mp hname
  have hcolumn := (h.columns hset).1
  have hstop := (h.wellFormed hname).one_le_stop hset
  have hstart : 0 ≤ (o.span source).start := LineIndex.offset_nonneg (by omega)
  have hne : slice source (o.span source).start (o.span source).stop ≠ [] := by
    rw [hslice]
    refine encodeChars_ne_nil ?_
    rintro rfl
    exact h.name hcs
  have hend : 0 ≤ (o.span source).stop := LineIndex.offset_nonneg (by omega)
  obtain ⟨hlt, hlen⟩ := slice_bounds hstart hend hne
  rw [hslice] at hlen
  exact ⟨cs, hcs, hstart, hlt, hlen⟩

/-- The end of a bind is measured by its name, so a bind that is found ends inside. -/
theorem bind_le_length (h : o.FromOne) (hk : o.kind = .bind) (hstands : o.StandsIn source) :
    (o.span source).stop ≤ source.length := by
  obtain ⟨cs, hcs, -, -, hlen⟩ := h.bounds hstands
  have hwidth : (o.span source).stop ≤ (o.span source).start + cs.length := by
    have hlength : o.name.length = cs.length := by
      rw [hcs]
      exact List.length_map ..
    have hstop : o.stop = ⟨o.range.start.line, o.range.start.column + cs.length⟩ := by
      rw [stop, hk, hlength]
    have hcolumn : o.range.start.column + (cs.length : Int) - 1 = o.range.start.column - 1 + cs.length := by omega
    rw [span, Span.resolve, hstop]
    show LineIndex.offset _ _ (o.range.start.column + (cs.length : Int) - 1) ≤ _
    rw [hcolumn]
    exact LineIndex.offset_add_le
  have hle := length_le_encodeChars cs
  omega

/-- What is edited for an occurrence that is found. -/
theorem coveredBy (h : o.FromOne) (hstands : o.StandsIn source) {e : Edit} (he : ⟨e.start, e.stop⟩ = o.span source) :
    o.CoveredBy source e := by
  obtain ⟨-, -, hstart, hlt, -⟩ := h.bounds hstands
  have hname := hstands.2
  have hends : (o.span source).stop ≤ source.length ∨ o.kind = .reference := by
    cases hk : o.kind with
    | bind => exact .inl (h.bind_le_length hk hstands)
    | reference => exact .inr rfl
  rw [← he] at hstart hlt hname hends
  refine ⟨⟨hstart, hlt⟩, hname, ?_⟩
  by_cases hle : e.stop ≤ source.length
  · exact .inl hle
  · rw [← slice_eq_drop hstart (by omega : (source.length : Int) ≤ e.stop)]
    exact .inr ⟨hends.resolve_left hle, hname⟩

end FromOne

end Occurrence

/-! ## Runs -/

namespace Renamer

/-- Every edit that is queued covers the name of one of the occurrences and puts the new name there, and what is skipped does
    not stand at its place. -/
structure Sound (initial r : Renamer) (os : List Occurrence) : Prop where
  source : r.source = initial.source
  lineStarts : r.lineStarts = LineIndex.build initial.source
  names : newName r.tag r.separator = newName initial.tag initial.separator
  edits : ∀ e ∈ r.edits, ∃ o ∈ os, o.CoveredBy initial.source e ∧ e.text = newName initial.tag initial.separator o.name
  skipped : ∀ s ∈ r.skipped, s.occurrence ∈ os ∧ ¬ s.occurrence.StandsIn initial.source
  bound : ∀ n ∈ r.bound, ∃ bytes, n.encode = .ok bytes

section Steps

variable {initial r r' : Renamer} {o : Occurrence} {os us : List Occurrence} {tree : Node}

theorem sound_initial (source : Bytes) (tag : String) (separator : Text) (os : List Occurrence) :
    Sound (Renamer.initial source tag separator) (Renamer.initial source tag separator) os where
  source := rfl
  lineStarts := rfl
  names := rfl
  edits := List.forall_mem_nil _
  skipped := List.forall_mem_nil _
  bound := List.forall_mem_nil _

namespace Sound

theorem queue (h : Sound initial r os) (ho : o ∈ os) {e : Edit} (hcovered : o.CoveredBy initial.source e)
    (htext : e.text = newName r.tag r.separator o.name) : Sound initial { r with edits := r.edits ++ [e] } os where
  source := h.source
  lineStarts := h.lineStarts
  names := h.names
  edits := by
    intro d hd
    rcases List.mem_append.mp hd with hd | hd
    · exact h.edits d hd
    · obtain rfl := List.mem_singleton.mp hd
      exact ⟨o, ho, hcovered, htext.trans (congrFun h.names o.name)⟩
  skipped := h.skipped
  bound := h.bound

theorem skip (h : Sound initial r os) (ho : o ∈ os) (hstands : ¬ o.StandsIn initial.source) (reason : Mismatch) :
    Sound initial { r with skipped := r.skipped ++ [⟨o, reason⟩] } os where
  source := h.source
  lineStarts := h.lineStarts
  names := h.names
  edits := h.edits
  skipped := by
    intro s hs
    rcases List.mem_append.mp hs with hs | hs
    · exact h.skipped s hs
    · obtain rfl := List.mem_singleton.mp hs
      exact ⟨ho, hstands⟩
  bound := h.bound

theorem count (h : Sound initial r os) {bytes : Bytes} (hname : o.name.encode = .ok bytes) : Sound initial (r.count o) os := by
  unfold Renamer.count
  split
  · refine ⟨h.source, h.lineStarts, h.names, h.edits, h.skipped, ?_⟩
    intro n hn
    rcases List.mem_insert_iff.mp hn with rfl | hn
    · exact ⟨bytes, hname⟩
    · exact h.bound n hn
  · exact ⟨h.source, h.lineStarts, h.names, h.edits, h.skipped, h.bound⟩

/-- Recording an occurrence fails only if it has a place and a name without bytes. -/
theorem record (h : Sound initial r os) (ho : o ∈ os) (hone : o.FromOne) :
    (o.Comparable ∧ ∃ r', r.record o = .ok r' ∧ Sound initial r' os) ∨ (¬ o.Comparable ∧ ∃ x, r.record o = .error x) := by
  have hlocate : o.locate r.source r.lineStarts = o.locate initial.source (LineIndex.build initial.source) := by
    rw [h.source, h.lineStarts]
  rcases hone.locate_cases initial.source with ⟨hstands, hc, hl, hle⟩ | ⟨hstands, hc, reason, hl⟩ | ⟨hc, u, hl⟩
  · exact .inl ⟨hc, _, record_of_found (hlocate.trans hl) hle, (h.queue ho (hone.coveredBy hstands rfl) rfl).count hstands.2⟩
  · exact .inl ⟨hc, _, record_of_mismatch (hlocate.trans hl), h.skip ho hstands reason⟩
  · exact .inr ⟨hc, _, record_of_unencodable (hlocate.trans hl)⟩

/-- However a pass ends, it is sound; it goes through if all that have a place can be compared. -/
theorem recordAll (h : Sound initial r os) (hus : ∀ o ∈ us, o ∈ os ∧ o.FromOne) :
    Sound initial (r.recordAll us).1 os ∧ ((r.recordAll us).2 = none ↔ ∀ o ∈ us, o.Comparable) := by
  induction us generalizing r with
  | nil => exact ⟨h, iff_of_true rfl (List.forall_mem_nil _)⟩
  | cons o us ih =>
    rw [List.forall_mem_cons] at hus
    rw [List.forall_mem_cons]
    rcases h.record hus.1.1 hus.1.2 with ⟨hc, r', hr, h'⟩ | ⟨hc, x, hr⟩
    · rw [Renamer.recordAll, hr]
      obtain ⟨hsound, hiff⟩ := ih h' hus.2
      exact ⟨hsound, hiff.trans (and_iff_right hc).symm⟩
    · rw [Renamer.recordAll, hr]
      exact ⟨h, iff_of_false (Option.some_ne_none x) fun hall => hc hall.1⟩

/-- The new names have bytes when the separator has. -/
theorem encodes (h : Sound initial r os) (hsep : ∃ bytes, initial.separator.encode = .ok bytes) : ∀ e ∈ r.edits, e.Encodes := by
  intro e he
  obtain ⟨o, -, hcovered, htext⟩ := h.edits e he
  obtain ⟨bytes, hbytes⟩ := hsep
  rw [Edit.Encodes, htext]
  exact ⟨_, Text.encode_append (Text.encode_append (Text.encode_ofString initial.tag) hbytes) hcovered.holds⟩

end Sound

/-- However a run ends, it is sound; it comes to apply its edits if every bind with a place can be compared. The references
    that are looked for have bound names, so they can all be compared. -/
theorem run_cases (source : Bytes) (tag : String) (separator : Text) {tree : Node}
    (hone : ∀ o ∈ tree.bindOccurrences ++ tree.references, o.FromOne) :
    let initial := Renamer.initial source tag separator
    Sound initial (initial.run tree).1 (tree.bindOccurrences ++ tree.references) ∧
      (((∀ o ∈ tree.bindOccurrences, o.Comparable) ∧ (initial.run tree).2 = (initial.run tree).1.result) ∨
        ((¬ ∀ o ∈ tree.bindOccurrences, o.Comparable) ∧ ∃ x, (initial.run tree).2 = .error x)) := by
  intro initial
  have hbinds : ∀ o ∈ tree.bindOccurrences, o ∈ tree.bindOccurrences ++ tree.references ∧ o.FromOne :=
    fun o ho => ⟨List.mem_append_left _ ho, hone o (List.mem_append_left _ ho)⟩
  have hinitial : Sound initial initial (tree.bindOccurrences ++ tree.references) := sound_initial source tag separator _
  obtain ⟨hsound, hiff⟩ := hinitial.recordAll hbinds
  rcases hr : initial.recordAll tree.bindOccurrences with ⟨r, x⟩
  rw [hr] at hsound hiff
  cases x with
  | some e =>
    have hrun : initial.run tree = (r, .error e) := by rw [run, collectBinds, hr]
    rw [hrun]
    refine ⟨hsound, .inr ⟨?_, e, rfl⟩⟩
    intro hall
    cases hiff.mpr hall
  | none =>
    have hreferences : ∀ o ∈ tree.references.filter fun o => r.bound.contains o.name,
        o ∈ tree.bindOccurrences ++ tree.references ∧ o.FromOne := by
      intro o ho
      have hmem : o ∈ tree.references := List.mem_of_mem_filter ho
      exact ⟨List.mem_append_right _ hmem, hone o (List.mem_append_right _ hmem)⟩
    have hcomparable : ∀ o ∈ tree.references.filter fun o => r.bound.contains o.name, o.Comparable := by
      intro o ho _
      exact hsound.bound o.name (List.contains_iff_mem.mp (List.mem_filter.mp ho).2)
    obtain ⟨hsound', hiff'⟩ := hsound.recordAll hreferences
    have hnone := hiff'.mpr hcomparable
    rcases hr' : r.recordAll (tree.references.filter fun o => r.bound.contains o.name) with ⟨r', x'⟩
    rw [hr'] at hsound' hnone
    obtain rfl : x' = none := hnone
    have hrun : initial.run tree = (r', r'.result) := by
      rw [run, collectBinds, hr]
      simp only [collectReferences, hr']
    rw [hrun]
    exact ⟨hsound', .inl ⟨hiff.mp rfl, rfl⟩⟩

/-- A renamer comes to a result if its edits can be applied. -/
theorem exists_result_iff {r : Renamer} :
    (∃ renamed, r.result = .ok renamed) ↔ ∃ code, Edit.applyAll r.source r.edits = .ok code := by
  rw [result, apply]
  cases Edit.applyAll r.source r.edits with
  | ok code => exact iff_of_true ⟨_, rfl⟩ ⟨code, rfl⟩
  | error e =>
    constructor
    · rintro ⟨renamed, h⟩
      cases h
    · rintro ⟨code, h⟩
      cases h

end Steps

end Renamer

theorem renameLocals_eq {source : Bytes} {tree : Node} {identity separator : Text} {initial : Renamer}
    (hstart : Renamer.start source identity separator = .ok initial) :
    renameLocals tree source identity separator = ((initial.run tree).1.skipped, (initial.run tree).2) := by
  rw [renameLocals, hstart]

/-- Whatever the places say, as long as their columns count from one: every edit that is queued begins inside the source,
    covers something, and holds the name that it renames; it ends inside the source too, or it is that of a reference whose
    name is all that is left of the source. What is skipped does not stand at its place. Renaming comes to a result exactly
    when every bind with a place has a name with bytes, no two edits cover one byte, and all end inside the source. -/
theorem rename_returns_iff {source : Bytes} {tree : Node} {identity separator : Text} {initial : Renamer}
    (hstart : Renamer.start source identity separator = .ok initial) (hsep : ∃ bytes, separator.encode = .ok bytes)
    (hnames : ∀ o ∈ tree.bindOccurrences ++ tree.references, o.name ≠ "")
    (hcolumns : ∀ o ∈ tree.bindOccurrences ++ tree.references,
      o.range.isSet = true → 1 ≤ o.range.start.column ∧ 1 ≤ o.range.stop.column) :
    (∀ e ∈ (initial.run tree).1.edits, 0 ≤ e.start ∧ e.start < e.stop ∧ ∃ o ∈ tree.bindOccurrences ++ tree.references,
      o.name.encode = .ok (slice source e.start e.stop) ∧
      (e.stop ≤ source.length ∨ o.kind = .reference ∧ o.name.encode = .ok (source.drop e.start.toNat))) ∧
    (∀ s ∈ (renameLocals tree source identity separator).1,
      s.occurrence ∈ tree.bindOccurrences ++ tree.references ∧ ¬ s.occurrence.StandsIn source) ∧
    ((∃ renamed, (renameLocals tree source identity separator).2 = .ok renamed) ↔
      (∀ o ∈ tree.bindOccurrences, o.range.isSet = true → ∃ bytes, o.name.encode = .ok bytes) ∧
      Edit.AtOnce source.length (initial.run tree).1.edits) := by
  obtain ⟨tag, rfl⟩ := Renamer.exists_initial hstart
  obtain ⟨hsound, hcases⟩ := Renamer.run_cases source tag separator fun o ho => ⟨hnames o ho, hcolumns o ho⟩
  have hreplaces : ∀ e ∈ ((Renamer.initial source tag separator).run tree).1.edits, e.Replaces := by
    intro e he
    obtain ⟨o, -, hcovered, -⟩ := hsound.edits e he
    exact hcovered.replaces
  rw [renameLocals_eq hstart]
  refine ⟨?_, hsound.skipped, ?_⟩
  · intro e he
    obtain ⟨o, ho, hcovered, -⟩ := hsound.edits e he
    exact ⟨hcovered.replaces.1, hcovered.replaces.2, o, ho, hcovered.holds, hcovered.ends⟩
  · rcases hcases with ⟨hall, hresult⟩ | ⟨hall, x, hresult⟩
    · rw [hresult, Renamer.exists_result_iff, hsound.source, Edit.exists_applyAll_iff hreplaces,
        and_iff_left (hsound.encodes hsep)]
      exact (and_iff_right hall).symm
    · rw [hresult]
      refine iff_of_false ?_ fun h => hall h.1
      rintro ⟨renamed, h⟩
      cases h

def oneLocal (references : List Range) : Node :=
  .localIn [⟨"x", .null .unset, none, ⟨"", ⟨1, 7⟩, ⟨1, 10⟩⟩⟩] (.array (references.map (.var "x")) .unset) .unset

/-- A reference where it stands, one on a line that there is not, and one at a keyword: the last two are skipped. -/
theorem rename_returns_wrong_places :
    let tree := oneLocal [⟨"", ⟨1, 11⟩, ⟨1, 12⟩⟩, ⟨"", ⟨9, 1⟩, ⟨9, 2⟩⟩, ⟨"", ⟨1, 1⟩, ⟨1, 2⟩⟩]
    let source := Utf8.encode "local x=1;x"
    (∃ renamed, (renameLocals tree source "a" "_").2 = .ok renamed) ∧
      (renameLocals tree source "a" "_").1.map (·.occurrence.range.start) = [⟨9, 1⟩, ⟨1, 1⟩] := by
  intro tree source
  have hstart : Renamer.start source "a" "_" = .ok (Renamer.initial source "_e40c292c" "_") :=
    Renamer.start_eq (by decide +kernel)
  have hedits : ((Renamer.initial source "_e40c292c" "_").run tree).1.edits =
      [⟨6, 7, "_e40c292c_x", by decide⟩, ⟨10, 11, "_e40c292c_x", by decide⟩] := by decide +kernel
  obtain ⟨-, -, hiff⟩ := @rename_returns_iff source tree "a" "_" _ hstart ⟨_, Text.encode_ofString "_"⟩ (by decide +kernel)
    (by decide +kernel)
  have hnames : ∀ o ∈ tree.bindOccurrences, o.name = .ofString "x" := by decide +kernel
  refine ⟨hiff.mpr ⟨?_, ?_⟩, by decide +kernel⟩
  · intro o ho _
    rw [hnames o ho]
    exact ⟨_, Text.encode_ofString "x"⟩
  · rw [hedits]
    exact ⟨by simpa using (Edit.disjoint_covered_iff (by decide) (by decide)).mpr (by decide), by decide⟩

/-- A reference to the last name of the source that is said to end nine bytes further on: all lines and columns count from
    one and no two edits cover one byte, but there is no result. -/
theorem rename_beyond_the_end :
    let tree := oneLocal [⟨"", ⟨1, 11⟩, ⟨1, 20⟩⟩]
    let source := Utf8.encode "local x=1;x"
    ∃ initial, Renamer.start source "a" "_" = .ok initial ∧
      (∀ o ∈ tree.bindOccurrences ++ tree.references, o.name = "x" ∧ 1 ≤ o.range.start.line ∧ 1 ≤ o.range.start.column ∧
        1 ≤ o.range.stop.line ∧ 1 ≤ o.range.stop.column) ∧
      (initial.run tree).1.edits.Pairwise (fun a b => Disjoint a.covered b.covered) ∧
      (initial.run tree).1.edits.map (fun e => (e.start, e.stop)) = [(6, 7), (10, 19)] ∧ source.length = 11 ∧
      renameLocals tree source "a" "_" = ([], .error (.overlap 10)) := by
  intro tree source
  have hstart : Renamer.start source "a" "_" = .ok (Renamer.initial source "_e40c292c" "_") :=
    Renamer.start_eq (by decide +kernel)
  have hedits : ((Renamer.initial source "_e40c292c" "_").run tree).1.edits =
      [⟨6, 7, "_e40c292c_x", by decide⟩, ⟨10, 19, "_e40c292c_x", by decide⟩] := by decide +kernel
  have hplaces : ∀ o ∈ tree.bindOccurrences ++ tree.references, o.name = .ofString "x" ∧ 1 ≤ o.range.start.line ∧
      1 ≤ o.range.start.column ∧ 1 ≤ o.range.stop.line ∧ 1 ≤ o.range.stop.column := by decide +kernel
  have hone : ∀ o ∈ tree.bindOccurrences ++ tree.references, o.FromOne := by
    intro o ho
    obtain ⟨hname, -, hstart, -, hstop⟩ := hplaces o ho
    exact ⟨by rw [hname]; decide, fun _ => ⟨hstart, hstop⟩⟩
  obtain ⟨hsound, hcases⟩ := Renamer.run_cases source "_e40c292c" "_" hone
  refine ⟨_, hstart, hplaces, ?_, ?_, by decide +kernel, ?_⟩
  · rw [hedits]
    simpa using (Edit.disjoint_covered_iff (by decide) (by decide)).mpr (by decide)
  · rw [hedits]
    rfl
  · have hcomparable : ∀ o ∈ tree.bindOccurrences, o.Comparable := by
      intro o ho _
      rw [(hplaces o (List.mem_append_left _ ho)).1]
      exact ⟨_, Text.encode_ofString "x"⟩
    have harrange : Edit.arrange [⟨6, 7, "_e40c292c_x", by decide⟩, ⟨10, 19, "_e40c292c_x", by decide⟩] =
        [⟨10, 19, "_e40c292c_x", by decide⟩, ⟨6, 7, "_e40c292c_x", by decide⟩] := by
      simp [Edit.arrange, List.mergeSort, List.MergeSort.Internal.splitInTwo]
    have happly : ((Renamer.initial source "_e40c292c" "_").run tree).1.apply = .error (.overlap 10) := by
      rw [Renamer.apply, hsound.source, hedits, Edit.applyAll, harrange]
      rfl
    rcases hcases with ⟨-, hresult⟩ | ⟨hnot, -⟩
    · rw [renameLocals_eq hstart, hresult, Renamer.result, happly]
      exact Prod.ext (by decide +kernel) rfl
    · exact absurd hcomparable hnot

end JsonnetLocals
