/-
  JsonnetLocals.Proofs.Rename.Passes — what the passes of renaming do to any list of occurrences.

  Renaming looks only at the mark of an occurrence. When every occurrence settles, that is, its span
  is in order or does not hold the name, a pass goes through: `Renamer.after` is the renamer
  it leaves (`recordAll_eq_after`), one occurrence at a time (`after_cons`).
-/

import JsonnetLocals.Proofs.Syntax.Occurrences
import Mathlib.Data.List.Nodup

namespace JsonnetLocals

def Mark.locate (m : Mark) (source : Bytes) (lineStarts : List Nat) : Except SpanError Span :=
  if m.start.line != 0 then Span.verify source (Span.resolve lineStarts m.start m.stop) m.name
  else .error (.mismatch (.unlocated m.name))

theorem Occurrence.locate_eq (o : Occurrence) (source : Bytes) (lineStarts : List Nat) :
    o.locate source lineStarts = o.mark.locate source lineStarts := rfl

namespace Renamer

def edit? (r : Renamer) (m : Mark) : Option Edit :=
  match m.locate r.source r.lineStarts with
  | .ok span => (Edit.make span.start span.stop (newName r.tag r.separator m.name)).toOption
  | .error _ => none

def skip? (r : Renamer) (o : Occurrence) : Option Skipped :=
  match o.mark.locate r.source r.lineStarts with
  | .error (.mismatch reason) => some ⟨o, reason⟩
  | _ => none

/-- An occurrence with this mark is edited or skipped. -/
def Settles (r : Renamer) (m : Mark) : Prop :=
  (∃ span, m.locate r.source r.lineStarts = .ok span ∧ span.start ≤ span.stop) ∨
    ∃ reason, m.locate r.source r.lineStarts = .error (.mismatch reason)

def after (r : Renamer) (os : List Occurrence) : Renamer :=
  let done := os.filter fun o => (r.edit? o.mark).isSome
  { r with
    bound := (done.filter (·.kind = .bind)).foldl (fun names o => names.insert o.name) r.bound
    edits := r.edits ++ os.filterMap fun o => r.edit? o.mark
    skipped := r.skipped ++ os.filterMap r.skip?
    bindCount := r.bindCount + done.countP (·.kind = .bind)
    referenceCount := r.referenceCount + done.countP (·.kind = .reference) }

theorem edit?_after (r : Renamer) (os : List Occurrence) : (r.after os).edit? = r.edit? := rfl

theorem skip?_after (r : Renamer) (os : List Occurrence) : (r.after os).skip? = r.skip? := rfl

theorem after_nil (r : Renamer) : r.after [] = r := by simp [after]

theorem after_cons (r : Renamer) (o : Occurrence) (os : List Occurrence) : (r.after [o]).after os = r.after (o :: os) := by
  rw [after, edit?_after, skip?_after, after, after, mk.injEq]
  refine ⟨rfl, rfl, rfl, rfl, ?_, ?_, ?_, ?_, ?_⟩
  · rw [← List.foldl_append, ← List.filter_append, ← List.filter_append, List.singleton_append]
  · rw [List.append_assoc, ← List.filterMap_append, List.singleton_append]
  · rw [List.append_assoc, ← List.filterMap_append, List.singleton_append]
  · rw [Nat.add_assoc, ← List.countP_append, ← List.filter_append, List.singleton_append]
  · rw [Nat.add_assoc, ← List.countP_append, ← List.filter_append, List.singleton_append]

theorem edit?_of_locate {r : Renamer} {m : Mark} {span : Span} (hl : m.locate r.source r.lineStarts = .ok span)
    (hle : span.start ≤ span.stop) :
    r.edit? m = some ⟨span.start, span.stop, newName r.tag r.separator m.name, hle⟩ := by
  simp [edit?, hl, Edit.make, hle, Except.toOption]

theorem record_of_found {r : Renamer} {o : Occurrence} {span : Span} (hl : o.locate r.source r.lineStarts = .ok span)
    (hle : span.start ≤ span.stop) :
    let edit : Edit := ⟨span.start, span.stop, newName r.tag r.separator o.name, hle⟩
    r.record o = .ok ({ r with edits := r.edits ++ [edit] }.count o) := by
  simp only [record, hl, Edit.make, dif_pos hle]

theorem record_of_mismatch {r : Renamer} {o : Occurrence} {reason : Mismatch}
    (hl : o.locate r.source r.lineStarts = .error (.mismatch reason)) :
    r.record o = .ok { r with skipped := r.skipped ++ [⟨o, reason⟩] } := by
  simp only [record, hl]

theorem record_of_unencodable {r : Renamer} {o : Occurrence} {u : Unencodable}
    (hl : o.locate r.source r.lineStarts = .error (.unencodable u)) : r.record o = .error (.unencodable u) := by
  simp only [record, hl]

theorem record_eq_after {r : Renamer} {o : Occurrence} (h : r.Settles o.mark) : r.record o = .ok (r.after [o]) := by
  rcases h with ⟨span, hl, hle⟩ | ⟨reason, hl⟩
  · have hedit := edit?_of_locate hl hle
    have hskip : r.skip? o = none := by simp [skip?, hl]
    rw [record_of_found ((o.locate_eq ..).trans hl) hle, after, count]
    cases hk : o.kind <;> simp [hedit, hskip, hk]
  · have hedit : r.edit? o.mark = none := by simp [edit?, hl]
    have hskip : r.skip? o = some ⟨o, reason⟩ := by simp [skip?, hl]
    rw [record_of_mismatch ((o.locate_eq ..).trans hl)]
    simp [after, hedit, hskip]

/-- A pass over occurrences that all settle. -/
theorem recordAll_eq_after {r : Renamer} {os : List Occurrence} (h : ∀ o ∈ os, r.Settles o.mark) :
    r.recordAll os = (r.after os, none) := by
  induction os generalizing r with
  | nil => rw [recordAll, after_nil]
  | cons o os ih =>
    rw [recordAll, record_eq_after (h o List.mem_cons_self)]
    dsimp only
    have hrest : ∀ o' ∈ os, (r.after [o]).Settles o'.mark := by
      intro o' ho'
      exact h o' (List.mem_cons_of_mem o ho')
    rw [ih hrest, after_cons]

/-- What a pass skips is what it does not edit. -/
theorem map_skip? {r : Renamer} {os : List Occurrence} (h : ∀ o ∈ os, r.Settles o.mark) :
    (os.filterMap r.skip?).map (·.occurrence.mark) = (os.map Occurrence.mark).filter fun m => (r.edit? m).isNone := by
  induction os with
  | nil => rfl
  | cons o os ih =>
    have hrest := ih fun o' ho' => h o' (List.mem_cons_of_mem o ho')
    rcases h o List.mem_cons_self with ⟨span, hl, hle⟩ | ⟨reason, hl⟩
    · have hskip : r.skip? o = none := by simp [skip?, hl]
      simp [hskip, edit?_of_locate hl hle, hrest]
    · have hskip : r.skip? o = some ⟨o, reason⟩ := by simp [skip?, hl]
      have hedit : r.edit? o.mark = none := by simp [edit?, hl]
      simp [hskip, hedit, hrest]

/-- The names that a pass binds. -/
theorem mem_bound_after {r : Renamer} {os : List Occurrence} {n : Text} :
    n ∈ (r.after os).bound ↔
      n ∈ r.bound ∨ ∃ o ∈ os, o.kind = .bind ∧ (r.edit? o.mark).isSome = true ∧ o.name = n := by
  have key (done : List Occurrence) (names : List Text) :
      n ∈ done.foldl (fun names o => names.insert o.name) names ↔ n ∈ names ∨ ∃ o ∈ done, o.name = n := by
    induction done generalizing names with
    | nil => simp
    | cons o done ih =>
      rw [List.foldl_cons, ih, List.mem_insert_iff]
      simp only [List.mem_cons, exists_eq_or_imp]
      tauto
  simp only [after, key, List.mem_filter, decide_eq_true_eq]
  refine or_congr_right (exists_congr fun o => ?_)
  tauto

theorem nodup_bound_after {r : Renamer} {os : List Occurrence} (h : r.bound.Nodup) : (r.after os).bound.Nodup := by
  have key (done : List Occurrence) (names : List Text) (h : names.Nodup) :
      (done.foldl (fun names o => names.insert o.name) names).Nodup := by
    induction done generalizing names with
    | nil => exact h
    | cons o done ih => exact ih _ (List.Nodup.insert h)
  exact key _ _ h

end Renamer

end JsonnetLocals
