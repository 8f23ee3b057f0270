/-
  JsonnetLocals.Proofs.Rename.History — a renamer through any history of requests.

  The passes may come in any order, more than once and over different trees, whose places may be any
  integers, and a pass may fail in the middle. `Renamer.queued` keeps account of what such a history
  queues: each edit with the occurrence that it is for.
  - Recording one occurrence keeps the state in step with that account (`Renamer.InStep.record`), so a
    pass does too, wherever it ends (`Renamer.InStep.recordAll`), and so does any history
    (`Renamer.InStep.serveAll`). The second pass looks only for bound names, which is why the name of
    every edit is bound, also when the passes come in the wrong order.
  - Nothing that was queued or skipped is taken back (`Renamer.Extends`).
  - `history_in_step` puts both together for a renamer that starts fresh. Its edits may still overlap:
    two references passes in a row queue every edit twice (`history_in_step_failing`).
-/

import JsonnetLocals.Proofs.Rename.Places

namespace JsonnetLocals

inductive Request where
  | binds (tree : Node)
  | references (tree : Node)
  | apply
  | result

namespace Renamer

def failure {α : Type} : Except EditError α → Option EditError
  | .ok _ => none
  | .error e => some e

/-- The renamer after a request, and why the request failed if it did. -/
def serve (r : Renamer) : Request → Renamer × Option EditError
  | .binds tree => r.collectBinds tree
  | .references tree => r.collectReferences tree
  | .apply => (r, failure r.apply)
  | .result => (r, failure r.result)

def serveAll (r : Renamer) (qs : List Request) : Renamer := qs.foldl (fun r q => (r.serve q).1) r

/-! ## The account -/

/-- An edit with the occurrence that it is for. -/
abbrev Queued := Occurrence × Edit

def queuedOne (r : Renamer) (o : Occurrence) : List Queued := ((r.edit? o.mark).map fun e => (o, e)).toList

def queuedBy (r : Renamer) : List Occurrence → List Queued
  | [] => []
  | o :: rest =>
    match r.record o with
    | .error _ => []
    | .ok r' => r.queuedOne o ++ r'.queuedBy rest

def queuedFor (r : Renamer) : Request → List Queued
  | .binds tree => r.queuedBy tree.bindOccurrences
  | .references tree => r.queuedBy (tree.references.filter fun o => r.bound.contains o.name)
  | .apply | .result => []

def queued (r : Renamer) : List Request → List Queued
  | [] => []
  | q :: qs => r.queuedFor q ++ (r.serve q).1.queued qs

/-! ## One occurrence -/

/-- What is verified holds the expected text. -/
theorem Span.encode_of_verify {source : Bytes} {span span' : Span} {expected : Text}
    (h : Span.verify source span expected = .ok span') :
    span' = span ∧ expected.encode = .ok (slice source span.start span.stop) := by
  unfold Span.verify at h
  cases hb : expected.encode with
  | error u =>
    rw [hb] at h
    cases h
  | ok bytes =>
    rw [hb] at h
    dsimp only at h
    by_cases hfound : slice source span.start span.stop = bytes
    · rw [if_pos hfound] at h
      obtain rfl := Except.ok.inj h
      exact ⟨rfl, by rw [hfound]⟩
    · rw [if_neg hfound] at h
      cases h

section Steps

variable {initial r r' : Renamer} {o : Occurrence} {os : List Occurrence} {log : List Queued}

/-- The span of an edit holds the name that the edit renames. -/
theorem edit?_eq_some {m : Mark} {e : Edit} (h : r.edit? m = some e) :
    e.text = newName r.tag r.separator m.name ∧ m.name.encode = .ok (slice r.source e.start e.stop) := by
  unfold edit? at h
  cases hl : m.locate r.source r.lineStarts with
  | error x =>
    rw [hl] at h
    cases h
  | ok span =>
    have hname : m.name.encode = .ok (slice r.source span.start span.stop) := by
      unfold Mark.locate at hl
      split at hl
      · obtain ⟨rfl, hname⟩ := Span.encode_of_verify hl
        exact hname
      · cases hl
    rw [hl] at h
    dsimp only [Edit.make] at h
    split at h
    · obtain rfl := Option.some.inj h
      exact ⟨rfl, hname⟩
    · cases h

/-- An occurrence that is recorded is edited and counted, or skipped. -/
theorem record_cases (h : r.record o = .ok r') :
    (∃ e, r.edit? o.mark = some e ∧ r' = { r with edits := r.edits ++ [e] }.count o) ∨
      (∃ s, r.edit? o.mark = none ∧ r' = { r with skipped := r.skipped ++ [s] }) := by
  cases hl : o.locate r.source r.lineStarts with
  | ok span =>
    have hmark : o.mark.locate r.source r.lineStarts = .ok span := hl
    by_cases hle : span.start ≤ span.stop
    · rw [record_of_found hl hle] at h
      exact .inl ⟨_, edit?_of_locate hmark hle, (Except.ok.inj h).symm⟩
    · simp only [record, hl, Edit.make, dif_neg hle] at h
      cases h
  | error x =>
    have hedit : r.edit? o.mark = none := by
      have hmark : o.mark.locate r.source r.lineStarts = .error x := hl
      rw [edit?, hmark]
    cases x with
    | unencodable u =>
      rw [record_of_unencodable hl] at h
      cases h
    | mismatch reason =>
      rw [record_of_mismatch hl] at h
      exact .inr ⟨_, hedit, (Except.ok.inj h).symm⟩

/-! ## Nothing is taken back -/

/-- What was queued, skipped and bound before is there, in the same places. -/
structure Extends (r r' : Renamer) : Prop where
  edits : r.edits <+: r'.edits
  skipped : r.skipped <+: r'.skipped
  bound : r.bound ⊆ r'.bound

namespace Extends

protected theorem refl (r : Renamer) : r.Extends r := ⟨List.prefix_refl _, List.prefix_refl _, List.Subset.refl _⟩

protected theorem trans {r'' : Renamer} (h : r.Extends r') (h' : r'.Extends r'') : r.Extends r'' :=
  ⟨h.edits.trans h'.edits, h.skipped.trans h'.skipped, List.Subset.trans h.bound h'.bound⟩

protected theorem count (r : Renamer) (o : Occurrence) : r.Extends (r.count o) := by
  unfold Renamer.count
  cases o.kind with
  | bind => exact ⟨List.prefix_refl _, List.prefix_refl _, fun _ hn => List.mem_insert_of_mem hn⟩
  | reference => exact ⟨List.prefix_refl _, List.prefix_refl _, List.Subset.refl _⟩

protected theorem record (h : r.record o = .ok r') : r.Extends r' := by
  rcases record_cases h with ⟨e, -, rfl⟩ | ⟨s, -, rfl⟩
  · have hqueue : r.Extends { r with edits := r.edits ++ [e] } :=
      ⟨List.prefix_append _ _, List.prefix_refl _, List.Subset.refl _⟩
    exact hqueue.trans (Extends.count _ o)
  · exact ⟨List.prefix_refl _, List.prefix_append _ _, List.Subset.refl _⟩

protected theorem recordAll (r : Renamer) (os : List Occurrence) : r.Extends (r.recordAll os).1 := by
  induction os generalizing r with
  | nil => exact Extends.refl r
  | cons o os ih =>
    rw [Renamer.recordAll]
    cases hr : r.record o with
    | error e => exact Extends.refl r
    | ok r' => exact (Extends.record hr).trans (ih r')

protected theorem serve (r : Renamer) (q : Request) : r.Extends (r.serve q).1 := by
  cases q with
  | binds tree => exact Extends.recordAll r _
  | references tree => exact Extends.recordAll r _
  | apply => exact Extends.refl r
  | result => exact Extends.refl r

protected theorem serveAll (r : Renamer) (qs : List Request) : r.Extends (r.serveAll qs) := by
  induction qs generalizing r with
  | nil => exact Extends.refl r
  | cons q qs ih => exact (Extends.serve r q).trans (ih (r.serve q).1)

end Extends

/-! ## The account is kept -/

/-- The renamer is what the account says: its edits are those of the account in their order, it counts them by their kind, and
    its bound names are those of the binds. Each edit puts the new name of a bound name where that name stands. -/
structure InStep (initial r : Renamer) (log : List Queued) : Prop where
  source : r.source = initial.source
  lineStarts : r.lineStarts = initial.lineStarts
  tag : r.tag = initial.tag
  separator : r.separator = initial.separator
  edits : r.edits = log.map Prod.snd
  bindCount : r.bindCount = log.countP (·.1.kind = .bind)
  referenceCount : r.referenceCount = log.countP (·.1.kind = .reference)
  bound : ∀ n, n ∈ r.bound ↔ ∃ x ∈ log, x.1.kind = .bind ∧ x.1.name = n
  nodup : r.bound.Nodup
  writes : ∀ x ∈ log, x.1.name ∈ r.bound ∧ x.2.text = newName initial.tag initial.separator x.1.name ∧
    x.1.name.encode = .ok (slice initial.source x.2.start x.2.stop)

namespace InStep

theorem fresh (source : Bytes) (tag : String) (separator : Text) :
    InStep (Renamer.initial source tag separator) (Renamer.initial source tag separator) [] where
  source := rfl
  lineStarts := rfl
  tag := rfl
  separator := rfl
  edits := rfl
  bindCount := rfl
  referenceCount := rfl
  bound := by simp [Renamer.initial]
  nodup := List.nodup_nil
  writes := List.forall_mem_nil _

/-- A bind brings its own name; a reference must be one to a bound name. -/
theorem queue (h : InStep initial r log) {e : Edit} (hbound : o.kind = .reference → o.name ∈ r.bound)
    (htext : e.text = newName r.tag r.separator o.name) (hname : o.name.encode = .ok (slice r.source e.start e.stop)) :
    InStep initial ({ r with edits := r.edits ++ [e] }.count o) (log ++ [(o, e)]) := by
  have hwrites : ∀ bound : List Text, r.bound ⊆ bound → o.name ∈ bound → ∀ x ∈ log ++ [(o, e)],
      x.1.name ∈ bound ∧ x.2.text = newName initial.tag initial.separator x.1.name ∧
        x.1.name.encode = .ok (slice initial.source x.2.start x.2.stop) := by
    intro bound hsub hmem x hx
    rcases List.mem_append.mp hx with hx | hx
    · exact ⟨hsub (h.writes x hx).1, (h.writes x hx).2⟩
    · obtain rfl := List.mem_singleton.mp hx
      rw [h.tag, h.separator] at htext
      rw [h.source] at hname
      exact ⟨hmem, htext, hname⟩
  have hedits : r.edits ++ [e] = (log ++ [(o, e)]).map Prod.snd := by
    rw [h.edits, List.map_append]
    rfl
  unfold Renamer.count
  cases hk : o.kind with
  | bind =>
    refine ⟨h.source, h.lineStarts, h.tag, h.separator, hedits, ?_, ?_, ?_, List.Nodup.insert h.nodup, ?_⟩
    · simp [h.bindCount, hk]
    · simp [h.referenceCount, hk]
    · intro n
      rw [List.mem_insert_iff, h.bound]
      simp [hk, or_and_right, exists_or, or_comm, eq_comm]
    · exact hwrites _ (fun _ hn => List.mem_insert_of_mem hn) List.mem_insert_self
  | reference =>
    refine ⟨h.source, h.lineStarts, h.tag, h.separator, hedits, ?_, ?_, ?_, h.nodup, ?_⟩
    · simp [h.bindCount, hk]
    · simp [h.referenceCount, hk]
    · intro n
      rw [h.bound]
      simp [hk, or_and_right, exists_or]
    · exact hwrites _ (List.Subset.refl _) (hbound hk)

theorem skip (h : InStep initial r log) (s : Skipped) : InStep initial { r with skipped := r.skipped ++ [s] } log :=
  ⟨h.source, h.lineStarts, h.tag, h.separator, h.edits, h.bindCount, h.referenceCount, h.bound, h.nodup, h.writes⟩

theorem record (h : InStep initial r log) (hr : r.record o = .ok r') (hbound : o.kind = .reference → o.name ∈ r.bound) :
    InStep initial r' (log ++ r.queuedOne o) := by
  rcases record_cases hr with ⟨e, hedit, rfl⟩ | ⟨s, hedit, rfl⟩
  · obtain ⟨htext, hname⟩ := edit?_eq_some hedit
    rw [queuedOne, hedit]
    exact h.queue hbound htext hname
  · rw [queuedOne, hedit]
    simpa using h.skip s

/-- Wherever a pass ends. -/
theorem recordAll (h : InStep initial r log) (hbound : ∀ o ∈ os, o.kind = .reference → o.name ∈ r.bound) :
    InStep initial (r.recordAll os).1 (log ++ r.queuedBy os) := by
  induction os generalizing r log with
  | nil => simpa [Renamer.recordAll, queuedBy] using h
  | cons o os ih =>
    rw [List.forall_mem_cons] at hbound
    rw [Renamer.recordAll, queuedBy]
    cases hr : r.record o with
    | error e => simpa using h
    | ok r' =>
      have hbound' : ∀ o ∈ os, o.kind = .reference → o.name ∈ r'.bound :=
        fun o' ho' hk => (Extends.record hr).bound (hbound.2 o' ho' hk)
      rw [← List.append_assoc]
      exact ih (h.record hr hbound.1) hbound'

theorem serve (h : InStep initial r log) (q : Request) : InStep initial (r.serve q).1 (log ++ r.queuedFor q) := by
  cases q with
  | binds tree =>
    refine h.recordAll ?_
    intro o ho hk
    rw [kind_of_mem_bindOccurrences ho] at hk
    cases hk
  | references tree =>
    refine h.recordAll ?_
    intro o ho _
    exact List.contains_iff_mem.mp (List.mem_filter.mp ho).2
  | apply => simpa [queuedFor, Renamer.serve] using h
  | result => simpa [queuedFor, Renamer.serve] using h

theorem serveAll (h : InStep initial r log) (qs : List Request) : InStep initial (r.serveAll qs) (log ++ r.queued qs) := by
  induction qs generalizing r log with
  | nil => simpa [Renamer.serveAll, queued] using h
  | cons q qs ih =>
    rw [queued, ← List.append_assoc]
    exact ih (h.serve q)

theorem length_edits (h : InStep initial r log) : r.edits.length = r.bindCount + r.referenceCount := by
  rw [h.edits, h.bindCount, h.referenceCount, List.length_map, List.length_eq_countP_add_countP (fun x => x.1.kind = .bind)]
  refine congrArg _ (List.countP_congr ?_)
  intro x _
  cases x.1.kind <;> simp

end InStep

end Steps

theorem fileTag_of_start {source : Bytes} {identity separator : Text} {r : Renamer}
    (h : Renamer.start source identity separator = .ok r) : fileTag identity = .ok r.tag := by
  unfold Renamer.start at h
  cases ht : fileTag identity with
  | error u =>
    rw [ht] at h
    cases h
  | ok tag =>
    rw [ht] at h
    obtain rfl := Except.ok.inj h
    rfl

end Renamer

/-- After any history of requests: the source, its lines, the tag and the separator are the first ones; whatever is asked next,
    edits and skipped occurrences are only added. The edits are those of the account and as many as were counted, the bound
    names are those whose bind was queued, and every edit puts the new name of a bound name where that name stands. Applying
    and answering leave the renamer as it is. -/
theorem history_in_step {source : Bytes} {identity separator : Text} {initial : Renamer}
    (hstart : Renamer.start source identity separator = .ok initial) (qs : List Request) :
    let r := initial.serveAll qs
    let log := initial.queued qs
    (r.source = source ∧ r.lineStarts = LineIndex.build source ∧ fileTag identity = .ok r.tag ∧ r.separator = separator) ∧
    (∀ later, r.edits <+: (r.serveAll later).edits ∧ r.skipped <+: (r.serveAll later).skipped) ∧
    r.edits = log.map Prod.snd ∧
    r.edits.length = r.bindCount + r.referenceCount ∧
    (r.bound.Nodup ∧ ∀ n, n ∈ r.bound ↔ ∃ o e, (o, e) ∈ log ∧ o.kind = .bind ∧ o.name = n) ∧
    (∀ e ∈ r.edits, ∃ n ∈ r.bound, e.text = newName r.tag separator n ∧ n.encode = .ok (slice source e.start e.stop)) ∧
    (r.serve .apply).1 = r ∧ (r.serve .result).1 = r := by
  intro r log
  obtain ⟨tag, rfl⟩ := Renamer.exists_initial hstart
  have htag : fileTag identity = .ok tag := Renamer.fileTag_of_start hstart
  have h : Renamer.InStep _ r log := (Renamer.InStep.fresh source tag separator).serveAll qs
  refine ⟨⟨h.source, h.lineStarts, by rw [h.tag]; exact htag, h.separator⟩, ?_, h.edits, h.length_edits, ⟨h.nodup, ?_⟩, ?_,
    rfl, rfl⟩
  · intro later
    have hext := Renamer.Extends.serveAll r later
    exact ⟨hext.edits, hext.skipped⟩
  · intro n
    rw [h.bound, Prod.exists]
  · intro e he
    rw [h.edits] at he
    obtain ⟨x, hx, rfl⟩ := List.mem_map.mp he
    obtain ⟨hbound, htext, hname⟩ := h.writes x hx
    refine ⟨x.1.name, hbound, ?_, hname⟩
    rw [htext, h.tag]
    rfl

def unspeakableBind : Node :=
  .localIn
    [⟨"x", .null .unset, none, ⟨"", ⟨1, 7⟩, ⟨1, 10⟩⟩⟩, ⟨⟨[0xd800]⟩, .null .unset, none, ⟨"", ⟨1, 7⟩, ⟨1, 10⟩⟩⟩]
    (.var "x" ⟨"", ⟨1, 11⟩, ⟨1, 12⟩⟩) .unset

/-- The second pass comes first, the first pass fails at its second bind, and the second pass comes twice more. -/
theorem history_in_step_failing :
    let source := Utf8.encode "local x=1;x"
    ∃ initial, Renamer.start source "a" "_" = .ok initial ∧
      let r := initial.serveAll [.references unspeakableBind, .binds unspeakableBind, .references unspeakableBind,
        .references unspeakableBind, .apply]
      (initial.serve (.binds unspeakableBind)).2.isSome = true ∧
      r.edits.map (fun e => (e.start, e.stop)) = [(6, 7), (10, 11), (10, 11)] ∧
      r.bindCount = 1 ∧ r.edits.length = r.bindCount + r.referenceCount ∧
      ∀ e ∈ r.edits, ∃ n ∈ r.bound, e.text = newName r.tag "_" n ∧ n.encode = .ok (slice source e.start e.stop) := by
  intro source
  have hstart : Renamer.start source "a" "_" = .ok (Renamer.initial source "_e40c292c" "_") :=
    Renamer.start_eq (by decide +kernel)
  obtain ⟨-, -, -, hlength, -, hwrites, -⟩ := history_in_step hstart [.references unspeakableBind, .binds unspeakableBind,
    .references unspeakableBind, .references unspeakableBind, .apply]
  exact ⟨_, hstart, by decide +kernel, by decide +kernel, by decide +kernel, hlength, hwrites⟩

end JsonnetLocals
