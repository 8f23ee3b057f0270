/-
  JsonnetLocals.Proofs.Syntax.Occurrences — the names of a tree and the words of its text.

  The binds and the variables of a tree that is read from a text are the words that play these
  parts in the text, each exactly once (`Derives.marks_perm`, by induction over the derivation).
  They agree in what renaming looks at, the mark of an occurrence; the range of a bind itself goes
  on to the end of its value.
-/

import JsonnetLocals.Proofs.Syntax.Sound
import Mathlib.Data.List.Basic

namespace JsonnetLocals

/-- What renaming looks at of an occurrence. -/
structure Mark where
  kind : OccurrenceKind
  name : Text
  start : Position
  stop : Position
  deriving DecidableEq

def Occurrence.mark (o : Occurrence) : Mark := ⟨o.kind, o.name, o.range.start, o.stop⟩

def Word.mark (k : OccurrenceKind) (w : Word) : Mark := Occurrence.mark ⟨k, w.spelling, w.range⟩

def Word.mark? (w : Word) : Option Mark := w.role.map fun k => w.mark k

@[simp] theorem Occurrence.name_mark (o : Occurrence) : o.mark.name = o.name := rfl
@[simp] theorem Word.name_mark (k : OccurrenceKind) (w : Word) : (w.mark k).name = w.spelling := rfl
@[simp] theorem Word.kind_mark (k : OccurrenceKind) (w : Word) : (w.mark k).kind = k := rfl

def marks (ts : List Word) : List Mark := ts.filterMap Word.mark?

@[simp] theorem marks_nil : marks [] = [] := rfl

theorem marks_append (ts us : List Word) : marks (ts ++ us) = marks ts ++ marks us := List.filterMap_append

theorem marks_cons (w : Word) (ts : List Word) : marks (w :: ts) = w.mark?.toList ++ marks ts := by
  cases h : w.mark? <;> simp [marks, h]

theorem Word.Is.mark? {w : Word} {s : Symbol} (h : w.Is s) : w.mark? = none := by simp [Word.mark?, h.2]

theorem Word.IsName.mark? {w : Word} {role : Option OccurrenceKind} (h : w.IsName role) :
    w.mark? = role.map fun k => w.mark k := by
  rw [Word.mark?, h.2]

namespace Node

def ownMarks (n : Node) : List Mark := 
  n.binds.map (fun b => (Occurrence.ofBind b).mark) ++ n.reference?.toList.map Occurrence.mark

def marks (n : Node) : List Mark := n.walk.flatMap ownMarks

theorem marks_eq (n : Node) : n.marks = n.ownMarks ++ n.children.flatMap marks := by
  rw [marks, walk_eq, List.flatMap_cons, List.flatMap_assoc]
  rfl

end Node

mutual

def Phrase.marks : Phrase → List Mark
  | .expr _ e | .string e | .call e | .object e | .member e | .fieldName _ _ e | .spec e => e.marks
  | .opt e => e.toList.flatMap Node.marks
  | .bind b => (Occurrence.ofBind b).mark :: b.child.marks
  | .param p => p.value.toList.flatMap Node.marks
  | .params ps => ps.flatMap fun p => p.value.toList.flatMap Node.marks
  | .arg (.positional e) => e.marks
  | .arg (.named a) => a.value.marks
  | .specs ss => ss.flatMap Node.marks
  | .seq ps | .items ps => Phrase.allMarks ps

def Phrase.allMarks : List Phrase → List Mark
  | [] => []
  | p :: ps => p.marks ++ Phrase.allMarks ps

end

theorem Phrase.allMarks_eq (ps : List Phrase) : Phrase.allMarks ps = ps.flatMap Phrase.marks := by
  induction ps with
  | nil => rfl
  | cons p ps ih => rw [Phrase.allMarks, ih, List.flatMap_cons]

theorem Phrase.allMarks_map {α : Type} (f : α → Phrase) (xs : List α) :
    Phrase.allMarks (xs.map f) = xs.flatMap fun x => (f x).marks := by
  rw [Phrase.allMarks_eq, List.flatMap_map]

theorem Phrase.allMarks_arguments (ps : List Node) (ns : List (NamedArg Node)) :
    Phrase.allMarks ((ps.map Argument.positional ++ ns.map Argument.named).map Phrase.arg) =
      ps.flatMap Node.marks ++ ns.flatMap fun a => a.value.marks := by
  rw [Phrase.allMarks_map, List.flatMap_append, List.flatMap_map, List.flatMap_map]
  rfl

theorem count_flatMap_cons {α : Type} (x : Mark) (f : α → Mark) (g : α → List Mark) (as : List α) :
    (as.flatMap fun a => f a :: g a).count x = (as.map f).count x + (as.flatMap g).count x := by
  induction as with
  | nil => rfl
  | cons a as ih =>
    simp only [List.flatMap_cons, List.map_cons, List.count_append, List.count_cons, List.cons_append, ih]
    omega

theorem flatMap_toList {α β γ : Type} (f : α → Option β) (g : β → List γ) (as : List α) :
    (as.flatMap fun a => (f a).toList.flatMap g) = (as.filterMap f).flatMap g := by
  rw [List.filterMap_eq_flatMap_toList, List.flatMap_assoc]

theorem Node.marks_function (ps : List (Param Node)) (e : Node) (r : Range) :
    (Node.function ps e r).marks = ps.flatMap (fun p => p.value.toList.flatMap Node.marks) ++ e.marks := by
  rw [Node.marks_eq, flatMap_toList]
  simp [Node.ownMarks, Node.children, Node.binds, Node.reference?]

theorem mark_ofBind (w : Word) (e : Node) (f : Option Node) (r : Range) :
    (Occurrence.ofBind ⟨w.spelling, e, f, w.range.upTo r⟩).mark = w.mark .bind := rfl

/-- Every part that a name plays in a phrase is played once by a word of it. -/
theorem Derives.count_marks {p : Phrase} {ts : List Word} (h : Derives p ts) (x : Mark) :
    p.marks.count x = (marks ts).count x := by
  induction h with
  | looser _ _ ih | apply _ ih | string _ ih | objectExpr _ ih | stringName _ ih | items _ ih => exact ih
  | positional _ ih => exact ih
  | present _ ih => simpa [Phrase.marks] using ih
  | one _ ih => simpa [Phrase.marks, Phrase.allMarks] using ih
  | firstSpec _ ih => simpa [Phrase.marks] using ih
  | noItems | absent => rfl
  | itemsComma _ hw ih => simpa [Phrase.marks, marks_append, marks_cons, hw.mark?] using ih
  | more _ hw _ ihs ih =>
    simpa [Phrase.marks, Phrase.allMarks_eq, marks_append, marks_cons, hw.mark?, ih] using ihs
  | nextSpec _ _ ihs ih => simp_all [Phrase.marks, marks_append]
  | params hw _ hv ih =>
    simpa [Phrase.marks, Phrase.allMarks_map, marks_append, marks_cons, hw.mark?, hv.mark?] using ih
  | valueBind hw hv _ ih =>
    simp only [Phrase.marks, Bind.child, Option.getD_none, mark_ofBind] at ih ⊢
    simp [marks_cons, hw.mark?, hv.mark?, List.count_cons, ih]
  | functionBind hw _ hv _ ihp ih =>
    simp only [Phrase.marks, Bind.child, Option.getD_some, mark_ofBind, Node.marks_function] at ihp ih ⊢
    simp [marks_append, marks_cons, hw.mark?, hv.mark?, List.count_cons, ihp, ih]
  | localIn hw _ hv _ ihb ih =>
    rw [Phrase.marks, Node.marks_eq]
    simp only [Phrase.marks, Phrase.allMarks_map, count_flatMap_cons] at ihb ih
    simp [Node.ownMarks, Node.children, Node.binds, Node.reference?, marks_append, marks_cons, hw.mark?, hv.mark?,
      List.flatMap_map, ← ihb, ← ih]
    omega
  | function hw _ _ ihp ih =>
    simp only [Phrase.marks, Node.marks_function] at ihp ih ⊢
    simp [marks_append, marks_cons, hw.mark?, ihp, ih]
  | method _ _ _ hv _ ihn ihp ih =>
    rw [Phrase.marks, Node.marks_eq]
    simp only [Phrase.marks] at ihn ihp ih
    simp [Node.ownMarks, Node.children, Node.binds, Node.reference?, Node.marks_function, marks_append, marks_cons,
      hv.mark?, ihn, ihp, ih]
  | call _ hw _ hv ihe ih =>
    rw [Phrase.marks, Node.marks_eq]
    simp only [Phrase.marks] at ihe
    rw [Phrase.marks, Phrase.allMarks_arguments] at ih
    simp [Node.ownMarks, Node.children, Node.binds, Node.reference?, marks_append, marks_cons, hw.mark?, hv.mark?, ihe,
      ← ih, List.flatMap_map]
  | tailstrict _ hw ih =>
    simp only [Phrase.marks] at ih ⊢
    rw [Node.marks_eq] at ih ⊢
    simpa [Node.ownMarks, Node.children, Node.binds, Node.reference?, marks_append, marks_cons, hw.mark?] using ih
  | named hw hv _ ih => simpa [Phrase.marks, marks_cons, hw.mark?, hv.mark?] using ih
  | computedName hw _ hv ih => simpa [Phrase.marks, marks_append, marks_cons, hw.mark?, hv.mark?] using ih
  | arrayComp hw _ _ hv ih ihs =>
    rw [Phrase.marks, Node.marks_eq]
    simp only [Phrase.marks, Phrase.allMarks, List.append_nil] at ih ihs
    simp [Node.ownMarks, Node.children, Node.binds, Node.reference?, marks_append, marks_cons, hw.mark?, hv.mark?, ih,
      ihs, Nat.add_comm]
  | objectComp hw _ _ hv _ _ _ ih ihs =>
    rw [Phrase.marks, Node.marks_eq]
    simp only [Phrase.marks, Phrase.allMarks_map] at ih ihs
    simp [Node.ownMarks, Node.children, Node.binds, Node.reference?, marks_append, marks_cons, hw.mark?, hv.mark?, ih,
      ihs, Nat.add_comm]
  | objectLocal hw _ ih =>
    rw [Phrase.marks, Node.marks_eq]
    simp only [Phrase.marks] at ih
    simp [Node.ownMarks, Node.children, Node.binds, Node.reference?, marks_cons, hw.mark?, ← ih]
  | var hw =>
    rw [Phrase.marks, Node.marks_eq]
    simp [Node.ownMarks, Node.children, Node.binds, Node.reference?, marks_cons, hw.mark?, Word.mark]
  | param hw => simp [Phrase.marks, marks_cons, hw.mark?]
  | paramValue hw hv _ ih => simpa [Phrase.marks, marks_cons, hw.mark?, hv.mark?] using ih
  | _ =>
    -- the words of the parts and symbols between them
    rw [Phrase.marks, Node.marks_eq]
    simp_all [Phrase.marks, Phrase.allMarks_map, Node.ownMarks, Node.children, Node.binds, Node.reference?, marks_append,
      marks_cons, Word.mark?, Word.Is, Word.IsName, ← Nat.add_assoc]

/-- The marks of a tree are those of its words. -/
theorem Derives.marks_perm {l : Nat} {e : Node} {ts : List Word} (h : Derives (.expr l e) ts) : e.marks.Perm (marks ts) :=
  List.perm_iff_count.mpr h.count_marks

/-! ## Binds and variables -/

def marksOf (k : OccurrenceKind) (ws : List Word) : List Mark :=
  (ws.filter fun w => w.role = some k).map (Word.mark k)

theorem filter_marks (k : OccurrenceKind) (ws : List Word) : (marks ws).filter (·.kind = k) = marksOf k ws := by
  induction ws with
  | nil => rfl
  | cons w ws ih =>
    rw [marks_cons, List.filter_append, ih]
    cases hr : w.role with
    | none => simp [marksOf, Word.mark?, hr]
    | some k' =>
      by_cases hk : k' = k
      · subst hk
        simp [marksOf, Word.mark?, hr]
      · simp [marksOf, Word.mark?, hr, hk]

theorem Node.filter_ownMarks_bind (n : Node) :
    n.ownMarks.filter (·.kind = .bind) = (n.binds.map Occurrence.ofBind).map Occurrence.mark := by
  cases n <;> simp [ownMarks, binds, reference?, Occurrence.mark, Occurrence.ofBind, List.filter_map, Function.comp_def,
    List.filter_true]

theorem Node.filter_ownMarks_reference (n : Node) :
    n.ownMarks.filter (·.kind = .reference) = n.reference?.toList.map Occurrence.mark := by
  cases n <;> simp [ownMarks, binds, reference?, Occurrence.mark, Occurrence.ofBind, List.filter_map, Function.comp_def]

/-- The binds of a tree are the words that name a bind, each once. -/
theorem Derives.bindOccurrences_perm {l : Nat} {e : Node} {ts : List Word} (h : Derives (.expr l e) ts) :
    (e.bindOccurrences.map Occurrence.mark).Perm (marksOf .bind ts) := by
  have hf := h.marks_perm.filter (·.kind = .bind)
  rw [filter_marks, Node.marks, List.filter_flatMap] at hf
  simpa [Node.filter_ownMarks_bind, Node.bindOccurrences, List.map_flatMap] using hf

/-- The variables of a tree are the words that are references, each once. -/
theorem Derives.references_perm {l : Nat} {e : Node} {ts : List Word} (h : Derives (.expr l e) ts) :
    (e.references.map Occurrence.mark).Perm (marksOf .reference ts) := by
  have hf := h.marks_perm.filter (·.kind = .reference)
  rw [filter_marks, Node.marks, List.filter_flatMap] at hf
  simpa [Node.filter_ownMarks_reference, Node.references, List.filterMap_eq_flatMap_toList, List.map_flatMap] using hf

/-- Layout and comments play no part. -/
theorem marksOf_significant {k : OccurrenceKind} {ws : List Word} (h : ∀ w ∈ ws, w.role ≠ none → w.isIgnored = false) :
    marksOf k (significant ws) = marksOf k ws := by
  rw [marksOf, marksOf, significant, List.filter_filter]
  congr 1
  refine List.filter_congr ?_
  intro w hw
  cases hr : w.role with
  | none => rfl
  | some k' => simp [h w hw (by simp [hr])]

end JsonnetLocals
