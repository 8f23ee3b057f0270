/-
  JsonnetLocals.Proofs.Rename.Refile — renaming does not depend on the name of the file.

  The tree of a text under another name is the same tree with another file in its ranges
  (`parse_toFile`). Renaming looks at no file, so only the reports of skipped occurrences carry the other
  name (`renameLocals_toFile`), and what they tell of an occurrence but its file is the same.
-/

import JsonnetLocals.Proofs.Syntax.Relocation

namespace JsonnetLocals

/-- Ranges as they are, in another file. -/
def Relocation.toFile (file : Text) : Relocation := ⟨fun _ => file, id⟩

variable (file : Text)

theorem parse_toFile {name : Text} {source : Bytes} {tree : Node} (h : parse name source = .ok tree) :
    parse file source = .ok (tree.relocate (.toFile file)) := by
  unfold parse at h ⊢
  split at h
  · cases h
  · have hbehind : (Relocation.toFile file).Behind [] := fun _ => rfl
    exact parseFrom_relocate hbehind h .origin

def Occurrence.toFile (o : Occurrence) : Occurrence := { o with range := { o.range with file := file } }

def Skipped.toFile (s : Skipped) : Skipped := { s with occurrence := s.occurrence.toFile file }

def Renamed.toFile (r : Renamed) : Renamed := { r with skipped := r.skipped.map (Skipped.toFile file) }

/-- What a report tells of an occurrence, but its file. -/
def Skipped.told (s : Skipped) : Text × OccurrenceKind × Position × Mismatch :=
  (s.occurrence.name, s.occurrence.kind, s.occurrence.range.start, s.reason)

theorem Skipped.told_toFile (s : Skipped) : (s.toFile file).told = s.told := rfl

theorem Node.bindOccurrences_toFile (tree : Node) :
    (tree.relocate (.toFile file)).bindOccurrences = tree.bindOccurrences.map (Occurrence.toFile file) := by
  have hbinds (n : Node) : (n.relocate (.toFile file)).binds.map Occurrence.ofBind =
      (n.binds.map Occurrence.ofBind).map (Occurrence.toFile file) := by
    cases n with
    | localIn bs e r =>
      simp only [relocate, relocateBinds_eq, binds, List.map_map]
      rfl
    | _ => rfl
  unfold bindOccurrences
  rw [walk_relocate, List.flatMap_map, List.map_flatMap]
  exact List.flatMap_congr fun n _ => hbinds n

theorem Node.references_toFile (tree : Node) :
    (tree.relocate (.toFile file)).references = tree.references.map (Occurrence.toFile file) := by
  have href (n : Node) : (n.relocate (.toFile file)).reference? = n.reference?.map (Occurrence.toFile file) := by
    cases n <;> rfl
  unfold references
  rw [walk_relocate, List.filterMap_map, List.map_filterMap]
  exact List.filterMap_congr fun n _ => href n

namespace Renamer

def toFile (r : Renamer) : Renamer := { r with skipped := r.skipped.map (Skipped.toFile file) }

theorem record_toFile (r : Renamer) (o : Occurrence) :
    (r.toFile file).record (o.toFile file) = (r.record o).map (toFile file) := by
  have hlocate : (o.toFile file).locate r.source r.lineStarts = o.locate r.source r.lineStarts := rfl
  unfold record
  rw [show (r.toFile file).source = r.source from rfl, show (r.toFile file).lineStarts = r.lineStarts from rfl, hlocate]
  cases o.locate r.source r.lineStarts with
  | error e =>
    cases e with
    | unencodable u => rfl
    | mismatch reason =>
      simp only [Except.map, toFile, List.map_append]
      rfl
  | ok span =>
    dsimp only
    rw [show newName (r.toFile file).tag (r.toFile file).separator (o.toFile file).name =
      newName r.tag r.separator o.name from rfl]
    cases Edit.make span.start span.stop (newName r.tag r.separator o.name) with
    | error e => rfl
    | ok edit =>
      unfold count
      rw [show (o.toFile file).kind = o.kind from rfl]
      cases o.kind <;> rfl

theorem recordAll_toFile (r : Renamer) (os : List Occurrence) :
    (r.toFile file).recordAll (os.map (Occurrence.toFile file)) =
      ((r.recordAll os).1.toFile file, (r.recordAll os).2) := by
  induction os generalizing r with
  | nil => rfl
  | cons o os ih =>
    rw [List.map_cons, recordAll, record_toFile, recordAll]
    cases r.record o with
    | error e => rfl
    | ok r' => exact ih r'

theorem result_toFile (r : Renamer) :
    (r.toFile file).result = r.result.map (Renamed.toFile file) := by
  unfold result apply toFile
  cases Edit.applyAll r.source r.edits <;> rfl

theorem run_toFile (r : Renamer) (tree : Node) :
    (r.toFile file).run (tree.relocate (.toFile file)) =
      ((r.run tree).1.toFile file, (r.run tree).2.map (Renamed.toFile file)) := by
  have hfilter (r : Renamer) : (tree.references.map (Occurrence.toFile file)).filter (fun o => r.bound.contains o.name) =
      (tree.references.filter fun o => r.bound.contains o.name).map (Occurrence.toFile file) := by
    rw [List.filter_map]
    rfl
  unfold run collectBinds
  rw [Node.bindOccurrences_toFile, recordAll_toFile]
  cases h : r.recordAll tree.bindOccurrences with
  | mk r₁ e₁ =>
    cases e₁ with
    | some e => rfl
    | none =>
      dsimp only
      unfold collectReferences
      rw [Node.references_toFile, show (r₁.toFile file).bound = r₁.bound from rfl, hfilter, recordAll_toFile]
      cases r₁.recordAll (tree.references.filter fun o => r₁.bound.contains o.name) with
      | mk r₂ e₂ =>
        cases e₂ with
        | some e => rfl
        | none =>
          dsimp only
          rw [result_toFile]

end Renamer

/-- Renaming the tree of a text under another name changes the file of the reports alone. -/
theorem renameLocals_toFile (tree : Node) (source : Bytes) (identity separator : Text) :
    renameLocals (tree.relocate (.toFile file)) source identity separator =
      ((renameLocals tree source identity separator).1.map (Skipped.toFile file),
        (renameLocals tree source identity separator).2.map (Renamed.toFile file)) := by
  unfold renameLocals
  cases h : Renamer.start source identity separator with
  | error u => rfl
  | ok r =>
    have hr : r.toFile file = r := by
      unfold Renamer.start at h
      cases hf : fileTag identity with
      | error u => rw [hf] at h; cases h
      | ok tag =>
        rw [hf] at h
        obtain rfl := Except.ok.inj h
        rfl
    have hrun := r.run_toFile file tree
    rw [hr] at hrun
    dsimp only
    rw [hrun]
    rfl

end JsonnetLocals
