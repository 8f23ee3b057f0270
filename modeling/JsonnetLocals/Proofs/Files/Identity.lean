/-
  JsonnetLocals.Proofs.Files.Identity — what a file below a root is called, and where its output goes.

  A file that lies below the root is called by the names from the root down to it
  (`Path.LiesBelow.fileIdentity_eq`), and its output goes to these names below the output directory
  (`Path.LiesBelow.outputPath_eq`). The names are read back from their text (`Path.text_injective`), so
  both tell apart exactly the files that lie at different places, however their paths are spelled.
-/

import JsonnetLocals.Output.Writer
import JsonnetLocals.Proofs.Files.Place
import JsonnetLocals.Rename.Naming

namespace JsonnetLocals

namespace Path

/-- The names `way` lead from the place of `root` down to the place of `p`. -/
def LiesBelow (cwd : Loc) (root p : Path) (way : List Text) : Prop :=
  ∃ top, root.resolve cwd = .ok (ofLoc top) ∧ p.resolve cwd = .ok (ofLoc (top ++ way))

/-- Paths are told apart by their texts. -/
theorem text_injective {p q : Path} (hp : p.Proper) (hq : q.Proper) (h : p.text = q.text) : p = q := by
  rw [← ofText_text hp, ← ofText_text hq, h]

namespace LiesBelow

variable {cwd : Loc} {root p q : Path} {way way' : List Text}

theorem below_eq (h : LiesBelow cwd root p way) : p.below cwd root = .ok ⟨.relative, way⟩ := by
  obtain ⟨top, hroot, hp⟩ := h
  have hpre : top.isPrefixOf (top ++ way) = true := List.isPrefixOf_iff_prefix.mpr (List.prefix_append top way)
  rw [below, hroot, hp]
  show (ofLoc (top ++ way)).relativeTo (ofLoc top) = _
  rw [relativeTo, if_pos ⟨rfl, hpre⟩]
  simp only [ofLoc, List.drop_left]

theorem fileIdentity_eq (h : LiesBelow cwd root p way) : fileIdentity cwd p (some root) = (Path.mk .relative way).text := by
  rw [fileIdentity, h.below_eq]

theorem outputPath_eq (h : LiesBelow cwd root p way) (w : Writer) :
    (w.outputPath cwd p (some root)).1 = { w.dir with parts := w.dir.parts ++ way } := by
  rw [Writer.outputPath, h.below_eq]
  rfl

theorem proper (h : LiesBelow cwd root p way) (hcwd : ∀ t ∈ cwd, t.IsPart) (hp : p.Proper) :
    (Path.mk .relative way).Proper := by
  obtain ⟨top, -, hplace⟩ := h
  intro t ht
  rcases (mem_of_resolve hplace).2 t (List.mem_append_right top ht) with hmem | ⟨hmem, -⟩
  · exact hcwd t hmem
  · exact hp t hmem

/-- Below one root, the names from the root down tell the places apart. -/
theorem resolve_eq_iff (hp : LiesBelow cwd root p way) (hq : LiesBelow cwd root q way') :
    p.resolve cwd = q.resolve cwd ↔ way = way' := by
  obtain ⟨top, hroot, hp⟩ := hp
  obtain ⟨top', hroot', hq⟩ := hq
  rw [hroot, Except.ok.injEq, ofLoc, ofLoc, Path.mk.injEq] at hroot'
  obtain ⟨-, rfl⟩ := hroot'
  rw [hp, hq, Except.ok.injEq, ofLoc, ofLoc, Path.mk.injEq, List.append_right_inj]
  exact ⟨fun h => h.2, fun h => ⟨rfl, h⟩⟩

end LiesBelow

end Path

open JsonnetLocals.Path (ofText LiesBelow text_injective proper_ofText)

/-- Two files below a root are called the same exactly when their paths mean the same place, and exactly then their outputs
    go to the same path of each output directory. What they are called, and so their tag, is the same wherever the root
    stands. -/
theorem identity_output_place {cwd : Loc} (hcwd : ∀ t ∈ cwd, t.IsPart) {root p q : Text} {way way' : List Text}
    (hp : LiesBelow cwd (ofText root) (ofText p) way) (hq : LiesBelow cwd (ofText root) (ofText q) way') :
    (fileIdentity cwd (ofText p) (some (ofText root)) = fileIdentity cwd (ofText q) (some (ofText root)) ↔
      (ofText p).resolve cwd = (ofText q).resolve cwd) ∧
    (∀ w : Writer, (w.outputPath cwd (ofText p) (some (ofText root))).1 = (w.outputPath cwd (ofText q) (some (ofText root))).1 ↔
      (ofText p).resolve cwd = (ofText q).resolve cwd) ∧
    ∀ cwd' root' p', LiesBelow cwd' root' p' way →
      fileIdentity cwd' p' (some root') = fileIdentity cwd (ofText p) (some (ofText root)) ∧
      fileTag (fileIdentity cwd' p' (some root')) = fileTag (fileIdentity cwd (ofText p) (some (ofText root))) := by
  refine ⟨?_, ?_, ?_⟩
  · rw [hp.fileIdentity_eq, hq.fileIdentity_eq, hp.resolve_eq_iff hq]
    constructor
    · intro h
      have hpath := text_injective (hp.proper hcwd (proper_ofText p)) (hq.proper hcwd (proper_ofText q)) h
      exact (Path.mk.inj hpath).2
    · rintro rfl
      rfl
  · intro w
    rw [hp.outputPath_eq, hq.outputPath_eq, hp.resolve_eq_iff hq, Path.mk.injEq, List.append_right_inj]
    exact ⟨fun h => h.2, fun h => ⟨rfl, h⟩⟩
  · intro cwd' root' p' h
    have heq : fileIdentity cwd' p' (some root') = fileIdentity cwd (ofText p) (some (ofText root)) := by
      rw [h.fileIdentity_eq, hp.fileIdentity_eq]
    exact ⟨heq, congrArg fileTag heq⟩

/-- A file below a root that is spelled from the working directory, by a way up and down again and by an absolute path with
    double slashes; another file beside it; and the first one below a root elsewhere. -/
theorem identity_output_place_spelled :
    fileIdentity ["w", "a"] (ofText "../a/./b/x.jsonnet") (some (ofText ".")) =
      fileIdentity ["w", "a"] (ofText "///w//a/b/x.jsonnet") (some (ofText ".")) ∧
    (∀ w : Writer, (w.outputPath ["w", "a"] (ofText "b/x.jsonnet") (some (ofText "."))).1 ≠
      (w.outputPath ["w", "a"] (ofText "bc/x.jsonnet") (some (ofText "."))).1) ∧
    fileTag (fileIdentity [] (ofText "/v/b/x.jsonnet") (some (ofText "v"))) =
      fileTag (fileIdentity ["w", "a"] (ofText "../a/./b/x.jsonnet") (some (ofText "."))) := by
  have hcwd : ∀ t ∈ (["w", "a"] : Loc), t.IsPart := by decide
  have hup : LiesBelow ["w", "a"] (ofText ".") (ofText "../a/./b/x.jsonnet") ["b", "x.jsonnet"] := ⟨["w", "a"], by decide, by decide⟩
  have hslashes : LiesBelow ["w", "a"] (ofText ".") (ofText "///w//a/b/x.jsonnet") ["b", "x.jsonnet"] :=
    ⟨["w", "a"], by decide, by decide⟩
  have hplain : LiesBelow ["w", "a"] (ofText ".") (ofText "b/x.jsonnet") ["b", "x.jsonnet"] := ⟨["w", "a"], by decide, by decide⟩
  have hbeside : LiesBelow ["w", "a"] (ofText ".") (ofText "bc/x.jsonnet") ["bc", "x.jsonnet"] := ⟨["w", "a"], by decide, by decide⟩
  have hmoved : LiesBelow [] (ofText "v") (ofText "/v/b/x.jsonnet") ["b", "x.jsonnet"] := ⟨["v"], by decide, by decide⟩
  refine ⟨(identity_output_place hcwd hup hslashes).1.mpr (by decide), ?_, ?_⟩
  · intro w h
    exact absurd (((identity_output_place hcwd hplain hbeside).2.1 w).mp h) (by decide)
  · exact ((identity_output_place hcwd hup hslashes).2.2 [] _ _ hmoved).2

end JsonnetLocals
