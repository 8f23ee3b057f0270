/-
  JsonnetLocals.Proofs.Files.Place — the places that paths mean.

  The names of a path that is read from a text stand between slashes (`Path.proper_ofText`), and a path
  of such names is read back from its text (`Path.ofText_text`). A normalized path is absolute and goes
  nowhere up (`Path.settled_normalize`), so its place is the list of its names as they are listed
  (`Path.Settled.place_eq`). The place is where following the path on a disk ends, if it ends
  (`Disk.locate_eq_place`).
-/

import JsonnetLocals.Files.Disk
import JsonnetLocals.Proofs.Text.FileName
import JsonnetLocals.Proofs.Text.Split
import Mathlib.Data.List.TakeWhile

namespace JsonnetLocals

/-- A name that can stand between two slashes of a path. -/
def Text.IsPart (t : Text) : Prop := t ≠ "" ∧ t ≠ "." ∧ '/'.toNat ∉ t.codes

instance (t : Text) : Decidable t.IsPart := inferInstanceAs (Decidable (_ ∧ _))

/-- The working directory is a place as the system lists it. -/
structure Environment.Proper (env : Environment) : Prop where
  parts : ∀ t ∈ env.cwd, t.IsPart ∧ t ≠ Path.up
  listed : ∀ t ∈ env.cwd, t.storedName = t

namespace Path

def Proper (p : Path) : Prop := ∀ t ∈ p.parts, t.IsPart

instance (p : Path) : Decidable p.Proper := inferInstanceAs (Decidable (∀ t ∈ p.parts, t.IsPart))

/-- An absolute path that goes nowhere up. -/
structure Settled (p : Path) : Prop where
  anchor : p.anchor = .absolute
  parts : ∀ t ∈ p.parts, t.IsPart ∧ t ≠ up

/-! ## Names between slashes -/

/-- The names of a path that is read from a text stand between slashes. -/
theorem proper_ofText (t : Text) : (ofText t).Proper := by
  intro name hname
  simp only [ofText, List.mem_filter, Bool.and_eq_true, decide_eq_true_eq] at hname
  obtain ⟨hsplit, hne, hdot⟩ := hname
  refine ⟨hne, hdot, ?_⟩
  obtain ⟨piece, hpiece, rfl⟩ := List.mem_map.mp hsplit
  exact Text.notMem_splitFrom List.not_mem_nil hpiece

theorem takeWhile_slash {codes : List Nat} (h : codes.head? ≠ some '/'.toNat) :
    (Text.mk codes).chars.takeWhile (· == '/') = [] := by
  cases codes with
  | nil => rfl
  | cons n codes =>
    refine List.takeWhile_cons_of_neg ?_
    rw [beq_iff_eq]
    intro (heq : (Text.char? n).getD Text.replacement = '/')
    cases hc : Text.char? n with
    | none =>
      rw [hc] at heq
      exact absurd heq (by decide)
    | some c =>
      rw [hc, Option.getD_some] at heq
      obtain rfl := Text.char?_eq_some_iff.mp hc
      exact h (heq ▸ rfl)

theorem ofText_of_isPart {t : Text} (h : t.IsPart) : ofText t = ⟨.relative, [t]⟩ := by
  obtain ⟨hne, hdot, hslash⟩ := h
  have hsplit : t.splitOn '/' = [t] := by
    rw [Text.splitOn, Text.split, Text.splitFrom_of_notMem hslash]
    rfl
  have hstart : t.chars.takeWhile (· == '/') = [] := takeWhile_slash fun h => hslash (List.mem_of_mem_head? h)
  rw [ofText, hstart, hsplit, List.filter_cons_of_pos (by simp [hne, hdot])]
  rfl

theorem child_of_isPart {p : Path} {name : Text} (h : name.IsPart) :
    p.child name = { p with parts := p.parts ++ [name] } := by
  rw [child, ofText_of_isPart h]
  rfl

/-- A slash in front of a path adds no name. -/
theorem parts_ofText_slash (codes : List Nat) : (ofText ⟨'/'.toNat :: codes⟩).parts = (ofText ⟨codes⟩).parts := by
  unfold ofText Text.splitOn Text.split
  rw [Text.splitFrom, if_pos rfl, List.map_cons, List.filter_cons_of_neg (by decide)]

/-- A path is read back from its text. -/
theorem ofText_text {p : Path} (hp : p.Proper) : ofText p.text = p := by
  obtain ⟨anchor, parts⟩ := p
  cases parts with
  | nil => cases anchor <;> rfl
  | cons part parts =>
    let body := ['/'.toNat].intercalate ((part :: parts).map Text.codes)
    have hslash : ∀ x ∈ (part :: parts).map Text.codes, '/'.toNat ∉ x := by
      intro x hx
      obtain ⟨t, ht, rfl⟩ := List.mem_map.mp hx
      exact (hp t ht).2.2
    have hsplit : Text.split '/'.toNat body = (part :: parts).map Text.codes :=
      Text.split_intercalate (List.cons_ne_nil _ _) hslash
    have hparts : (ofText ⟨body⟩).parts = part :: parts := by
      rw [ofText, Text.splitOn, hsplit, List.map_map]
      refine (congrArg _ (List.map_id _)).trans (List.filter_eq_self.mpr fun t ht => ?_)
      simp [(hp t ht).1, (hp t ht).2.1]
    have hstart : (Text.mk body).chars.takeWhile (· == '/') = [] := by
      refine takeWhile_slash fun hhead => ?_
      obtain ⟨rest, hrest⟩ := List.head?_eq_some_iff.mp hhead
      rw [hrest, Text.split, Text.splitFrom, if_pos rfl, List.map_cons, List.cons.injEq] at hsplit
      exact (hp part List.mem_cons_self).1 (congrArg Text.mk hsplit.1.symm)
    have hread {codes : List Nat} {n : Nat} (hn : ((Text.mk codes).chars.takeWhile (· == '/')).length = n)
        (h : (ofText ⟨codes⟩).parts = part :: parts) : ofText ⟨codes⟩ = ⟨anchorOf n, part :: parts⟩ := by
      rw [← hn, ← h]
      rfl
    have hone : (ofText ⟨'/'.toNat :: body⟩).parts = part :: parts := (parts_ofText_slash body).trans hparts
    cases anchor with
    | relative => exact hread (n := 0) (congrArg List.length hstart) hparts
    | absolute => exact hread (n := 1) (congrArg (·.length + 1) hstart) hone
    | doubled => exact hread (n := 2) (congrArg (·.length + 2) hstart) ((parts_ofText_slash _).trans hone)

/-! ## Normalized paths -/

theorem Proper.expandUser {env : Environment} {p q : Path} (hp : p.Proper) (h : p.expandUser env = .ok q) :
    q.Proper := by
  obtain ⟨anchor, parts⟩ := p
  unfold Path.expandUser at h
  split at h
  · rename_i first rest hanchor hparts
    obtain rfl : parts = first :: rest := hparts
    split at h
    · cases hh : homeOf env first with
      | error e => rw [hh] at h; cases h
      | ok home =>
        rw [hh] at h
        cases h
        intro t ht
        rcases List.mem_append.mp ht with ht | ht
        · exact proper_ofText home t ht
        · exact hp t (List.mem_cons_of_mem first ht)
    · cases h
      exact hp
  · cases h
    exact hp

theorem mem_of_mem_stepLoc {l : Loc} {part t : Text} (ht : t ∈ stepLoc l part) : t ∈ l ∨ t = part ∧ part ≠ up := by
  unfold stepLoc at ht
  split at ht
  · exact .inl (List.dropLast_subset _ ht)
  · rename_i hne
    rcases List.mem_append.mp ht with ht | ht
    · exact .inl ht
    · exact .inr ⟨List.mem_singleton.mp ht, hne⟩

theorem mem_of_mem_foldl_stepLoc {l : Loc} {parts : List Text} {t : Text} (ht : t ∈ parts.foldl stepLoc l) :
    t ∈ l ∨ t ∈ parts ∧ t ≠ up := by
  induction parts generalizing l with
  | nil => exact .inl ht
  | cons part parts ih =>
    rcases ih ht with h | ⟨h, hne⟩
    · rcases mem_of_mem_stepLoc h with h | ⟨rfl, hne⟩
      · exact .inl h
      · exact .inr ⟨List.mem_cons_self, hne⟩
    · exact .inr ⟨List.mem_cons_of_mem part h, hne⟩

/-- A resolved path is absolute, and its names are those of the working directory and of the path. -/
theorem mem_of_resolve {cwd : Loc} {p q : Path} (h : p.resolve cwd = .ok q) :
    q.anchor = .absolute ∧ ∀ t ∈ q.parts, t ∈ cwd ∨ t ∈ p.parts ∧ t ≠ up := by
  unfold resolve at h
  split at h
  · cases h
  · cases h
    refine ⟨rfl, ?_⟩
    intro t ht
    rcases mem_of_mem_foldl_stepLoc ht with ht | ht
    · split at ht
      · exact .inl ht
      · cases ht
    · exact .inr ht

/-- A normalized path is absolute and goes nowhere up. -/
theorem settled_normalize {env : Environment} {p q : Path} (henv : env.Proper) (hp : p.Proper)
    (h : p.normalize env = .ok q) : q.Settled := by
  unfold normalize at h
  cases he : p.expandUser env with
  | error e => rw [he] at h; cases h
  | ok p' =>
    rw [he] at h
    have h' : p'.resolve env.cwd = .ok q := h
    obtain ⟨hanchor, hparts⟩ := mem_of_resolve h'
    refine ⟨hanchor, ?_⟩
    intro t ht
    rcases hparts t ht with ht | ⟨ht, hne⟩
    · exact henv.parts t ht
    · exact ⟨hp.expandUser he t ht, hne⟩

theorem foldl_stepLoc_of_ne_up {l : Loc} {parts : List Text} (h : ∀ t ∈ parts, t ≠ up) :
    parts.foldl stepLoc l = l ++ parts := by
  induction parts generalizing l with
  | nil => rw [List.foldl_nil, List.append_nil]
  | cons part parts ih =>
    rw [List.forall_mem_cons] at h
    rw [List.foldl_cons, stepLoc, if_neg h.1, ih h.2, List.append_assoc]
    rfl

namespace Settled

variable {p : Path} {cwd : Loc} {name : Text}

theorem resolveLoc_eq (h : p.Settled) : p.resolveLoc cwd = p.parts := by
  rw [resolveLoc, h.anchor, if_neg (by decide), foldl_stepLoc_of_ne_up fun t ht => (h.parts t ht).2, List.nil_append]

theorem place_eq (h : p.Settled) : p.place cwd = p.parts.map Text.storedName := by
  rw [place, h.resolveLoc_eq]

theorem getLast?_place (h : p.Settled) : (p.place cwd).getLast? = p.parts.getLast?.map Text.storedName := by
  rw [h.place_eq, List.getLast?_map]

theorem proper (h : p.Settled) : p.Proper := fun t ht => (h.parts t ht).1

theorem parent (h : p.Settled) : p.parent.Settled := ⟨h.anchor, fun t ht => h.parts t (List.dropLast_subset _ ht)⟩

theorem place_parent (h : p.Settled) : p.parent.place cwd = (p.place cwd).dropLast := by
  rw [h.parent.place_eq, h.place_eq, ← List.map_dropLast]
  rfl

theorem child (h : p.Settled) (hn : name.IsPart) (hu : name ≠ up) : (p.child name).Settled := by
  rw [child_of_isPart hn]
  refine ⟨h.anchor, ?_⟩
  intro t ht
  rcases List.mem_append.mp ht with ht | ht
  · exact h.parts t ht
  · obtain rfl := List.mem_singleton.mp ht
    exact ⟨hn, hu⟩

theorem place_child (h : p.Settled) (hn : name.IsPart) (hu : name ≠ up) :
    (p.child name).place cwd = p.place cwd ++ [name.storedName] := by
  rw [(h.child hn hu).place_eq, h.place_eq, child_of_isPart hn, List.map_append]
  rfl

theorem take (h : p.Settled) (n : Nat) : Settled { p with parts := p.parts.take n } :=
  ⟨h.anchor, fun t ht => h.parts t (List.mem_of_mem_take ht)⟩

end Settled

/-- An absolute path and its normal form mean the same place. -/
theorem place_normalize {env : Environment} {p q : Path} {cwd : Loc} (hp : p.anchor = .absolute) (hq : q.Settled)
    (h : p.normalize env = .ok q) : q.place cwd = p.place cwd := by
  obtain ⟨anchor, parts⟩ := p
  obtain rfl : anchor = .absolute := hp
  have hexpand : Path.expandUser env ⟨.absolute, parts⟩ = .ok ⟨.absolute, parts⟩ := rfl
  rw [normalize, hexpand] at h
  have hresolve : Path.resolve env.cwd ⟨.absolute, parts⟩ = .ok q := h
  unfold resolve at hresolve
  split at hresolve
  · cases hresolve
  · cases hresolve
    rw [hq.place_eq]
    rfl

/-! ## Paths taken from others -/

theorem join_absolute {p q : Path} (hp : p.anchor = .absolute) (hq : q.anchor = .relative) :
    (p.join q).anchor = .absolute := by
  rw [join, if_pos hq]
  exact hp

theorem Proper.join {p q : Path} (hp : p.Proper) (hq : q.Proper) : (p.join q).Proper := by
  unfold Path.join
  split
  · intro t ht
    exact (List.mem_append.mp ht).elim (hp t) (hq t)
  · exact hq

/-- The last name of a path as a path of its own. The top has none, and gives a path of no names. -/
theorem ofText_name {p : Path} (hp : p.Proper) : ofText p.name = ⟨.relative, p.parts.getLast?.toList⟩ := by
  unfold name
  cases h : p.parts.getLast? with
  | none =>
    rw [List.getLastD_eq_getLast?, h]
    rfl
  | some t =>
    rw [List.getLastD_eq_getLast?, h, Option.getD_some, ofText_of_isPart (hp t (List.mem_of_getLast? h))]
    rfl

/-- The way down to a path is relative, and goes nowhere up. -/
theorem below_eq_ok {cwd : Loc} {p base q : Path} (hcwd : ∀ t ∈ cwd, t.IsPart ∧ t ≠ up) (hp : p.Proper)
    (h : p.below cwd base = .ok q) : q.anchor = .relative ∧ ∀ t ∈ q.parts, t.IsPart ∧ t ≠ up := by
  unfold below at h
  cases hplace : p.resolve cwd with
  | error e => rw [hplace] at h; cases h
  | ok place =>
    rw [hplace] at h
    cases htop : base.resolve cwd with
    | error e => rw [htop] at h; cases h
    | ok top =>
      rw [htop] at h
      have h' : place.relativeTo top = .ok q := h
      unfold relativeTo at h'
      split at h'
      · cases h'
        refine ⟨rfl, fun t ht => ?_⟩
        rcases (mem_of_resolve hplace).2 t (List.mem_of_mem_drop ht) with hmem | ⟨hmem, hne⟩
        · exact hcwd t hmem
        · exact ⟨hp t hmem, hne⟩
      · cases h'

/-! ## Parts of names -/

theorem codes_splitName (name : Text) : ∀ n ∈ (splitName name).1.codes ++ (splitName name).2.codes, n ∈ name.codes := by
  intro n hn
  unfold splitName at hn
  dsimp only at hn
  split at hn
  · have hempty : ("" : Text).codes = [] := rfl
    simpa [hempty] using hn
  · rename_i hne
    simp only [Bool.or_eq_true, List.isEmpty_iff, not_or] at hne
    have hdot : '.'.toNat ∈ name.codes := by
      by_contra hno
      have hnil : name.codes.reverse.dropWhile (fun m => decide (m ≠ '.'.toNat)) = [] := by
        refine List.dropWhile_eq_nil_iff.mpr ?_
        intro m hm
        rw [decide_eq_true_eq]
        intro e
        exact hno (e ▸ List.mem_reverse.mp hm)
      exact hne.2 (by rw [hnil]; rfl)
    simp only [List.mem_append, List.mem_cons, List.mem_reverse] at hn
    rcases hn with hn | rfl | hn
    · exact List.mem_reverse.mp ((List.dropWhile_suffix _).subset (List.mem_of_mem_drop hn))
    · exact hdot
    · exact List.mem_reverse.mp ((List.takeWhile_prefix _).subset hn)

theorem Proper.slash_notMem_name {p : Path} (hp : p.Proper) : '/'.toNat ∉ p.name.codes := by
  unfold name
  cases h : p.parts.getLast? with
  | none =>
    rw [List.getLastD_eq_getLast?, h]
    exact List.not_mem_nil
  | some t =>
    rw [List.getLastD_eq_getLast?, h]
    exact (hp t (List.mem_of_getLast? h)).2.2

theorem Proper.slash_notMem_stem {p : Path} (hp : p.Proper) : '/'.toNat ∉ p.stem.codes := fun h =>
  hp.slash_notMem_name (codes_splitName p.name _ (List.mem_append_left _ h))

theorem Proper.slash_notMem_suffix {p : Path} (hp : p.Proper) : '/'.toNat ∉ p.suffix.codes := fun h =>
  hp.slash_notMem_name (codes_splitName p.name _ (List.mem_append_right _ h))

/-! ## Places -/

theorem map_stepLoc (l : Loc) (part : Text) :
    (stepLoc l part).map Text.storedName = stepLoc (l.map Text.storedName) part.storedName := by
  unfold stepLoc
  by_cases h : part = up
  · subst h
    rw [if_pos rfl, if_pos (by decide), ← List.map_dropLast]
  · rw [if_neg h, if_neg (fun e => h (Text.storedName_eq_up e)), List.map_append]
    rfl

/-- What is wrong with the names of a path keeps it from meaning a place. -/
theorem isFlaw_of_flaw {p : Path} {e : PathError} (h : p.flaw = some e) : e.isFlaw = true := by
  have hname {before : Nat} {name : Text} (h : nameFlaw before name = some e) : e.isFlaw = true := by
    unfold nameFlaw at h
    split at h
    · cases h
      rfl
    · split at h
      · cases h
        rfl
      · cases h
  have hafter {parts : List Text} {way : Path} (h : flawAfter way parts = some e) : e.isFlaw = true := by
    induction parts generalizing way with
    | nil => cases h
    | cons name rest ih =>
      unfold flawAfter at h
      split at h
      · exact ih h
      · dsimp only at h
        split at h
        · rename_i x hx
          obtain rfl := Option.some.inj h
          exact hname hx
        · exact ih h
  exact hafter h

theorem map_foldl_stepLoc (l : Loc) (parts : List Text) :
    (parts.foldl stepLoc l).map Text.storedName =
      (parts.map Text.storedName).foldl stepLoc (l.map Text.storedName) := by
  induction parts generalizing l with
  | nil => rfl
  | cons part parts ih => rw [List.foldl_cons, ih, map_stepLoc, List.map_cons, List.foldl_cons]

end Path

namespace Disk

/-- What looking up the place of a path comes to. -/
inductive Resolves (d : Disk) (cwd : Loc) (loops : Path → Bool) (p : Path) : Except PathError Path → Prop
  | flawed {e : PathError} (flaw : p.flaw = some e) : Resolves d cwd loops p (.error e)
  | adrift (flaw : p.flaw = none) (gone : d.isAdrift cwd p = true) : Resolves d cwd loops p (.error .noWorkingDirectory)
  | looped {t : Text} (flaw : p.flaw = none) (loop : loops p = true) : Resolves d cwd loops p (.error (.linkLoop t))
  | found (flaw : p.flaw = none) (there : d.isAdrift cwd p = false) (straight : loops p = false) :
      Resolves d cwd loops p (.ok (Path.ofLoc (p.resolveLoc cwd)))

theorem resolves_resolve (d : Disk) (cwd : Loc) (loops : Path → Bool) (p : Path) :
    Resolves d cwd loops p (d.resolve cwd p loops) := by
  unfold resolve Path.resolve
  cases hflaw : p.flaw with
  | some e => exact .flawed hflaw
  | none =>
    cases hgone : d.isAdrift cwd p with
    | true => exact .adrift hflaw hgone
    | false =>
      cases hloop : loops p with
      | true => exact .looped hflaw hloop
      | false => exact .found hflaw hgone hloop

/-- A path that resolves does so as its names say. -/
theorem eq_resolve {d : Disk} {cwd : Loc} {p q : Path} {loops : Path → Bool} (h : d.resolve cwd p loops = .ok q) :
    p.resolve cwd = .ok q := by
  have hresolves := resolves_resolve d cwd loops p
  rw [h] at hresolves
  cases hresolves with
  | found flaw => rw [Path.resolve, flaw]

theorem eq_normalize {d : Disk} {env : Environment} {p q : Path} {loops : Path → Bool}
    (h : d.normalize env p loops = .ok q) : p.normalize env = .ok q := by
  unfold normalize at h
  split at h
  · cases h
  · rename_i p' hexpand
    rw [Path.normalize, hexpand]
    exact eq_resolve h

/-- Without links only a working directory that is gone keeps the place of a normalized path from being looked up. -/
theorem eq_noWorkingDirectory {d : Disk} {env : Environment} {p q : Path} {e : PathError} (hq : p.normalize env = .ok q)
    (h : d.normalize env p = .error e) : e = .noWorkingDirectory := by
  unfold normalize at h
  cases hexpand : p.expandUser env with
  | error x =>
    rw [Path.normalize, hexpand] at hq
    cases hq
  | ok p' =>
    rw [hexpand] at h
    rw [Path.normalize, hexpand] at hq
    have hresolve : p'.resolve env.cwd = .ok q := hq
    have hresolves := resolves_resolve d env.cwd noLoops p'
    rw [show d.resolve env.cwd p' = .error e from h] at hresolves
    cases hresolves with
    | flawed flaw =>
      rw [Path.resolve, flaw] at hresolve
      cases hresolve
    | adrift => rfl
    | looped _ loop => cases loop

theorem follow_eq_foldl {d : Disk} {path : Text} {l k : Loc} {parts : List Text} (h : d.follow path l parts = .ok k) :
    k = (parts.map Text.storedName).foldl Path.stepLoc l := by
  induction parts generalizing l with
  | nil =>
    cases h
    rfl
  | cons part parts ih =>
    rw [follow] at h
    split at h
    · cases h
    · cases h
    · split at h
      · cases h
      · exact ih h

/-- A path leads to its place. -/
theorem locate_eq_place {d : Disk} {env : Environment} {p : Path} {l : Loc} (henv : env.Proper)
    (h : d.locate env.cwd p = .ok l) : l = p.place env.cwd := by
  unfold locate at h
  split at h
  · cases h
  · split at h
    · cases h
    · rw [follow_eq_foldl h, Path.place, Path.resolveLoc, Path.map_foldl_stepLoc]
      congr 1
      split
      · exact (List.map_id' env.cwd).symm.trans (List.map_congr_left fun t ht => (henv.listed t ht).symm)
      · rfl

end Disk

end JsonnetLocals
