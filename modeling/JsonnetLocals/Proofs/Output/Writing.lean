/-
  JsonnetLocals.Proofs.Output.Writing — what a write leaves on the disk.

  A write through a temporary file makes the directories of its target and then puts at most two files:
  one where its move takes the temporary file (`Writer.Reached`), and the temporary file itself, if it could
  not be removed. It lands or it fails (`Writer.Ending`). What it fails with tells whether its move had begun
  to copy: then a part of the content is in place (`Writer.Torn`), else nothing is.

  A write to a target first chooses its output (`Writer.Course`): none, the target, or a free name beside
  it (`Writer.course_write`).
-/

import JsonnetLocals.Proofs.Output.Names

namespace JsonnetLocals

namespace Writer

open Disk

variable {d d' way mid : Disk} {cwd : Loc} {target temp : Path} {content : Bytes} {faults : Faults} {log : List Record}
  {e : FileError} {k l : Loc}

def leftBehind (temp : Path) : Record := note .error ("Failed to clean up temp file: " ++ temp.text)

/-! ## Through a temporary file -/

/-- A path beside a target, of another name, which is nowhere on the disk. -/
structure Temporary (way : Disk) (target temp : Path) : Prop where
  settled : temp.Settled
  beside : temp.parent = target.parent
  part : temp.name.IsPart ∧ temp.name ≠ Path.up
  free : ∀ l, way.get? (l ++ [temp.name.storedName]) = none
  other : temp.name.storedName ≠ target.name.storedName

theorem temporary_freshName (ht : target.Settled) (way : Disk) :
    Temporary way target (target.parent.child (freshName way target)) := by
  obtain ⟨hpart, hup⟩ := freshName_isPart (d := way) ht.proper.slash_notMem_suffix
  have hname : (target.parent.child (freshName way target)).name = freshName way target := by
    rw [Path.child_of_isPart hpart]
    simp [Path.name]
  refine ⟨ht.parent.child hpart hup, ?_, ?_, ?_, ?_⟩
  · rw [Path.child_of_isPart hpart]
    simp [Path.parent]
  · rw [hname]
    exact ⟨hpart, hup⟩
  · rw [hname]
    exact get?_eq_none_of_freshName way target
  · rw [hname]
    exact freshName_ne way target

namespace Temporary

theorem place_eq (h : Temporary way target temp) (ht : target.Settled) :
    temp.place cwd = (target.place cwd).dropLast ++ [temp.name.storedName] := by
  have hne : temp.parts ≠ [] := by
    intro hnil
    exact h.part.1.1 (by rw [Path.name, hnil]; rfl)
  have hparts : temp.parts = temp.parent.parts ++ [temp.name] := by
    rw [Path.name, List.getLastD_eq_getLast?, List.getLast?_eq_some_getLast hne, Option.getD_some]
    exact (List.dropLast_append_getLast hne).symm
  rw [← ht.place_parent, ← h.beside, h.settled.parent.place_eq, h.settled.place_eq]
  conv_lhs => rw [hparts]
  rw [List.map_append]
  rfl

theorem place_ne_nil (h : Temporary way target temp) (ht : target.Settled) : temp.place cwd ≠ [] := by
  rw [h.place_eq ht]
  simp

theorem get?_place (h : Temporary way target temp) (ht : target.Settled) : way.get? (temp.place cwd) = none := by
  rw [h.place_eq ht]
  exact h.free _

theorem place_ne (h : Temporary way target temp) (ht : target.Settled) : temp.place cwd ≠ target.place cwd := by
  intro heq
  have hlast : (target.place cwd).getLast? = target.parts.getLast?.map Text.storedName := ht.getLast?_place
  rw [← heq, h.place_eq ht, List.getLast?_concat] at hlast
  cases hparts : target.parts.getLast? with
  | none =>
    rw [hparts] at hlast
    cases hlast
  | some name =>
    rw [hparts, Option.map_some, Option.some.injEq] at hlast
    refine h.other (hlast.trans ?_)
    rw [Path.name, List.getLastD_eq_getLast?, hparts, Option.getD_some]

/-- Putting the temporary file on a disk. -/
theorem puts (h : Temporary way target temp) (ht : target.Settled) (hway : way.Opens (target.place cwd).dropLast)
    (content : Bytes) : Puts way (way.put (temp.place cwd) (fileOf content)) (temp.place cwd) content := by
  refine ⟨h.place_ne_nil ht, ?_, ?_, fun _ => rfl⟩
  · rw [h.place_eq ht, List.dropLast_concat]
    exact hway
  · rw [h.get?_place ht]
    simp

/-- Moving it on from where it was leaves it there alone. -/
theorem alike_move (h : Temporary way target temp) (ht : target.Settled) (hl : l ≠ []) :
    Alike (way.put l (fileOf content)) ((way.put (temp.place cwd) (fileOf content)).move (temp.place cwd) l) := by
  have hne : temp.place cwd ≠ [] := h.place_ne_nil ht
  intro k
  rw [move, get?_put_of_ne way hne, if_pos rfl]
  dsimp only
  rw [get?_put_of_ne _ hl, get?_put_of_ne _ hl, get?_erase_of_ne _ hne, get?_put_of_ne _ hne]
  by_cases hk : k = temp.place cwd
  · subst hk
    rw [h.get?_place ht, if_pos rfl]
  · rw [if_neg hk, if_neg hk]

/-- Removing it leaves nothing of it. -/
theorem alike_erase (h : Temporary way target temp) (ht : target.Settled) :
    Alike way ((way.put (temp.place cwd) (fileOf content)).erase (temp.place cwd)) := by
  have hne : temp.place cwd ≠ [] := h.place_ne_nil ht
  intro k
  rw [get?_erase_of_ne _ hne, get?_put_of_ne _ hne]
  split
  · rename_i hk
    rw [hk, h.get?_place ht]
  · rfl

theorem eq_put_of_writeContents (h : Temporary way target temp) (ht : target.Settled)
    (hwrite : way.writeContents cwd temp content = .ok d') : d' = way.put (temp.place cwd) (fileOf content) := by
  unfold writeContents at hwrite
  split at hwrite
  · cases hwrite
  · rename_i l hl
    obtain ⟨rfl, -, -⟩ := (locate_eq_ok_iff h.settled).mp hl
    rw [h.get?_place ht] at hwrite
    exact (Except.ok.inj hwrite).symm

/-- On a disk with the temporary file, what was a directory is one, and nothing else is. -/
theorem dir_put_iff (h : Temporary way target temp) (ht : target.Settled) :
    (way.put (temp.place cwd) (fileOf content)).get? k = some .dir ↔ way.get? k = some .dir := by
  rw [get?_put_of_ne way (h.place_ne_nil ht)]
  split
  · rename_i hk
    rw [hk, h.get?_place ht]
    simp [fileOf]
  · rfl

end Temporary

/-! ## The move -/

/-- Where a move to the target puts a file: at the target or, if that is a directory, in it under a name that is new. -/
inductive Reached (way : Disk) (cwd : Loc) (target : Path) : Loc → Prop
  | target (free : way.get? (target.place cwd) ≠ some .dir) : Reached way cwd target (target.place cwd)
  | inside {temp : Path} (dir : way.get? (target.place cwd) = some .dir) (fresh : Temporary way target temp) :
      Reached way cwd target (target.place cwd ++ [temp.name.storedName])

namespace Reached

theorem not_dir (h : Reached way cwd target l) : way.get? l ≠ some .dir := by
  cases h with
  | target free => exact free
  | inside _ fresh =>
    rw [fresh.free]
    simp

theorem ne_nil (h : Reached way cwd target l) : l ≠ [] := by
  rintro rfl
  exact h.not_dir (get?_nil way)

/-- Nothing is lost there, if nothing was at the target. -/
theorem get?_eq_none (h : Reached way cwd target l) (hfree : way.get? (target.place cwd) = none) : way.get? l = none := by
  cases h with
  | target => exact hfree
  | inside _ fresh => exact fresh.free _

/-- A file that was there was at the target. -/
theorem eq_of_file {data : Bytes} (h : Reached way cwd target l) (hl : way.fileAt l = some data) :
    l = target.place cwd := by
  cases h with
  | target => rfl
  | inside _ fresh =>
    rw [fileAt_eq_some_iff, fresh.free] at hl
    cases hl

theorem inside_parent (h : Reached way cwd target l) : Loc.Inside (target.place cwd).dropLast l := by
  have hne := h.ne_nil
  cases h with
  | target => exact Loc.inside_iff.mpr ⟨hne, List.prefix_rfl⟩
  | inside => exact (Loc.inside_concat _ _).above (List.dropLast_prefix _)

end Reached

theorem destination_eq_ok (htemp : Temporary way target temp) (ht : target.Settled)
    (h : destination (way.put (temp.place cwd) (fileOf content)) cwd temp target = .ok l) :
    target.Fits ∧ l ≠ temp.place cwd ∧ way.Opens l.dropLast ∧ Reached way cwd target l := by
  have hopens {l : Loc} : (way.put (temp.place cwd) (fileOf content)).Opens l → way.Opens l :=
    fun ho => ho.mono fun k => (htemp.dir_put_iff ht).mp
  unfold destination at h
  split at h
  · cases h
  · rename_i place hplace
    obtain ⟨rfl, hfits, hway⟩ := (locate_eq_ok_iff ht).mp hplace
    refine ⟨hfits, ?_⟩
    split at h
    · rename_i hdir
      rw [htemp.dir_put_iff ht] at hdir
      dsimp only at h
      split at h
      · cases h
      · rename_i inside hinside
        have hchild := (locate_eq_ok_iff (ht.child htemp.part.1 htemp.part.2)).mp hinside
        rw [ht.place_child htemp.part.1 htemp.part.2] at hchild
        obtain ⟨rfl, -, hinto⟩ := hchild
        split at h
        · cases h
        · rename_i hnew
          cases h
          refine ⟨?_, hopens hinto, .inside hdir htemp⟩
          intro heq
          rw [heq, get?_put_of_ne way (htemp.place_ne_nil ht), if_pos rfl] at hnew
          cases hnew
    · rename_i hdir
      cases h
      rw [htemp.dir_put_iff ht] at hdir
      exact ⟨(htemp.place_ne ht).symm, hopens hway, .target hdir⟩

theorem ne_moveFailed_of_destination (h : destination d cwd temp target = .error e) : e ≠ .moveFailed := by
  unfold destination at h
  split at h
  · rename_i hl
    cases h
    exact ne_moveFailed_of_locate hl
  · split at h
    · dsimp only at h
      split at h
      · rename_i hl
        cases h
        exact ne_moveFailed_of_locate hl
      · split at h
        · cases h
          simp
        · cases h
    · cases h

/-- What a write that failed with the error has left at its target: nothing, or a part of the content, just when its
    move was a copy. -/
inductive Torn (way : Disk) (cwd : Loc) (faults : Faults) (target : Path) (content : Bytes) (e : FileError) : Disk → Prop
  | whole (other : e = .moveFailed → ∀ n, faults.move ≠ .copied n) : Torn way cwd faults target content e way
  | part {mid : Disk} {l : Loc} {n : Nat} (error : e = .moveFailed) (how : faults.move = .copied n) (fits : target.Fits)
      (reached : Reached way cwd target l) (puts : Puts way mid l (content.take n)) :
      Torn way cwd faults target content e mid

theorem Torn.mayPut (h : Torn way cwd faults target content e mid) :
    MayPut (fun l => target.Fits ∧ Reached way cwd target l) way mid := by
  cases h with
  | whole => exact .inl fun _ => rfl
  | part _ _ fits reached puts => exact .inr ⟨_, _, ⟨fits, reached⟩, puts⟩

/-- What is left after cleaning up: the temporary file is removed, or it stays and the log tells of it. -/
inductive Cleared (way mid : Disk) (cwd : Loc) (faults : Faults) (target : Path) (content : Bytes) :
    Disk → List Record → Prop
  | removed {d' : Disk} {log : List Record} (alike : Alike mid d') (quiet : ∀ p, leftBehind p ∉ log) :
      Cleared way mid cwd faults target content d' log
  | stays {d' : Disk} {log : List Record} {temp : Path} (fault : faults.cleanup = true)
      (fresh : Temporary way target temp) (free : mid.get? (temp.place cwd) = none)
      (puts : Puts mid d' (temp.place cwd) content) (told : leftBehind temp ∈ log) :
      Cleared way mid cwd faults target content d' log

theorem Cleared.mayPut (h : Cleared way mid cwd faults target content d' log) :
    MayPut (fun l => ∃ temp, Temporary way target temp ∧ mid.get? l = none ∧ l = temp.place cwd) mid d' := by
  cases h with
  | removed alike => exact .inl alike
  | stays _ fresh free puts => exact .inr ⟨_, _, ⟨_, fresh, free, rfl⟩, puts⟩

/-- The ways in which a write through a temporary file ends. In both `way` is the disk with the directories that
    were made. -/
inductive Ending (d : Disk) (cwd : Loc) (faults : Faults) (target : Path) (content : Bytes) :
    Disk → List Record → Except FileError Unit → Prop
  | failed {way mid d' : Disk} {log : List Record} {r : Except FileError Unit} {e : FileError}
      (made : Made d way target.parent cwd r) (torn : Torn way cwd faults target content e mid)
      (cleared : Cleared way mid cwd faults target content d' log) :
      Ending d cwd faults target content d' log (.error e)
  | landed {way d' : Disk} {log : List Record} {l : Loc} (made : Made d way target.parent cwd (.ok ()))
      (fits : target.Fits) (reached : Reached way cwd target l) (puts : Puts way d' l content) :
      Ending d cwd faults target content d' log (.ok ())

/-! ## How a write ends -/

/-- A file that is put beside the temporary one, which is then removed. -/
theorem alike_put_erase (hne : temp.place cwd ≠ []) (hl : l ≠ []) (hother : l ≠ temp.place cwd) (data : Bytes)
    (hfree : way.get? (temp.place cwd) = none) :
    Alike (way.put l (fileOf data))
      (((way.put (temp.place cwd) (fileOf content)).put l (fileOf data)).erase (temp.place cwd)) := by
  intro k
  rw [get?_erase_of_ne _ hne, get?_put_of_ne _ hl, get?_put_of_ne _ hl, get?_put_of_ne _ hne]
  by_cases hk : k = temp.place cwd
  · subst hk
    rw [if_pos rfl, if_neg hother.symm, hfree]
  · rw [if_neg hk, if_neg hk]

/-- A file that is put beside the temporary one, which stays. -/
theorem alike_put_put (hne : temp.place cwd ≠ []) (hl : l ≠ []) (hother : l ≠ temp.place cwd) (data : Bytes) :
    Alike ((way.put l (fileOf data)).put (temp.place cwd) (fileOf content))
      ((way.put (temp.place cwd) (fileOf content)).put l (fileOf data)) := by
  intro k
  rw [get?_put_of_ne _ hl, get?_put_of_ne _ hne, get?_put_of_ne _ hne, get?_put_of_ne _ hl]
  by_cases hk : k = l
  · subst hk
    rw [if_pos rfl, if_neg hother, if_pos rfl]
  · rw [if_neg hk, if_neg hk]

theorem moveInto_eq_ok {how : MoveEnd} (htemp : Temporary way target temp) (ht : target.Settled)
    (h : moveInto (way.put (temp.place cwd) (fileOf content)) cwd how temp target content = (d', .ok ())) :
    target.Fits ∧ ∃ l, Reached way cwd target l ∧ Puts way d' l content := by
  unfold moveInto at h
  split at h
  · cases h
  · split at h
    · cases h
    · rename_i l hl
      obtain ⟨hfits, -, hopens, hreached⟩ := destination_eq_ok htemp ht hl
      split at h
      · cases h
      · cases h
        exact ⟨hfits, l, hreached, hreached.ne_nil, hopens, hreached.not_dir, htemp.alike_move ht hreached.ne_nil⟩

/-- A move that fails leaves the temporary file where it was, and has copied only if it was a copy. -/
theorem moveInto_eq_error {how : MoveEnd} (htemp : Temporary way target temp) (ht : target.Settled)
    (h : moveInto (way.put (temp.place cwd) (fileOf content)) cwd how temp target content = (d', .error e)) :
    d' = way.put (temp.place cwd) (fileOf content) ∧ (e = .moveFailed → ∀ n, how ≠ .copied n) ∨
      ∃ n l, e = .moveFailed ∧ how = .copied n ∧ target.Fits ∧ l ≠ temp.place cwd ∧ way.Opens l.dropLast ∧
        Reached way cwd target l ∧
        d' = (way.put (temp.place cwd) (fileOf content)).put l (fileOf (content.take n)) := by
  unfold moveInto at h
  split at h
  · rename_i hrefused
    cases h
    refine .inl ⟨rfl, fun _ n hcopied => ?_⟩
    rw [hrefused] at hcopied
    cases hcopied
  · split at h
    · rename_i hdest
      cases h
      exact .inl ⟨rfl, fun he => absurd he (ne_moveFailed_of_destination hdest)⟩
    · rename_i l hl
      obtain ⟨hfits, hother, hopens, hreached⟩ := destination_eq_ok htemp ht hl
      split at h
      · rename_i n _
        cases h
        exact .inr ⟨n, l, rfl, rfl, hfits, hother, hopens, hreached, rfl⟩
      · cases h

/-- A failed move leaves the temporary file beside what it has put in place. Without the temporary file that is all. -/
theorem torn_of_moveInto (htemp : Temporary way target temp) (ht : target.Settled)
    (hopens : way.Opens (target.place cwd).dropLast)
    (h : moveInto (way.put (temp.place cwd) (fileOf content)) cwd faults.move temp target content = (d', .error e)) :
    ∃ mid, Torn way cwd faults target content e mid ∧ mid.get? (temp.place cwd) = none ∧
      Puts mid d' (temp.place cwd) content ∧ Alike mid (d'.erase (temp.place cwd)) := by
  have hne : temp.place cwd ≠ [] := htemp.place_ne_nil ht
  have hfree : way.get? (temp.place cwd) = none := htemp.get?_place ht
  obtain ⟨rfl, hother⟩ | ⟨n, l, rfl, how, hfits, hl, hway, hreached, rfl⟩ := moveInto_eq_error htemp ht h
  · exact ⟨way, .whole hother, hfree, htemp.puts ht hopens content, htemp.alike_erase ht⟩
  · have hputs : Puts way (way.put l (fileOf (content.take n))) l (content.take n) :=
      ⟨hreached.ne_nil, hway, hreached.not_dir, fun _ => rfl⟩
    have hfree' : (way.put l (fileOf (content.take n))).get? (temp.place cwd) = none := by
      rw [hputs.get?_of_ne hl.symm, hfree]
    refine ⟨_, .part rfl how hfits hreached hputs, hfree', ⟨hne, ?_, ?_, ?_⟩, ?_⟩
    · rw [htemp.place_eq ht, List.dropLast_concat]
      exact hopens.mono fun k => hputs.dir_kept
    · rw [hfree']
      simp
    · exact alike_put_put hne hreached.ne_nil hl _
    · exact alike_put_erase hne hreached.ne_nil hl _ hfree

theorem quiet_failure (target : Path) (e : FileError) (p : Path) :
    leftBehind p ∉ [note .error ("Atomic write failed for " ++ target.text ++ ": " ++ e.message)] := by
  have hclean : (Text.ofString "Failed to clean up temp file: ").codes.head? = some 'F'.toNat := by decide
  have hwrite : (Text.ofString "Atomic write failed for ").codes.head? = some 'A'.toNat := by decide
  rw [List.mem_singleton]
  intro heq
  have hletter := congrArg (fun r => r.message.codes.head?) heq
  simp [leftBehind, note, hclean, hwrite] at hletter

theorem ending_writeAtomic (ht : target.Settled) {r : Except FileError Unit}
    (h : writeAtomic d cwd faults target content = (d', log, r)) : Ending d cwd faults target content d' log r := by
  unfold writeAtomic at h
  split at h
  · rename_i way x hmake
    cases h
    have hx := ne_moveFailed_of_makeDirs hmake
    refine .failed (made_ensureDir ht.parent hmake) (.whole fun h => absurd h hx) ?_
    exact .removed (fun _ => rfl) fun p => List.not_mem_nil
  · rename_i way hmake
    have hmade := made_ensureDir ht.parent hmake
    have htemp := temporary_freshName ht way
    dsimp only at h
    generalize target.parent.child (freshName way target) = temp at h htemp
    split at h
    · rename_i x hwrite
      cases h
      have hx := ne_moveFailed_of_writeContents hwrite
      exact .failed hmade (.whole fun h => absurd h hx) (.removed (fun _ => rfl) (quiet_failure target x))
    · rename_i full hfull
      obtain rfl := htemp.eq_put_of_writeContents ht hfull
      split at h
      · rename_i d₁ hmove
        cases h
        obtain ⟨hfits, l, hreached, hputs⟩ := moveInto_eq_ok htemp ht hmove
        exact .landed hmade hfits hreached hputs
      · rename_i d₁ x hmove
        have hopens : way.Opens (target.place cwd).dropLast := by
          rw [← ht.place_parent]
          exact hmade.opens rfl
        obtain ⟨mid, htorn, hfree, hputs, halike⟩ := torn_of_moveInto htemp ht hopens hmove
        split at h
        · rename_i hfault
          cases h
          exact .failed hmade htorn (.stays hfault htemp hfree hputs (List.mem_cons_of_mem _ List.mem_cons_self))
        · cases h
          exact .failed hmade htorn (.removed halike (quiet_failure target x))

/-- The directories that are made are above the target. -/
theorem get?_of_made {r : Except FileError Unit} (ht : target.Settled) (h : Made d way target.parent cwd r) :
    way.get? (target.place cwd) = d.get? (target.place cwd) := by
  by_cases hnil : target.place cwd = []
  · rw [hnil, get?_nil, get?_nil]
  · refine h.way.get?_eq ?_
    rw [ht.place_parent]
    exact Loc.not_prefix_dropLast hnil

/-- Making the directories of a target does not change where a move to it leads. -/
theorem Reached.of_made {r : Except FileError Unit} (h : Reached way cwd target l) (ht : target.Settled)
    (hmade : Made d way target.parent cwd r) : Reached d cwd target l := by
  have hsame := get?_of_made ht hmade
  cases h with
  | target free => exact .target (hsame ▸ free)
  | inside dir fresh =>
    exact .inside (hsame ▸ dir) { fresh with free := fun l => hmade.way.keeps.get?_eq_none (fresh.free l) }

theorem wrote_of_puts (ht : target.Settled) (hmade : Made d way target.parent cwd (.ok ())) (hfits : target.Fits)
    (hputs : Puts way d' (target.place cwd) content) : Wrote d d' cwd target content := by
  constructor
  · have hopens : d'.Opens (target.place cwd).dropLast := hputs.way.mono fun k => hputs.dir_kept
    exact contents_eq_ok_iff.mpr ⟨_, (locate_eq_ok_iff ht).mpr ⟨rfl, hfits, hopens⟩, hputs.fileAt_self⟩
  · intro l hl
    rw [fileAt_congr (hputs.get?_of_ne hl), hmade.way.fileAt_eq]

namespace Ending

variable {r : Except FileError Unit}

/-- The directories are made, then a file may be put where the move leads, and then the temporary one may stay. -/
theorem steps (h : Ending d cwd faults target content d' log r) :
    ∃ way mid made, Made d way target.parent cwd made ∧
      MayPut (fun l => target.Fits ∧ Reached way cwd target l) way mid ∧
      MayPut (fun l => ∃ temp, Temporary way target temp ∧ mid.get? l = none ∧ l = temp.place cwd) mid d' := by
  cases h with
  | failed made torn cleared => exact ⟨_, _, _, made, torn.mayPut, cleared.mayPut⟩
  | landed made fits reached puts => exact ⟨_, _, _, made, .inr ⟨_, _, ⟨fits, reached⟩, puts⟩, .inl fun _ => rfl⟩

theorem tree (h : Ending d cwd faults target content d' log r) (hd : d.Tree) : d'.Tree := by
  obtain ⟨way, mid, _, made, moved, cleared⟩ := h.steps
  exact cleared.tree (moved.tree (made.tree hd))

/-- Nothing is lost but what was at the target. -/
theorem keeps (h : Ending d cwd faults target content d' log r) (ht : target.Settled)
    (hfree : target.Fits → d.get? (target.place cwd) = none) : Keeps d d' := by
  obtain ⟨way, mid, _, made, moved, cleared⟩ := h.steps
  refine made.way.keeps.trans ((moved.keeps ?_).trans (cleared.keeps ?_))
  · rintro l ⟨hfits, hreached⟩
    exact hreached.get?_eq_none ((get?_of_made ht made).trans (hfree hfits))
  · rintro l ⟨_, _, hnone, _⟩
    exact hnone

/-- No directory is lost. -/
theorem dir_kept (h : Ending d cwd faults target content d' log r) (hk : d.get? k = some .dir) :
    d'.get? k = some .dir := by
  obtain ⟨way, mid, _, made, moved, cleared⟩ := h.steps
  exact cleared.dir_iff.mpr (moved.dir_iff.mpr (made.way.keeps k _ hk))

/-- A new directory is above the target. -/
theorem prefix_of_new_dir (h : Ending d cwd faults target content d' log r) (hnot : d.get? k ≠ some .dir)
    (hk : d'.get? k = some .dir) : k <+: target.parent.place cwd := by
  obtain ⟨way, mid, _, made, moved, cleared⟩ := h.steps
  rcases made.way k with heq | ⟨-, -, hle⟩
  · exact absurd (heq.symm.trans (moved.dir_iff.mp (cleared.dir_iff.mp hk))) hnot
  · exact hle

/-- Only the file at the target may change. -/
theorem fileAt_kept (h : Ending d cwd faults target content d' log r) {data : Bytes} (hk : d.fileAt k = some data)
    (hne : k ≠ target.place cwd) : d'.fileAt k = some data := by
  obtain ⟨way, mid, _, made, moved, cleared⟩ := h.steps
  have hway : way.fileAt k = some data := (made.way.fileAt_eq k).trans hk
  have hmid : mid.fileAt k = some data := by
    rw [fileAt_congr (moved.get?_eq ?_), hway]
    rintro ⟨-, hreached⟩
    exact hne (hreached.eq_of_file hway)
  rw [fileAt_congr (cleared.get?_eq ?_), hmid]
  rintro ⟨_, _, hnone, _⟩
  rw [fileAt_eq_some_iff, hnone] at hmid
  cases hmid

/-- A file that changes is beside the target or in it. -/
theorem inside_of_changed (h : Ending d cwd faults target content d' log r) (ht : target.Settled)
    (hk : d'.fileAt k ≠ d.fileAt k) : Loc.Inside (target.place cwd).dropLast k := by
  obtain ⟨way, mid, _, made, moved, cleared⟩ := h.steps
  by_contra hnot
  refine hk ?_
  rw [fileAt_congr (cleared.get?_eq ?_), fileAt_congr (moved.get?_eq ?_), made.way.fileAt_eq]
  · rintro ⟨-, hreached⟩
    exact hnot hreached.inside_parent
  · rintro ⟨temp, hfresh, -, rfl⟩
    rw [hfresh.place_eq ht] at hnot
    exact hnot (Loc.inside_concat _ _)

theorem fits (h : Ending d cwd faults target content d' log (.ok ())) : target.Fits := by
  cases h with
  | landed _ fits _ _ => exact fits

theorem wrote (h : Ending d cwd faults target content d' log (.ok ())) (ht : target.Settled)
    (hnot : d.get? (target.place cwd) ≠ some .dir) : Wrote d d' cwd target content := by
  cases h with
  | landed made fits reached puts =>
    cases reached with
    | target => exact wrote_of_puts ht made fits puts
    | inside dir => exact absurd ((get?_of_made ht made).symm.trans dir) hnot

/-- After a write that succeeds, what was a file is one, with what it held or with what was written. -/
theorem fileAt_kept_or (h : Ending d cwd faults target content d' log (.ok ())) {data : Bytes}
    (hk : d.fileAt k = some data) : d'.fileAt k = some data ∨ d'.fileAt k = some content := by
  cases h with
  | landed made _ _ puts =>
    rw [puts.fileAt_eq, made.way.fileAt_eq, hk]
    split
    · exact .inr rfl
    · exact .inl rfl

/-- The directory of the target is there after a write that succeeds. -/
theorem opens (h : Ending d cwd faults target content d' log (.ok ())) (ht : target.Settled) :
    d'.Opens (target.place cwd).dropLast := by
  cases h with
  | landed made _ _ puts =>
    rw [← ht.place_parent]
    exact (made.opens rfl).mono fun k => puts.dir_kept

end Ending

/-! ## After the conflict is resolved -/

variable {w : Writer} {env : Environment} {call : WriteCall} {output : Path} {resolution : Option Resolution}

/-- Why the output for a target is what it is. -/
inductive Choice (w : Writer) (d : Disk) (cwd : Loc) (now : WallTime) (target : Path) : Path → Option Resolution → Prop
  | free (absent : d.find cwd target = .ok none) : Choice w d cwd now target target none
  | renamed {output : Path} (strategy : w.strategy = .rename) (search : freeName d cwd target now = .ok output) :
      Choice w d cwd now target output (some .renamed)
  | overwritten (strategy : w.strategy = .overwrite) : Choice w d cwd now target target (some .overwritten)

namespace Choice

variable {now : WallTime}

theorem exists_candidate (ht : target.Settled) (h : freeName d cwd target now = .ok output) :
    ∃ n, output = candidate target now n ∧ d.find cwd output = .ok none := by
  obtain ⟨n, -, -, htaken, heq⟩ := freeName_eq ht d cwd now
  rw [h] at heq
  unfold pathExists at htaken heq
  cases hfind : d.find cwd (candidate target now n) with
  | error e => rw [hfind] at heq; cases heq
  | ok entry =>
    rw [hfind] at heq htaken
    obtain rfl : output = candidate target now n := Except.ok.inj heq
    cases entry with
    | some e => exact absurd rfl htaken
    | none => exact ⟨n, rfl, hfind⟩

theorem settled (h : Choice w d cwd now target output resolution) (ht : target.Settled) : output.Settled := by
  cases h with
  | free => exact ht
  | renamed _ search =>
    obtain ⟨n, rfl, -⟩ := exists_candidate ht search
    exact settled_candidate ht now n
  | overwritten => exact ht

theorem parent_eq (h : Choice w d cwd now target output resolution) (ht : target.Settled) :
    output.parent = target.parent := by
  cases h with
  | free => rfl
  | renamed _ search =>
    obtain ⟨n, rfl, -⟩ := exists_candidate ht search
    exact parent_candidate ht now n
  | overwritten => rfl

theorem eq_target (h : Choice w d cwd now target output resolution) (hs : w.strategy ≠ .rename) :
    output = target := by
  cases h with
  | free => rfl
  | renamed strategy => exact absurd strategy hs
  | overwritten => rfl

/-- Without overwriting, the output leads to nothing. -/
theorem find_eq_none (h : Choice w d cwd now target output resolution) (ht : target.Settled)
    (hs : w.strategy ≠ .overwrite) : d.find cwd output = .ok none := by
  cases h with
  | free absent => exact absent
  | renamed _ search =>
    obtain ⟨n, rfl, absent⟩ := exists_candidate ht search
    exact absent
  | overwritten strategy => exact absurd strategy hs

theorem get?_eq_none (h : Choice w d cwd now target output resolution) (hd : d.Tree) (ht : target.Settled)
    (hs : w.strategy ≠ .overwrite) (hf : output.Fits) : d.get? (output.place cwd) = none :=
  hd.get?_eq_none (h.settled ht) hf (h.find_eq_none ht hs)

end Choice

theorem skip_of_resolveConflict {strategy : ConflictStrategy} {now : WallTime} {how : Resolution} {what : Text}
    (h : resolveConflict strategy d cwd now target = .ok (none, how, what)) : strategy = .skip ∧ how = .skipped := by
  cases strategy with
  | skip =>
    cases h
    exact ⟨rfl, rfl⟩
  | rename =>
    unfold resolveConflict at h
    cases hsearch : freeName d cwd target now <;> rw [hsearch] at h <;> cases h
  | overwrite => cases h

theorem choice_of_resolveConflict {now : WallTime} {how : Resolution} {what : Text}
    (h : resolveConflict w.strategy d cwd now target = .ok (some output, how, what)) :
    Choice w d cwd now target output (some how) := by
  unfold resolveConflict at h
  split at h
  · cases h
  · rename_i hs
    cases hsearch : freeName d cwd target now with
    | error e => rw [hsearch] at h; cases h
    | ok free =>
      rw [hsearch] at h
      cases h
      exact .renamed hs hsearch
  · rename_i hs
    cases h
    exact .overwritten hs

theorem ne_moveFailed_of_freeName {now : WallTime} (h : freeName d cwd target now = .error e) : e ≠ .moveFailed := by
  have hfrom {n tries : Nat} (h : freeNameFrom d cwd target now n tries = .error e) : e ≠ .moveFailed := by
    induction tries generalizing n with
    | zero => cases h
    | succ tries ih =>
      unfold freeNameFrom pathExists at h
      cases hfind : d.find cwd (candidate target now n) with
      | error x =>
        rw [hfind] at h
        cases h
        exact ne_moveFailed_of_find hfind
      | ok found =>
        rw [hfind] at h
        cases found with
        | none => cases h
        | some _ => exact ih h
  exact hfrom h

theorem ne_moveFailed_of_resolveConflict {strategy : ConflictStrategy} {now : WallTime}
    (h : resolveConflict strategy d cwd now target = .error e) : e ≠ .moveFailed := by
  unfold resolveConflict at h
  split at h
  · cases h
  · cases hsearch : freeName d cwd target now with
    | error x =>
      rw [hsearch] at h
      cases h
      exact ne_moveFailed_of_freeName hsearch
    | ok free =>
      rw [hsearch] at h
      cases h
  · cases h

inductive Course (w : Writer) (d : Disk) (env : Environment) (call : WriteCall) : WriteStep → Prop
  /-- It fails before anything is done. -/
  | refused {e : FileError} (early : e ≠ .moveFailed) :
      Course w d env call ⟨{ w with total := w.total + 1 }, d, [], .error e⟩
  | skipped {log : List Record} (strategy : w.strategy = .skip) :
      Course w d env call
        ⟨{ w with total := w.total + 1, skipped := w.skipped + 1 }, d, log, .ok ⟨none, call.target, some .skipped⟩⟩
  | failed {target output : Path} {resolution : Option Resolution} {d' : Disk} {notes log : List Record} {e : FileError}
      (normal : call.target.normalize env = .ok target) (choice : Choice w d env.cwd call.now target output resolution)
      (quiet : ∀ p, leftBehind p ∉ notes)
      (ending : Ending d env.cwd call.faults output call.content d' log (.error e)) :
      Course w d env call ⟨{ w with total := w.total + 1 }, d', notes ++ log, .error e⟩
  | written {target output : Path} {resolution : Option Resolution} {d' : Disk} {log log' : List Record}
      (normal : call.target.normalize env = .ok target) (choice : Choice w d env.cwd call.now target output resolution)
      (ending : Ending d env.cwd call.faults output call.content d' log (.ok ())) :
      Course w d env call
        ⟨count { w with total := w.total + 1 } output resolution, d', log', .ok ⟨some output, call.target, resolution⟩⟩

theorem course_put {notes : List Record} (ht : target.Settled) (hn : call.target.normalize env = .ok target)
    (hc : Choice w d env.cwd call.now target output resolution) (hq : ∀ p, leftBehind p ∉ notes) :
    Course w d env call (put { w with total := w.total + 1 } d env.cwd call output resolution notes) := by
  unfold put
  split
  · rename_i d' log e hwrite
    exact .failed hn hc hq (ending_writeAtomic (hc.settled ht) hwrite)
  · rename_i d' log hwrite
    exact .written hn hc (ending_writeAtomic (hc.settled ht) hwrite)

/-- Every write takes one of the courses. -/
theorem course_write (henv : env.Proper) (hcall : call.target.Proper) (w : Writer) (d : Disk)
    (loops : Path → Bool := noLoops) : Course w d env call (w.write d env call loops) := by
  unfold write
  dsimp only
  split
  · exact .refused (by simp)
  · rename_i target hnormal
    have hn := eq_normalize hnormal
    have ht := Path.settled_normalize henv hcall hn
    have hquiet (what : Text) (p : Path) :
        leftBehind p ∉ [note .info ("Conflict resolved for " ++ target.name ++ ": " ++ what)] := by
      rw [List.mem_singleton]
      intro heq
      cases congrArg Record.level heq
    split
    · rename_i hfind
      exact .refused (ne_moveFailed_of_find hfind)
    · rename_i habsent
      exact course_put ht hn (.free habsent) fun p => List.not_mem_nil
    · split
      · exact .refused (by simp)
      · split
        · rename_i hresolve
          exact .refused (ne_moveFailed_of_resolveConflict hresolve)
        · rename_i hresolve
          obtain ⟨hs, rfl⟩ := skip_of_resolveConflict hresolve
          exact .skipped hs
        · rename_i hresolve
          exact course_put ht hn (choice_of_resolveConflict hresolve) (hquiet _)

end Writer

end JsonnetLocals
