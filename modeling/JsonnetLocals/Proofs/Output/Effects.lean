/-
  JsonnetLocals.Proofs.Output.Effects — what one write does to the files.

  No write loses a directory, and a directory that it makes is above its target. A file stays as it is
  unless it is the target of a writer that overwrites (`Writer.fileAt_write`); without overwriting
  everything stays (`Writer.keeps_write`). From this:
  - a write that succeeds is at its output, and nowhere else, unless the output is a directory
    (`Writer.write_lands_iff`); `Writer.write_into_directory` is a write that is lost in one;
  - a write that fails leaves every file as it was, unless its move was a copy that had begun
    (`Writer.failed_write_keeps_files_unless_copied`); `Writer.failed_write_tears_target` is one that had.
-/

import JsonnetLocals.Proofs.Output.Writing

namespace JsonnetLocals

namespace Writer

open Disk

variable {d : Disk} {w : Writer} {env : Environment} {call : WriteCall} {loops : Path → Bool} {k : Loc}

/-! ## What stays -/

theorem strategy_write (henv : env.Proper) (hcall : call.target.Proper) :
    (w.write d env call loops).writer.strategy = w.strategy := by
  have hcourse := course_write henv hcall w d loops
  generalize w.write d env call loops = step at hcourse ⊢
  cases hcourse <;> rfl

/-- Without overwriting, whatever is on the disk stays. -/
theorem keeps_write (henv : env.Proper) (hcall : call.target.Proper) (hd : d.Tree) (hs : w.strategy ≠ .overwrite) :
    Keeps d (w.write d env call).disk := by
  have hcourse := course_write henv hcall w d
  generalize w.write d env call = step at hcourse ⊢
  cases hcourse with
  | refused => exact .refl d
  | skipped => exact .refl d
  | failed normal choice _ ending =>
    have ht := Path.settled_normalize henv hcall normal
    exact ending.keeps (choice.settled ht) fun hfits => choice.get?_eq_none hd ht hs hfits
  | written normal choice ending =>
    have ht := Path.settled_normalize henv hcall normal
    exact ending.keeps (choice.settled ht) fun hfits => choice.get?_eq_none hd ht hs hfits

theorem tree_write (w : Writer) (henv : env.Proper) (hcall : call.target.Proper) (hd : d.Tree) :
    (w.write d env call loops).disk.Tree := by
  have hcourse := course_write henv hcall w d loops
  generalize w.write d env call loops = step at hcourse ⊢
  cases hcourse with
  | refused => exact hd
  | skipped => exact hd
  | failed _ _ _ ending => exact ending.tree hd
  | written _ _ ending => exact ending.tree hd

theorem dir_write (henv : env.Proper) (hcall : call.target.Proper) : (w.write d env call loops).writer.dir = w.dir := by
  have hcourse := course_write henv hcall w d loops
  generalize w.write d env call loops = step at hcourse ⊢
  cases hcourse <;> rfl

theorem dir_kept_write (henv : env.Proper) (hcall : call.target.Proper) (hk : d.get? k = some .dir) :
    (w.write d env call loops).disk.get? k = some .dir := by
  have hcourse := course_write henv hcall w d loops
  generalize w.write d env call loops = step at hcourse ⊢
  cases hcourse with
  | refused => exact hk
  | skipped => exact hk
  | failed _ _ _ ending => exact ending.dir_kept hk
  | written _ _ ending => exact ending.dir_kept hk

theorem denied_moveInto (d : Disk) (cwd : Loc) (how : MoveEnd) (temp target : Path) (content : Bytes) :
    (moveInto d cwd how temp target content).1.denied = d.denied := by
  unfold moveInto
  split
  · rfl
  · split
    · rfl
    · split
      · rfl
      · exact denied_move d _ _

theorem denied_writeAtomic (d : Disk) (cwd : Loc) (faults : Faults) (target : Path) (content : Bytes) :
    (writeAtomic d cwd faults target content).1.denied = d.denied := by
  have hway := denied_ensureDir d cwd target.parent
  unfold writeAtomic
  split
  · rename_i way e hmake
    rwa [hmake] at hway
  · rename_i way hmake
    rw [hmake] at hway
    dsimp only at hway ⊢
    split
    · exact hway
    · rename_i full hfull
      have hfull : full.denied = d.denied := by
        unfold writeContents at hfull
        split at hfull
        · cases hfull
        · split at hfull
          · cases hfull
          · cases hfull
            exact hway
      have hmove := (denied_moveInto full cwd faults.move (target.parent.child (freshName way target)) target content).trans
        hfull
      split
      · rename_i heq
        rwa [heq] at hmove
      · rename_i heq
        rw [heq] at hmove
        split
        · exact hmove
        · exact hmove

/-- No write changes what may be accessed. -/
theorem denied_write (w : Writer) (d : Disk) (env : Environment) (call : WriteCall) :
    (w.write d env call).disk.denied = d.denied := by
  have hput (w : Writer) (output : Path) (resolution : Option Resolution) (notes : List Record) :
      (w.put d env.cwd call output resolution notes).disk.denied = d.denied := by
    have h := denied_writeAtomic d env.cwd call.faults output call.content
    unfold put
    split
    · rename_i hwrite
      rwa [hwrite] at h
    · rename_i hwrite
      rwa [hwrite] at h
  unfold write
  dsimp only
  split
  · rfl
  · split
    · rfl
    · exact hput _ _ _ _
    · split
      · rfl
      · split
        · rfl
        · rfl
        · exact hput _ _ _ _

section Target

variable (henv : env.Proper) (hcall : call.target.Proper) (habs : call.target.anchor = .absolute)

include henv hcall habs

/-- A directory that a write makes is above the target. -/
theorem prefix_of_new_dir_write (hnot : d.get? k ≠ some .dir) (hk : (w.write d env call).disk.get? k = some .dir) :
    k <+: (call.target.place env.cwd).dropLast := by
  have hcourse := course_write henv hcall w d
  generalize w.write d env call = step at hcourse hk
  have habove {target output : Path} {resolution : Option Resolution} (normal : call.target.normalize env = .ok target)
      (choice : Choice w d env.cwd call.now target output resolution) (hle : k <+: output.parent.place env.cwd) :
      k <+: (call.target.place env.cwd).dropLast := by
    have ht := Path.settled_normalize henv hcall normal
    rwa [choice.parent_eq ht, ht.place_parent, Path.place_normalize habs ht normal] at hle
  cases hcourse with
  | refused => exact absurd hk hnot
  | skipped => exact absurd hk hnot
  | failed normal choice _ ending => exact habove normal choice (ending.prefix_of_new_dir hnot hk)
  | written normal choice ending => exact habove normal choice (ending.prefix_of_new_dir hnot hk)

/-- A file stays as it is, unless it is the target of a writer that overwrites. -/
theorem fileAt_write (hd : d.Tree) {data : Bytes} (hk : d.fileAt k = some data)
    (hne : w.strategy = .overwrite → k ≠ call.target.place env.cwd) :
    (w.write d env call).disk.fileAt k = some data := by
  by_cases hs : w.strategy = .overwrite
  · have hcourse := course_write henv hcall w d
    generalize w.write d env call = step at hcourse ⊢
    have hkept {target output : Path} {resolution : Option Resolution} {d' : Disk} {log : List Record}
        {r : Except FileError Unit} (normal : call.target.normalize env = .ok target)
        (choice : Choice w d env.cwd call.now target output resolution)
        (ending : Ending d env.cwd call.faults output call.content d' log r) : d'.fileAt k = some data := by
      have ht := Path.settled_normalize henv hcall normal
      obtain rfl := choice.eq_target (by rw [hs]; decide)
      exact ending.fileAt_kept hk (Path.place_normalize habs ht normal ▸ hne hs)
    cases hcourse with
    | refused => exact hk
    | skipped => exact hk
    | failed normal choice _ ending => exact hkept normal choice ending
    | written normal choice ending => exact hkept normal choice ending
  · exact fileAt_eq_some_iff.mpr (keeps_write henv hcall hd hs k _ (fileAt_eq_some_iff.mp hk))

/-- When overwriting, the output is the target. -/
theorem output_write (hs : w.strategy = .overwrite) {r : Written} (hok : (w.write d env call).result = .ok r) :
    ∃ q, r.output = some q ∧ q.place env.cwd = call.target.place env.cwd := by
  have hcourse := course_write henv hcall w d
  generalize w.write d env call = step at hcourse hok
  cases hcourse with
  | refused => cases hok
  | skipped strategy =>
    rw [hs] at strategy
    cases strategy
  | failed => cases hok
  | @written target output _ _ _ _ normal choice _ =>
    cases hok
    obtain rfl := choice.eq_target (by rw [hs]; decide)
    exact ⟨output, rfl, Path.place_normalize habs (Path.settled_normalize henv hcall normal) normal⟩

/-- A write that succeeds is at its output, if no directory is in its way, or changed nothing. -/
theorem wrote_write (hd : d.Tree) (hnot : w.strategy = .overwrite → d.get? (call.target.place env.cwd) ≠ some .dir)
    {r : Written} (hok : (w.write d env call).result = .ok r) :
    match r.output with
    | some q => Wrote d (w.write d env call).disk env.cwd q call.content
    | none => (w.write d env call).disk = d := by
  have hcourse := course_write henv hcall w d
  generalize w.write d env call = step at hcourse hok ⊢
  cases hcourse with
  | refused => cases hok
  | skipped =>
    cases hok
    rfl
  | failed => cases hok
  | @written target output _ _ _ _ normal choice ending =>
    cases hok
    have ht := Path.settled_normalize henv hcall normal
    refine ending.wrote (choice.settled ht) ?_
    by_cases hs : w.strategy = .overwrite
    · rw [choice.eq_target (by rw [hs]; decide), Path.place_normalize habs ht normal]
      exact hnot hs
    · rw [choice.get?_eq_none hd ht hs ending.fits]
      simp

/-- The output lies beside the target. -/
theorem beside_of_choice {target output : Path} {resolution : Option Resolution}
    (normal : call.target.normalize env = .ok target) (choice : Choice w d env.cwd call.now target output resolution) :
    (output.place env.cwd).dropLast = (call.target.place env.cwd).dropLast := by
  have ht := Path.settled_normalize henv hcall normal
  rw [← Path.place_normalize habs ht normal, ← ht.place_parent, ← choice.parent_eq ht, (choice.settled ht).place_parent]

/-- A file that a write changes is beside the target or in what stands there. -/
theorem inside_of_changed_write (hk : (w.write d env call).disk.fileAt k ≠ d.fileAt k) :
    Loc.Inside (call.target.place env.cwd).dropLast k := by
  have hcourse := course_write henv hcall w d
  generalize w.write d env call = step at hcourse hk
  have hinside {target output : Path} {resolution : Option Resolution} {d' : Disk} {log : List Record}
      {r : Except FileError Unit} (normal : call.target.normalize env = .ok target)
      (choice : Choice w d env.cwd call.now target output resolution)
      (ending : Ending d env.cwd call.faults output call.content d' log r) (hk : d'.fileAt k ≠ d.fileAt k) :
      Loc.Inside (call.target.place env.cwd).dropLast k := by
    rw [← beside_of_choice henv hcall habs normal choice]
    exact ending.inside_of_changed (choice.settled (Path.settled_normalize henv hcall normal)) hk
  cases hcourse with
  | refused => exact absurd rfl hk
  | skipped => exact absurd rfl hk
  | failed normal choice _ ending => exact hinside normal choice ending hk
  | written normal choice ending => exact hinside normal choice ending hk

omit habs in
/-- After a write that succeeds, what was a file is one, with what it held or with what was written. -/
theorem fileAt_write_or {r : Written} (hok : (w.write d env call).result = .ok r) {data : Bytes}
    (hk : d.fileAt k = some data) :
    (w.write d env call).disk.fileAt k = some data ∨ (w.write d env call).disk.fileAt k = some call.content := by
  have hcourse := course_write henv hcall w d
  generalize w.write d env call = step at hcourse hok ⊢
  cases hcourse with
  | refused => cases hok
  | skipped => exact .inl hk
  | failed => cases hok
  | written _ _ ending => exact ending.fileAt_kept_or hk

/-- What a write that succeeds has written lies beside the target, and in a directory. -/
theorem beside_write {r : Written} {q : Path} (hok : (w.write d env call).result = .ok r) (hq : r.output = some q) :
    (q.place env.cwd).dropLast = (call.target.place env.cwd).dropLast ∧
      (w.write d env call).disk.Opens (call.target.place env.cwd).dropLast := by
  have hcourse := course_write henv hcall w d
  generalize w.write d env call = step at hcourse hok ⊢
  cases hcourse with
  | refused => cases hok
  | skipped =>
    cases hok
    cases hq
  | failed => cases hok
  | @written target output _ _ _ _ normal choice ending =>
    cases hok
    obtain rfl : output = q := Option.some.inj hq
    have hsame := beside_of_choice henv hcall habs normal choice
    exact ⟨hsame, hsame ▸ ending.opens (choice.settled (Path.settled_normalize henv hcall normal))⟩

/-- Without renaming, what was written is at the target. -/
theorem output_of_ne_rename (hs : w.strategy ≠ .rename) {r : Written} {q : Path}
    (hok : (w.write d env call).result = .ok r) (hq : r.output = some q) :
    q.place env.cwd = call.target.place env.cwd := by
  have hcourse := course_write henv hcall w d
  generalize w.write d env call = step at hcourse hok
  cases hcourse with
  | refused => cases hok
  | skipped =>
    cases hok
    cases hq
  | failed => cases hok
  | @written target output _ _ _ _ normal choice ending =>
    cases hok
    obtain rfl : output = q := Option.some.inj hq
    obtain rfl := choice.eq_target hs
    exact Path.place_normalize habs (Path.settled_normalize henv hcall normal) normal

end Target

/-! ## Success -/

/-- A write that succeeds is at its output, and nowhere else, unless its output is a directory. It is one
    only when overwriting, and then the content is in a new file of that directory. -/
theorem write_lands_iff (henv : env.Proper) (hd : d.Tree) (hcall : call.target.Proper) {r : Written} {p : Path}
    (hok : (w.write d env call).result = .ok r) (hp : r.output = some p) :
    (Wrote d (w.write d env call).disk env.cwd p call.content ↔ d.isDir env.cwd p = false) ∧
      (d.isDir env.cwd p = true →
        w.strategy = .overwrite ∧
          ∃ name, d.get? (p.place env.cwd ++ [name]) = none ∧
            ∀ l, (w.write d env call).disk.fileAt l =
              if l = p.place env.cwd ++ [name] then some call.content else d.fileAt l) := by
  have hcourse := course_write henv hcall w d
  generalize w.write d env call = step at hcourse hok ⊢
  cases hcourse with
  | refused => cases hok
  | skipped =>
    cases hok
    cases hp
  | failed => cases hok
  | @written target output _ _ _ _ normal choice ending =>
    cases hok
    cases hp
    have ht := Path.settled_normalize henv hcall normal
    have hout := choice.settled ht
    cases ending with
    | @landed way _ _ l made fits reached puts =>
      cases reached with
      | target free =>
        have hnot : d.isDir env.cwd p = false := by
          by_contra hdir
          rw [Bool.not_eq_false, isDir_iff_opens hout] at hdir
          exact free ((get?_of_made hout made).trans hdir.2.self)
        rw [hnot]
        exact ⟨iff_of_true (wrote_of_puts hout made fits puts) rfl, fun h => by cases h⟩
      | @inside temp dir fresh =>
        have hdir : d.get? (p.place env.cwd) = some .dir := (get?_of_made hout made).symm.trans dir
        have hopens : d.Opens (p.place env.cwd) := opens_of_dropLast (hd _ (by rw [hdir]; simp)) hdir
        rw [(isDir_iff_opens hout).mpr ⟨fits, hopens⟩]
        refine ⟨iff_of_false ?_ (by simp), fun _ => ⟨?_, temp.name.storedName, ?_, ?_⟩⟩
        · intro hwrote
          obtain ⟨l, hl, hfile⟩ := contents_eq_ok_iff.mp hwrote.holds
          obtain ⟨rfl, -, -⟩ := (locate_eq_ok_iff hout).mp hl
          rw [fileAt, puts.dir_kept dir] at hfile
          cases hfile
        · by_contra hs
          rw [choice.get?_eq_none hd ht hs fits] at hdir
          cases hdir
        · exact made.way.keeps.get?_eq_none (fresh.free _)
        · intro l
          rw [puts.fileAt_eq, made.way.fileAt_eq]

def atTop : Environment := ⟨[], "/", []⟩

theorem proper_atTop : atTop.Proper := ⟨List.forall_mem_nil _, List.forall_mem_nil _⟩

def oneByte (faults : Faults) : WriteCall :=
  ⟨Path.ofText "/out/a.jsonnet", [0x61], none, ⟨2024, 5, 1, 12, 30, 0⟩, faults⟩

theorem proper_oneByte (faults : Faults) : (oneByte faults).target.Proper := Path.proper_ofText _

def withA (e : Entry) : Disk := ⟨[(["out"], .dir), (["out", "a.jsonnet"], e)], []⟩

theorem write_lands_on_file :
    Wrote (withA (fileOf [0x62]))
      ((start (Path.ofText "/out") .overwrite).write (withA (fileOf [0x62])) atTop (oneByte .none)).disk
      [] (Path.ofText "/out/a.jsonnet") [0x61] :=
  (write_lands_iff proper_atTop (by decide) (proper_oneByte .none) (r := ⟨_, _, some .overwritten⟩) rfl rfl).1.mpr rfl

/-- A write that overwrites a directory is reported at the directory and lost in it. -/
theorem write_into_directory :
    ((start (Path.ofText "/out") .overwrite).write (withA .dir) atTop (oneByte .none)).result =
        .ok ⟨some (Path.ofText "/out/a.jsonnet"), Path.ofText "/out/a.jsonnet", some .overwritten⟩ ∧
      ((start (Path.ofText "/out") .overwrite).write (withA .dir) atTop (oneByte .none)).disk.fileAt
        ["out", "a.jsonnet", "tmp00000000.jsonnet"] = some [0x61] ∧
      ¬ Wrote (withA .dir) ((start (Path.ofText "/out") .overwrite).write (withA .dir) atTop (oneByte .none)).disk
        [] (Path.ofText "/out/a.jsonnet") [0x61] := by
  refine ⟨rfl, rfl, fun h => ?_⟩
  have hrest := h.rest ["out", "a.jsonnet", "tmp00000000.jsonnet"] (by decide)
  exact absurd hrest (by decide)

/-! ## Failure -/

/-- What a write that failed leaves. -/
structure Unwritten (d : Disk) (env : Environment) (call : WriteCall) (step : WriteStep) : Prop where
  /-- Whatever was there is there. -/
  kept : Keeps d step.disk
  /-- A new directory is above the target. -/
  dirs : ∀ l, d.get? l = none → step.disk.get? l = some .dir →
    ∃ target, call.target.normalize env = .ok target ∧ l <+: (target.place env.cwd).dropLast
  /-- There is a new file just when the log tells of a temporary one that could not be removed. This is
      the file, beside the target, with all of the content. -/
  files : (∀ temp, leftBehind temp ∉ step.log) ∧ (∀ l, step.disk.fileAt l = d.fileAt l) ∨
    ∃ target temp, call.target.normalize env = .ok target ∧ temp.parent = target.parent ∧
      call.faults.cleanup = true ∧ leftBehind temp ∈ step.log ∧ d.get? (temp.place env.cwd) = none ∧
      ∀ l, step.disk.fileAt l = if l = temp.place env.cwd then some call.content else d.fileAt l

/-- What is left of a write that failed, after directories were made on a disk and the temporary file was cleared. -/
theorem unwritten_of_cleared {way mid d' : Disk} {target output : Path} {notes log : List Record} {e : FileError}
    {w' : Writer} (ht : target.Settled) (normal : call.target.normalize env = .ok target)
    (hparent : output.parent = target.parent) (made : MakesWay d mid (output.parent.place env.cwd))
    (quiet : ∀ p, leftBehind p ∉ notes) (cleared : Cleared way mid env.cwd call.faults output call.content d' log) :
    Unwritten d env call ⟨w', d', notes ++ log, .error e⟩ := by
  have hplace : output.parent.place env.cwd = (target.place env.cwd).dropLast := by rw [hparent, ht.place_parent]
  rw [hplace] at made
  refine ⟨made.keeps.trans (cleared.mayPut.keeps ?_), fun l hnone hdir => ⟨target, normal, ?_⟩, ?_⟩
  · rintro l ⟨_, _, hnone, _⟩
    exact hnone
  · have hmid : mid.get? l = some .dir := cleared.mayPut.dir_iff.mp hdir
    exact made.prefix_of_new hnone (by rw [hmid]; simp)
  · cases cleared with
    | removed alike quiet' =>
      refine .inl ⟨fun temp hmem => (List.mem_append.mp hmem).elim (quiet temp) (quiet' temp), fun l => ?_⟩
      rw [fileAt_congr (alike l), made.fileAt_eq]
    | @stays temp fault fresh free puts told =>
      refine .inr ⟨target, temp, normal, fresh.beside.trans hparent, fault, List.mem_append_right _ told,
        made.keeps.get?_eq_none free, fun l => ?_⟩
      rw [puts.fileAt_eq, made.fileAt_eq]

/-- Directories that were made on a disk were made on the disk with a file put beside them. -/
theorem makesWay_put {way mid : Disk} {l m : Loc} {data : Bytes} (h : MakesWay d way m) (hputs : Puts way mid l data) :
    MakesWay (d.put l (fileOf data)) mid m := by
  intro k
  rw [hputs.get?_eq, get?_put_of_ne d hputs.ne_nil]
  by_cases hk : k = l
  · rw [if_pos hk, if_pos hk]
    exact .inl rfl
  · rw [if_neg hk, if_neg hk]
    exact h k

/-- Putting a file that is there changes nothing. -/
theorem makesWay_of_put {mid : Disk} {l m : Loc} {data : Bytes} (h : MakesWay (d.put l (fileOf data)) mid m) (hl : l ≠ [])
    (hthere : d.fileAt l = some data) : MakesWay d mid m := by
  intro k
  have hk := h k
  rw [get?_put_of_ne d hl] at hk
  by_cases hkl : k = l
  · rw [if_pos hkl, ← fileAt_eq_some_iff.mp hthere, ← hkl] at hk
    exact hk
  · rwa [if_neg hkl] at hk

/-- If files are as they were, and as they were but for one that was put, then that one was there. -/
theorem Unwritten.fileAt_eq {step : WriteStep} {l : Loc} {data : Bytes} (h : Unwritten d env call step) (hl : l ≠ [])
    (hput : Unwritten (d.put l (fileOf data)) env call step) : d.fileAt l = some data := by
  have hthere : (d.put l (fileOf data)).get? l = some (fileOf data) := by rw [get?_put_of_ne d hl, if_pos rfl]
  have hstep : step.disk.fileAt l = some data := fileAt_eq_some_iff.mpr (hput.kept l _ hthere)
  rcases h.files with ⟨-, hsame⟩ | ⟨_, temp, _, _, _, told, _, hsame⟩
  · rw [← hsame, hstep]
  · by_cases htemp : l = temp.place env.cwd
    · -- then the temporary file would be at two places
      exfalso
      rcases hput.files with ⟨quiet, -⟩ | ⟨_, temp', _, _, _, -, hfree, hrest⟩
      · exact quiet temp told
      · have hne : temp'.place env.cwd ≠ l := by
          intro heq
          rw [heq, hthere] at hfree
          cases hfree
        rw [get?_put_of_ne d hl, if_neg hne] at hfree
        have htwice := hsame (temp'.place env.cwd)
        rw [hrest, if_pos rfl, ← htemp, if_neg hne, fileAt, hfree] at htwice
        cases htwice
    · rw [hsame, if_neg htemp] at hstep
      exact hstep

/-- A write that fails leaves every file as it was, unless its move had begun to copy. Then a part of the content is at
    its output or, if that is a directory, in it. All else is as it was, and the files are as they were only if that part
    was there before. Of the writer it only counts that it was tried. -/
theorem failed_write_keeps_files_unless_copied (henv : env.Proper) (hcall : call.target.Proper) {e : FileError}
    (herr : (w.write d env call loops).result = .error e) :
    (w.write d env call loops).writer = { w with total := w.total + 1 } ∧
      ((∀ n, e = .moveFailed → call.faults.move ≠ .copied n) → Unwritten d env call (w.write d env call loops)) ∧
      ∀ n, e = .moveFailed → call.faults.move = .copied n →
        ∃ target output l, call.target.normalize env = .ok target ∧ output.parent = target.parent ∧
          (w.strategy ≠ .rename → output = target) ∧ Reached d env.cwd output l ∧
          Unwritten (d.put l (fileOf (call.content.take n))) env call (w.write d env call loops) ∧
          (Unwritten d env call (w.write d env call loops) ↔ d.fileAt l = some (call.content.take n)) := by
  have hcourse := course_write henv hcall w d loops
  generalize w.write d env call loops = step at hcourse herr ⊢
  cases hcourse with
  | refused early =>
    cases herr
    refine ⟨rfl, fun _ => ⟨.refl d, fun l hnone hdir => ?_, .inl ⟨fun _ => List.not_mem_nil, fun _ => rfl⟩⟩, ?_⟩
    · rw [hnone] at hdir
      cases hdir
    · exact fun n he => absurd he early
  | skipped => cases herr
  | written => cases herr
  | @failed target output _ d' notes log _ normal choice quiet ending =>
    cases herr
    have ht := Path.settled_normalize henv hcall normal
    have hparent := choice.parent_eq ht
    refine ⟨rfl, ?_⟩
    cases ending with
    | failed made torn cleared =>
      cases torn with
      | whole other =>
        refine ⟨fun _ => unwritten_of_cleared ht normal hparent made.way quiet cleared, fun n he how => ?_⟩
        exact absurd how (other he n)
      | @part _ l n error how fits reached puts =>
        refine ⟨fun hnot => absurd how (hnot n error), fun n' _ how' => ?_⟩
        obtain rfl : n = n' := by
          rw [how, MoveEnd.copied.injEq] at how'
          exact how'
        have hput := makesWay_put made.way puts
        have hunwritten : Unwritten (d.put l (fileOf (call.content.take n))) env call
            ⟨{ w with total := w.total + 1 }, d', notes ++ log, .error e⟩ :=
          unwritten_of_cleared ht normal hparent hput quiet cleared
        refine ⟨target, output, l, normal, hparent, choice.eq_target, reached.of_made (choice.settled ht) made,
          hunwritten, fun h => h.fileAt_eq puts.ne_nil hunwritten, fun hsame => ?_⟩
        exact unwritten_of_cleared ht normal hparent (makesWay_of_put hput puts.ne_nil hsame) quiet cleared

/-- A move that is refused, with a temporary file that cannot be removed, and one that copies. -/
theorem failed_write_keeps_files_refused :
    Unwritten (withA (fileOf [0x62])) atTop (oneByte ⟨true, true⟩)
        ((start (Path.ofText "/out") .overwrite).write (withA (fileOf [0x62])) atTop (oneByte ⟨true, true⟩)) ∧
      ∃ target l, (oneByte ⟨.copied 1, false⟩).target.normalize atTop = .ok target ∧
        Reached (withA (fileOf [0x62])) [] target l ∧
        Unwritten ((withA (fileOf [0x62])).put l (fileOf [0x61])) atTop (oneByte ⟨.copied 1, false⟩)
          ((start (Path.ofText "/out") .overwrite).write (withA (fileOf [0x62])) atTop (oneByte ⟨.copied 1, false⟩)) := by
  constructor
  · have herr : ((start (Path.ofText "/out") .overwrite).write (withA (fileOf [0x62])) atTop (oneByte ⟨true, true⟩)).result =
        .error .moveFailed := rfl
    refine (failed_write_keeps_files_unless_copied proper_atTop (proper_oneByte _) herr).2.1 ?_
    exact fun n _ how => by cases how
  · have herr : ((start (Path.ofText "/out") .overwrite).write (withA (fileOf [0x62])) atTop
        (oneByte ⟨.copied 1, false⟩)).result = .error .moveFailed := rfl
    obtain ⟨target, output, l, hn, -, houtput, hl, h, -⟩ :=
      (failed_write_keeps_files_unless_copied proper_atTop (proper_oneByte _) herr).2.2 1 rfl rfl
    obtain rfl := houtput (by decide)
    exact ⟨output, l, hn, hl, h⟩

/-- A write fails, and the file at its target is written over: wholly, or so that nothing of it is left. -/
theorem failed_write_tears_target :
    ((start (Path.ofText "/out") .overwrite).write (withA (fileOf [0x62])) atTop (oneByte ⟨.copied 1, false⟩)).result =
        .error .moveFailed ∧
      ((start (Path.ofText "/out") .overwrite).write (withA (fileOf [0x62])) atTop (oneByte ⟨.copied 1, false⟩)).disk.fileAt
        ["out", "a.jsonnet"] = some [0x61] ∧
      ((start (Path.ofText "/out") .overwrite).write (withA (fileOf [0x62])) atTop (oneByte ⟨.copied 0, false⟩)).disk.fileAt
        ["out", "a.jsonnet"] = some [] ∧
      ¬ Unwritten (withA (fileOf [0x62])) atTop (oneByte ⟨.copied 1, false⟩)
        ((start (Path.ofText "/out") .overwrite).write (withA (fileOf [0x62])) atTop (oneByte ⟨.copied 1, false⟩)) := by
  refine ⟨rfl, rfl, rfl, fun h => ?_⟩
  have hkept := h.kept ["out", "a.jsonnet"] (fileOf [0x62]) rfl
  exact absurd (fileAt_eq_some_iff.mpr hkept) (by decide)

end Writer

end JsonnetLocals
