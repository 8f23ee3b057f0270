/-
  JsonnetLocals.Proofs.Output.Requests — what a writer is asked to do.

  A request names its target, or an input whose output goes where the layout of the output directory puts
  it (`WriteRequest`). It comes to one write, unless the place of the output cannot be looked up
  (`WriteRequest.call?`): links that lead back to themselves and a working directory that is gone keep a path
  from being resolved (`Writer.call?_eq_none_iff`). Serving it differs from its write in the log only,
  or does nothing and fails (`Writer.serves_serve`).

  The layout puts outputs at absolute paths (`Writer.outputPath_absolute`), so along a sequence of requests
  every write is one to a proper target on a tree (`Writer.served_of_mem`, `Writer.Served.write`).
-/

import JsonnetLocals.Proofs.Output.Sequence

namespace JsonnetLocals

inductive WriteRequest where
  /-- To write to a target. -/
  | direct (call : WriteCall)
  /-- To write the output for an input, where the layout puts it. -/
  | laidOut (input : Path) (content : Bytes) (root : Option Path) (now : WallTime) (faults : Faults)

/-- The path means a place, but the working directory that it needs is gone, or links lead back to themselves. -/
def Path.Astray (d : Disk) (cwd : Loc) (loops : Path → Bool) (p : Path) : Prop :=
  p.flaw = none ∧ (d.isAdrift cwd p = true ∨ loops p = true)

namespace WriteRequest

/-- Every name of the target or of the input stands between slashes. -/
def Proper : WriteRequest → Prop
  | direct call => call.target.Proper
  | laidOut input _ _ _ _ => input.Proper

/-- The write that a request comes to. None if the place of the output cannot be looked up. -/
def call? (w : Writer) (d : Disk) (cwd : Loc) (loops : Path → Bool) : WriteRequest → Option WriteCall
  | direct call => some call
  | laidOut input content root now faults =>
    match w.outputFor d cwd input root loops with
    | .error _ => none
    | .ok (target, _) => some ⟨target, content, some input, now, faults⟩

def Astray (d : Disk) (cwd : Loc) (loops : Path → Bool) : WriteRequest → Prop
  | direct _ => False
  | laidOut input _ root _ _ =>
    ∃ r, root = some r ∧ (input.Astray d cwd loops ∨ input.flaw = none ∧ r.Astray d cwd loops)

end WriteRequest

namespace Writer

open Disk

variable {d : Disk} {w : Writer} {env : Environment} {loops : Path → Bool} {request : WriteRequest}
  {requests : List WriteRequest} {call : WriteCall}

/-! ## The output directory -/

theorem make_of_makeOn {dir : Path} {strategy : ConflictStrategy} (h : makeOn d env dir strategy = .ok w) :
    make env dir strategy = .ok w := by
  unfold makeOn at h
  cases hn : d.normalize env dir with
  | error e =>
    rw [hn] at h
    cases h
  | ok place =>
    rw [hn] at h
    rw [make, eq_normalize hn]
    exact h

/-- A writer that was just made has an absolute output directory and has counted nothing. -/
theorem eq_start_of_make {dir : Path} {strategy : ConflictStrategy} (henv : env.Proper) (hdir : dir.Proper)
    (h : make env dir strategy = .ok w) : w.dir.Settled ∧ w = start w.dir strategy := by
  unfold make at h
  cases hn : dir.normalize env with
  | error e => rw [hn] at h; cases h
  | ok place =>
    rw [hn] at h
    obtain rfl := Except.ok.inj h
    exact ⟨Path.settled_normalize henv hdir hn, rfl⟩

/-- The layout goes on from the output directory by names, and leads up only if the name of the input does. -/
theorem outputPath_eq_join (w : Writer) {p : Path} (henv : env.Proper) (hp : p.Proper) (root : Option Path) :
    ∃ q : Path, (w.outputPath env.cwd p root).1 = w.dir.join q ∧ q.anchor = .relative ∧ q.Proper ∧
      (p.name ≠ Path.up → ∀ t ∈ q.parts, t ≠ Path.up) := by
  have hflat : ∃ q : Path, w.dir.child p.name = w.dir.join q ∧ q.anchor = .relative ∧ q.Proper ∧
      (p.name ≠ Path.up → ∀ t ∈ q.parts, t ≠ Path.up) := by
    refine ⟨Path.ofText p.name, rfl, ?_, Path.proper_ofText _, ?_⟩
    · rw [Path.ofText_name hp]
    · intro hup t ht
      rw [Path.ofText_name hp, Option.mem_toList] at ht
      rwa [Path.name, List.getLastD_eq_getLast?, Option.mem_def.mp ht] at hup
  unfold outputPath
  split
  · exact hflat
  · split
    · rename_i q hq
      obtain ⟨hanchor, hparts⟩ := Path.below_eq_ok henv.parts hp hq
      exact ⟨q, rfl, hanchor, fun t ht => (hparts t ht).1, fun _ t ht => (hparts t ht).2⟩
    · exact hflat

/-- The layout puts outputs at absolute paths. -/
theorem outputPath_absolute {p : Path} (henv : env.Proper) (hdir : w.dir.Settled) (hp : p.Proper) (root : Option Path) :
    (w.outputPath env.cwd p root).1.anchor = .absolute ∧ (w.outputPath env.cwd p root).1.Proper := by
  obtain ⟨q, heq, hanchor, hproper, -⟩ := w.outputPath_eq_join henv hp root
  rw [heq]
  exact ⟨Path.join_absolute hdir.anchor hanchor, hdir.proper.join hproper⟩

/-! ## Looking up the place of an output -/

/-- The place that is looked up is where the layout puts the output. -/
theorem eq_outputPath {cwd : Loc} {input : Path} {root : Option Path} {out : Path × List Record}
    (h : w.outputFor d cwd input root loops = .ok out) : out = w.outputPath cwd input root := by
  unfold outputFor at h
  split at h
  · exact (Except.ok.inj h).symm
  · split at h
    · exact (Except.ok.inj h).symm
    · split at h
      · exact (Except.ok.inj h).symm
      · cases h

/-- A look-up fails just when there is a root, and the path of the input or of the root leads astray. -/
theorem outputFor_eq_error_iff {cwd : Loc} {input : Path} {root : Option Path} :
    (∃ e, w.outputFor d cwd input root loops = .error e) ↔
      ∃ r, root = some r ∧ (input.Astray d cwd loops ∨ input.flaw = none ∧ r.Astray d cwd loops) := by
  cases root with
  | none => simp [outputFor]
  | some r =>
    have hin := resolves_resolve d cwd loops input
    have hroot := resolves_resolve d cwd loops r
    simp only [outputFor, Path.Astray, Option.some.injEq, exists_eq_left']
    generalize d.resolve cwd input loops = x at hin
    generalize d.resolve cwd r loops = y at hroot
    cases hin with
    | flawed flaw =>
      simp [flaw, Except.bind, bind, Path.isFlaw_of_flaw flaw]
    | adrift flaw gone => simp [flaw, gone, bind, Except.bind, PathError.isFlaw]
    | looped flaw loop => simp [flaw, loop, bind, Except.bind, PathError.isFlaw]
    | found flaw there straight =>
      cases hroot with
      | flawed flaw' => simp [flaw, there, straight, flaw', bind, Except.bind, Path.isFlaw_of_flaw flaw']
      | adrift flaw' gone => simp [flaw, there, straight, flaw', gone, bind, Except.bind, PathError.isFlaw]
      | looped flaw' loop => simp [flaw, there, straight, flaw', loop, bind, Except.bind, PathError.isFlaw]
      | found flaw' there' straight' => simp [flaw, there, straight, flaw', there', straight', bind, Except.bind]

/-- Without links only a working directory that is gone keeps the place of an output from being looked up. -/
theorem eq_noWorkingDirectory {cwd : Loc} {input : Path} {root : Option Path} {e : FileError}
    (h : w.outputFor d cwd input root = .error e) : e = .badPath .noWorkingDirectory := by
  have hpath : ∃ p x, d.resolve cwd p = .error x ∧ x.isFlaw = false ∧ e = .badPath x := by
    unfold outputFor at h
    split at h
    · cases h
    · rename_i r
      split at h
      · cases h
      · rename_i x hx
        split at h
        · cases h
        · rename_i hnot
          rw [Bool.not_eq_true] at hnot
          cases hp : d.resolve cwd input with
          | error y =>
            rw [hp] at hx
            exact ⟨input, x, hp.trans hx, hnot, (Except.error.inj h).symm⟩
          | ok q =>
            rw [hp] at hx
            exact ⟨r, x, hx, hnot, (Except.error.inj h).symm⟩
  obtain ⟨p, x, hx, hnot, rfl⟩ := hpath
  have hresolves := resolves_resolve d cwd noLoops p
  rw [hx] at hresolves
  cases hresolves with
  | flawed flaw =>
    rw [Path.isFlaw_of_flaw flaw] at hnot
    cases hnot
  | adrift => rfl
  | looped _ loop => cases loop

/-! ## One request -/

def serve (w : Writer) (d : Disk) (env : Environment) (loops : Path → Bool) : WriteRequest → WriteStep
  | .direct call => w.write d env call loops
  | .laidOut input content root now faults => w.writeFor d env input content root now faults loops

/-- What serving a request amounts to. -/
inductive Serves (w : Writer) (d : Disk) (env : Environment) (loops : Path → Bool) : Option WriteCall → WriteStep → Prop
  | write (call : WriteCall) (log : List Record) :
      Serves w d env loops (some call) { w.write d env call loops with log := log }
  | lost (e : FileError) : Serves w d env loops none ⟨w, d, [], .error e⟩

theorem serves_serve (w : Writer) (d : Disk) (env : Environment) (loops : Path → Bool) (request : WriteRequest) :
    Serves w d env loops (request.call? w d env.cwd loops) (w.serve d env loops request) := by
  cases request with
  | direct call => exact .write call (w.write d env call loops).log
  | laidOut input content root now faults =>
    simp only [serve, writeFor, WriteRequest.call?]
    cases w.outputFor d env.cwd input root loops with
    | error e => exact .lost e
    | ok out => exact .write _ _

theorem call?_eq_none_iff : request.call? w d env.cwd loops = none ↔ request.Astray d env.cwd loops := by
  cases request with
  | direct call => simp [WriteRequest.call?, WriteRequest.Astray]
  | laidOut input content root now faults =>
    rw [WriteRequest.Astray, ← outputFor_eq_error_iff (w := w), WriteRequest.call?]
    cases w.outputFor d env.cwd input root loops <;> simp

/-- The output for an input is written where the layout puts it. -/
theorem eq_of_call? {cwd : Loc} {input : Path} {content : Bytes} {root : Option Path} {now : WallTime} {faults : Faults}
    (h : (WriteRequest.laidOut input content root now faults).call? w d cwd loops = some call) :
    call = ⟨(w.outputPath cwd input root).1, content, some input, now, faults⟩ := by
  simp only [WriteRequest.call?] at h
  split at h
  · cases h
  · rename_i target _ hout
    have htarget : target = (w.outputPath cwd input root).1 := congrArg Prod.fst (eq_outputPath hout)
    rw [← htarget]
    exact (Option.some.inj h).symm

theorem proper_of_call? (henv : env.Proper) (hdir : w.dir.Settled) (h : request.Proper)
    (hcall : request.call? w d env.cwd loops = some call) : call.target.Proper := by
  cases request with
  | direct call' =>
    obtain rfl := Option.some.inj hcall
    exact h
  | laidOut input _ root _ _ =>
    rw [eq_of_call? hcall]
    exact (outputPath_absolute henv hdir h root).2

/-! ## All requests -/

/-- One request of a sequence: what it found, what it came to and what it left. -/
structure Service where
  before : Disk
  request : WriteRequest
  call? : Option WriteCall
  step : WriteStep

def Service.turn? (s : Service) : Option Turn := s.call?.map fun call => ⟨s.before, call, s.step⟩

def serveAll (env : Environment) (loops : Path → Bool) : Writer → Disk → List WriteRequest → List Service
  | _, _, [] => []
  | w, d, request :: requests =>
    let step := w.serve d env loops request
    ⟨d, request, request.call? w d env.cwd loops, step⟩ :: serveAll env loops step.writer step.disk requests

def lastWriter (w : Writer) : List Service → Writer
  | [] => w
  | s :: services => lastWriter s.step.writer services

def turns (services : List Service) : List Turn := services.filterMap Service.turn?

theorem map_request_serveAll (w : Writer) (d : Disk) (requests : List WriteRequest) :
    (serveAll env loops w d requests).map (·.request) = requests := by
  induction requests generalizing w d with
  | nil => rfl
  | cons request requests ih => rw [serveAll, List.map_cons, ih]

/-- What one request keeps for those after it. -/
theorem keeps_serve (d : Disk) (loops : Path → Bool) (henv : env.Proper) (hdir : w.dir.Settled) (h : request.Proper) :
    (w.serve d env loops request).writer.dir.Settled ∧ (d.Tree → (w.serve d env loops request).disk.Tree) ∧
      ∀ l, d.get? l = some .dir → (w.serve d env loops request).disk.get? l = some .dir := by
  have hserves := serves_serve w d env loops request
  have hproper (call : WriteCall) : request.call? w d env.cwd loops = some call → call.target.Proper :=
    proper_of_call? henv hdir h
  generalize request.call? w d env.cwd loops = call? at hserves hproper
  generalize w.serve d env loops request = step at hserves ⊢
  cases hserves with
  | write call =>
    have hcall := hproper call rfl
    exact ⟨(dir_write henv hcall).symm ▸ hdir, tree_write w henv hcall, fun l => dir_kept_write henv hcall⟩
  | lost => exact ⟨hdir, id, fun _ => id⟩

/-- What holds of every request of a sequence that starts with `d`. -/
structure Served (env : Environment) (loops : Path → Bool) (d : Disk) (s : Service) : Prop where
  tree : s.before.Tree
  proper : s.request.Proper
  since : ∀ l, d.get? l = some .dir → s.before.get? l = some .dir
  step_eq : ∃ w : Writer, w.dir.Settled ∧ s.call? = s.request.call? w s.before env.cwd loops ∧
    s.step = w.serve s.before env loops s.request

variable {s : Service} {t : Turn}

theorem served_of_mem (henv : env.Proper) (hrequests : ∀ request ∈ requests, request.Proper) (hdir : w.dir.Settled)
    (hd : d.Tree) (hs : s ∈ serveAll env loops w d requests) : Served env loops d s := by
  induction requests generalizing w d with
  | nil => cases hs
  | cons request requests ih =>
    rw [List.forall_mem_cons] at hrequests
    obtain ⟨hdir', htree, hdirs⟩ := keeps_serve d loops henv hdir hrequests.1
    rcases List.mem_cons.mp hs with rfl | hs
    · exact ⟨hd, hrequests.1, fun _ => id, w, hdir, rfl, rfl⟩
    · have hrest := ih hrequests.2 hdir' (htree hd) hs
      exact { hrest with since := fun l hl => hrest.since l (hdirs l hl) }

/-- A request that came to no write failed and left the disk alone. -/
theorem Served.lost (h : Served env loops d s) (hcall : s.call? = none) :
    (∃ e, s.step.result = .error e) ∧ s.step.disk = s.before := by
  obtain ⟨w, -, hcall', hstep⟩ := h.step_eq
  have hserves := serves_serve w s.before env loops s.request
  rw [← hcall', ← hstep, hcall] at hserves
  generalize s.step = step at hserves
  cases hserves with
  | lost e => exact ⟨⟨e, rfl⟩, rfl⟩

/-- A request that came to a write did a proper one. -/
theorem Served.write (h : Served env loops d s) (henv : env.Proper) (ht : s.turn? = some t) :
    t.before.Tree ∧ t.call.target.Proper ∧ ∃ w : Writer, t.step.result = (w.write t.before env t.call loops).result := by
  obtain ⟨call, hcall, rfl⟩ := Option.map_eq_some_iff.mp ht
  obtain ⟨w, hdir, hcall', hstep⟩ := h.step_eq
  rw [hcall] at hcall'
  refine ⟨h.tree, proper_of_call? henv hdir h.proper hcall'.symm, w, ?_⟩
  have hserves := serves_serve w s.before env loops s.request
  rw [← hcall', ← hstep] at hserves
  dsimp only
  generalize s.step = step at hserves
  cases hserves
  rfl

end Writer

end JsonnetLocals
