/-
  JsonnetLocals.Proofs.Output.Statistics — what the counts of a writer tell.

  A write counts itself when it begins, and how it ended at the end of each of its ways, so what one write
  adds to the counts is what its outcome says (`Writer.accounts_write`). Accounts of turns that follow each
  other join (`Writer.Accounts.cons`), so after any sequence of requests the counts are those of the outcomes
  of its writes (`Writer.accounts_serveAll`). Every write returned a file, skipped or failed
  (`Turn.length_outcomes`).

  A result tells of a conflict when looking for the target found something. On a tree that is when something
  is at the place of the target (`Writer.resolution_eq_none_iff`), whatever the turns before have made there.
  `Writer.counts_match_writes` puts these together.

  A request that leads astray fails before it is a write, and no count tells of it:
    a writer for `/out` is asked for the output of `loop/a.jsonnet` with a root, where `loop` is a link to itself;
    the request fails, and the writer says that it was asked for nothing (`Writer.lost_request_is_not_counted`).
-/

import JsonnetLocals.Proofs.Output.Requests

namespace JsonnetLocals

namespace Turn

/-! ## Outcomes -/

/-- How the turn dealt with what was at its target. None also when it failed. -/
def resolution? (t : Turn) : Option Resolution :=
  match t.step.result with
  | .ok r => r.resolution
  | .error _ => none

def isSkipped (t : Turn) : Bool :=
  match t.step.result with
  | .ok r => r.output.isNone
  | .error _ => false

def isFailed (t : Turn) : Bool :=
  match t.step.result with
  | .ok _ => false
  | .error _ => true

/-- Every turn wrote a file, was skipped or failed. -/
theorem length_outcomes (turns : List Turn) :
    (turns.filterMap output?).length + turns.countP isSkipped + turns.countP isFailed = turns.length := by
  induction turns with
  | nil => rfl
  | cons t turns ih =>
    rw [List.filterMap_cons, List.countP_cons, List.countP_cons, List.length_cons]
    unfold output? isSkipped isFailed at *
    cases t.step.result with
    | error e =>
      simp only [Bool.false_eq_true, if_false, if_true]
      omega
    | ok r =>
      cases hr : r.output with
      | none =>
        simp only [hr, Option.isNone_none, Bool.false_eq_true, if_false, if_true]
        omega
      | some p =>
        simp only [hr, Option.isNone_some, Bool.false_eq_true, if_false, List.length_cons]
        omega

end Turn

namespace Writer

open Disk

variable {d : Disk} {w w' w'' : Writer} {env : Environment} {loops : Path → Bool} {call : WriteCall}
  {requests : List WriteRequest} {r : Written} {t : Turn} {ts : List Turn}

/-! ## Counts -/

/-- The counts of the second writer are those of the first and the outcomes of the turns. -/
structure Accounts (ts : List Turn) (w w' : Writer) : Prop where
  total : w'.total = w.total + ts.length
  successful : w'.successful = w.successful + (ts.filterMap Turn.output?).length
  skipped : w'.skipped = w.skipped + ts.countP Turn.isSkipped
  written : w'.written = w.written ++ ts.filterMap Turn.output?
  overwritten : w'.overwritten = w.overwritten + ts.countP fun t => t.resolution? = some .overwritten
  renamed : w'.renamed = w.renamed + ts.countP fun t => t.resolution? = some .renamed

theorem Accounts.nil (w : Writer) : Accounts [] w w := ⟨rfl, rfl, rfl, (List.append_nil _).symm, rfl, rfl⟩

theorem Accounts.cons (h : Accounts [t] w w') (hs : Accounts ts w' w'') : Accounts (t :: ts) w w'' := by
  have hsplit : t :: ts = [t] ++ ts := rfl
  constructor
  · rw [hs.total, h.total, hsplit, List.length_append, Nat.add_assoc]
  · rw [hs.successful, h.successful, hsplit, List.filterMap_append, List.length_append, Nat.add_assoc]
  · rw [hs.skipped, h.skipped, hsplit, List.countP_append, Nat.add_assoc]
  · rw [hs.written, h.written, hsplit, List.filterMap_append, List.append_assoc]
  · rw [hs.overwritten, h.overwritten, hsplit, List.countP_append, Nat.add_assoc]
  · rw [hs.renamed, h.renamed, hsplit, List.countP_append, Nat.add_assoc]

/-- What one write adds to the counts is what its outcome says. What else was logged does not matter. -/
theorem accounts_write (henv : env.Proper) (hcall : call.target.Proper) (log : List Record) :
    Accounts [⟨d, call, { w.write d env call loops with log := log }⟩] w (w.write d env call loops).writer := by
  have hcourse := course_write henv hcall w d loops
  generalize w.write d env call loops = step at hcourse ⊢
  cases hcourse with
  | refused => exact ⟨rfl, rfl, rfl, (List.append_nil _).symm, rfl, rfl⟩
  | skipped => exact ⟨rfl, rfl, rfl, (List.append_nil _).symm, rfl, rfl⟩
  | failed => exact ⟨rfl, rfl, rfl, (List.append_nil _).symm, rfl, rfl⟩
  | written _ choice _ => cases choice <;> exact ⟨rfl, rfl, rfl, rfl, rfl, rfl⟩

theorem accounts_serveAll (henv : env.Proper) (hrequests : ∀ request ∈ requests, request.Proper) (hdir : w.dir.Settled) :
    Accounts (turns (serveAll env loops w d requests)) w (lastWriter w (serveAll env loops w d requests)) := by
  induction requests generalizing w d with
  | nil => exact .nil w
  | cons request requests ih =>
    rw [List.forall_mem_cons] at hrequests
    have hrest := ih (d := (w.serve d env loops request).disk) hrequests.2
      (keeps_serve d loops henv hdir hrequests.1).1
    have hproper (call : WriteCall) : request.call? w d env.cwd loops = some call → call.target.Proper :=
      proper_of_call? henv hdir hrequests.1
    have hserves := serves_serve w d env loops request
    rw [serveAll, lastWriter, turns, List.filterMap_cons, Service.turn?]
    dsimp only
    generalize request.call? w d env.cwd loops = call? at hserves hproper
    generalize w.serve d env loops request = step at hserves hrest
    cases hserves with
    | write call log => exact (accounts_write henv (hproper call rfl) log).cons hrest
    -- nothing was counted, and nothing is in the list of writes
    | lost => exact hrest

/-! ## Conflicts -/

/-- A write that returns looked for its target, and tells of no conflict when it found nothing. -/
theorem find_of_write (hok : (w.write d env call loops).result = .ok r) :
    ∃ target found, call.target.normalize env = .ok target ∧ d.find env.cwd target = .ok found ∧
      (r.resolution = none ↔ found = none) := by
  have hput {w : Writer} {output : Path} {resolution : Option Resolution} {notes : List Record}
      (h : (w.put d env.cwd call output resolution notes).result = .ok r) : r.resolution = resolution := by
    unfold put at h
    split at h
    · cases h
    · cases h
      rfl
  unfold write at hok
  dsimp only at hok
  split at hok
  · cases hok
  · rename_i target hnormal
    have hn := eq_normalize hnormal
    split at hok
    · cases hok
    · rename_i hfind
      exact ⟨target, none, hn, hfind, iff_of_true (hput hok) rfl⟩
    · rename_i e hfind
      refine ⟨target, some e, hn, hfind, iff_of_false ?_ (Option.some_ne_none e)⟩
      split at hok
      · cases hok
      · split at hok
        · cases hok
        · cases hok
          exact Option.some_ne_none _
        · rw [hput hok]
          exact Option.some_ne_none _

/-- A write that tells of no conflict went to the target as it is. -/
theorem fits_of_resolution_eq_none {target : Path} (henv : env.Proper) (hcall : call.target.Proper)
    (hn : call.target.normalize env = .ok target) (hok : (w.write d env call loops).result = .ok r) (hr : r.resolution = none) :
    target.Fits := by
  have hcourse := course_write henv hcall w d loops
  generalize w.write d env call loops = step at hcourse hok
  cases hcourse with
  | refused => cases hok
  | skipped =>
    cases hok
    cases hr
  | failed => cases hok
  | written normal choice ending =>
    cases hok
    obtain rfl := Except.ok.inj (hn.symm.trans normal)
    cases choice with
    | free => exact ending.fits
    | renamed => cases hr
    | overwritten => cases hr

/-- A result tells of no conflict exactly when nothing was at the target. -/
theorem resolution_eq_none_iff (henv : env.Proper) (hcall : call.target.Proper) (hd : d.Tree)
    (hok : (w.write d env call loops).result = .ok r) :
    ∃ target, call.target.normalize env = .ok target ∧
      (r.resolution = none ↔ d.get? (target.place env.cwd) = none) := by
  obtain ⟨target, found, hn, hfind, hres⟩ := find_of_write hok
  have ht := Path.settled_normalize henv hcall hn
  refine ⟨target, hn, ?_⟩
  cases found with
  | none =>
    have hnone := hres.mpr rfl
    have hfits := fits_of_resolution_eq_none henv hcall hn hok hnone
    exact iff_of_true hnone (hd.get?_eq_none ht hfits hfind)
  | some e =>
    obtain ⟨l, hl, he⟩ := stat_eq_ok_iff.mp (find_eq_some_iff.mp hfind)
    obtain ⟨rfl, -, -⟩ := (locate_eq_ok_iff ht).mp hl
    refine iff_of_false (fun h => Option.some_ne_none e (hres.mp h)) ?_
    rw [he]
    exact Option.some_ne_none e

/-! ## A sequence of requests -/

/-- The counts of a writer are those of the outcomes of the turns. -/
structure Matches (w : Writer) (ts : List Turn) : Prop where
  total : w.total = ts.length
  outcomes : w.successful + w.skipped + ts.countP Turn.isFailed = w.total
  written : w.written = ts.filterMap Turn.output?
  successful : w.successful = w.written.length
  skipped : w.skipped = ts.countP Turn.isSkipped
  overwritten : w.overwritten = ts.countP fun t => t.resolution? = some .overwritten
  renamed : w.renamed = ts.countP fun t => t.resolution? = some .renamed

/-- Counts that begin with none match the outcomes. -/
theorem Accounts.matches_of_start {dir : Path} {strategy : ConflictStrategy} (h : Accounts ts w w')
    (hstart : w = start dir strategy) : Matches w' ts := by
  subst hstart
  have htotal : w'.total = ts.length := h.total.trans (Nat.zero_add _)
  have hsuccessful : w'.successful = (ts.filterMap Turn.output?).length := h.successful.trans (Nat.zero_add _)
  have hskipped : w'.skipped = ts.countP Turn.isSkipped := h.skipped.trans (Nat.zero_add _)
  have hwritten : w'.written = ts.filterMap Turn.output? := h.written.trans (List.nil_append _)
  refine ⟨htotal, ?_, hwritten, ?_, hskipped, h.overwritten.trans (Nat.zero_add _), h.renamed.trans (Nat.zero_add _)⟩
  · rw [htotal, hsuccessful, hskipped]
    exact Turn.length_outcomes ts
  · rw [hwritten, hsuccessful]

/-- A request leads astray only without a working directory or with links. -/
theorem not_astray {cwd : Loc} {request : WriteRequest} (hcwd : d.get? cwd = some .dir) (hloops : ∀ p, loops p = false) :
    ¬ request.Astray d cwd loops := by
  have hpath (p : Path) : ¬ p.Astray d cwd loops := by
    rintro ⟨-, hgone | hloop⟩
    · unfold isAdrift at hgone
      rw [hcwd] at hgone
      cases hp : p.anchor <;> rw [hp] at hgone <;> cases hgone
    · rw [hloops p] at hloop
      cases hloop
  cases request with
  | direct => exact id
  | laidOut =>
    rintro ⟨r, -, hinput | ⟨-, hroot⟩⟩
    · exact hpath _ hinput
    · exact hpath _ hroot

/-- After any sequence of requests to a writer that was just made, its counts are those of the outcomes of the
    writes. These are all requests but those that lead astray, which fail and leave the disk alone. So every request is
    counted just when none leads astray, and none does on a disk without links that has the working directory. A result
    tells of no conflict exactly when nothing was at its target before its turn. -/
theorem counts_match_writes {dir : Path} {strategy : ConflictStrategy} (henv : env.Proper) (hdir : dir.Proper)
    (hmake : make env dir strategy = .ok w) (hd : d.Tree) (hrequests : ∀ request ∈ requests, request.Proper) :
    (serveAll env loops w d requests).map (·.request) = requests ∧
      Matches (lastWriter w (serveAll env loops w d requests)) (turns (serveAll env loops w d requests)) ∧
      (∀ s ∈ serveAll env loops w d requests,
        (s.turn? = none ↔ s.request.Astray s.before env.cwd loops) ∧
          (s.turn? = none → (∃ e, s.step.result = .error e) ∧ s.step.disk = s.before)) ∧
      ((lastWriter w (serveAll env loops w d requests)).total = requests.length ↔
        ∀ s ∈ serveAll env loops w d requests, ¬ s.request.Astray s.before env.cwd loops) ∧
      (d.get? env.cwd = some .dir → (∀ p, loops p = false) →
        (lastWriter w (serveAll env loops w d requests)).total = requests.length) ∧
      ∀ t ∈ turns (serveAll env loops w d requests), ∀ r, t.step.result = .ok r →
        ∃ target, t.call.target.normalize env = .ok target ∧
          (r.resolution = none ↔ t.before.get? (target.place env.cwd) = none) := by
  obtain ⟨hsettled, hstart⟩ := eq_start_of_make henv hdir hmake
  have hserved (s : Service) (hs : s ∈ serveAll env loops w d requests) : Served env loops d s :=
    served_of_mem henv hrequests hsettled hd hs
  have hmatches : Matches (lastWriter w (serveAll env loops w d requests)) (turns (serveAll env loops w d requests)) :=
    (accounts_serveAll henv hrequests hsettled).matches_of_start hstart
  have hmap : (serveAll env loops w d requests).map (·.request) = requests := map_request_serveAll w d requests
  have hnone (s : Service) (hs : s ∈ serveAll env loops w d requests) :
      s.turn? = none ↔ s.request.Astray s.before env.cwd loops := by
    obtain ⟨w', -, hcall, -⟩ := (hserved s hs).step_eq
    rw [Service.turn?, Option.map_eq_none_iff, hcall, call?_eq_none_iff]
  have htotal : (lastWriter w (serveAll env loops w d requests)).total = requests.length ↔
      ∀ s ∈ serveAll env loops w d requests, ¬ s.request.Astray s.before env.cwd loops := by
    rw [hmatches.total, ← congrArg List.length hmap, List.length_map, turns, List.filterMap_length_eq_length]
    refine forall₂_congr fun s hs => ?_
    rw [← hnone s hs, Option.isSome_iff_ne_none]
  refine ⟨hmap, hmatches, fun s hs => ⟨hnone s hs, fun h => ?_⟩, htotal, fun hcwd hloops => ?_, fun t ht r hok => ?_⟩
  · exact (hserved s hs).lost (Option.map_eq_none_iff.mp h)
  · exact htotal.mpr fun s hs => not_astray ((hserved s hs).since env.cwd hcwd) hloops
  · obtain ⟨s, hs, hturn⟩ := List.mem_filterMap.mp ht
    obtain ⟨tree, proper, w', hresult⟩ := (hserved s hs).write henv hturn
    exact resolution_eq_none_iff henv proper tree (hresult ▸ hok)

/-- Links that lead from `loop` back to itself. -/
def throughLoop (p : Path) : Bool := p.parts.contains "loop"

/-- To write to `/out/a.jsonnet`, and outputs for three inputs. The second cannot be moved into place, the third not be
    looked up. -/
def fourRequests : List WriteRequest :=
  [.direct (oneByte .none), .laidOut (Path.ofText "/src/b.jsonnet") [0x63] none (oneByte .none).now .none,
    .laidOut (Path.ofText "/src/c.jsonnet") [0x64] (some (Path.ofText "/src")) (oneByte .none).now ⟨true, false⟩,
    .laidOut (Path.ofText "/src/loop/d.jsonnet") [0x65] (some (Path.ofText "/src")) (oneByte .none).now .none]

def fourServices : List Service :=
  serveAll atTop throughLoop (start (Path.ofText "/out") .skip) (withA (fileOf [0x62])) fourRequests

theorem counts_match_writes_of_each :
    (turns fourServices).map Turn.isSkipped = [true, false, false] ∧
      (turns fourServices).map Turn.isFailed = [false, false, true] ∧ fourServices.length = 4 ∧
      Matches (lastWriter (start (Path.ofText "/out") .skip) fourServices) (turns fourServices) ∧
      ∀ t ∈ turns fourServices, ∀ r, t.step.result = .ok r →
        ∃ target, t.call.target.normalize atTop = .ok target ∧
          (r.resolution = none ↔ t.before.get? (target.place atTop.cwd) = none) := by
  have hrequests : ∀ request ∈ fourRequests, request.Proper := by
    simp only [fourRequests, List.forall_mem_cons]
    exact ⟨proper_oneByte _, Path.proper_ofText _, Path.proper_ofText _, Path.proper_ofText _, List.forall_mem_nil _⟩
  have hmake : make atTop (Path.ofText "/out") .skip = .ok (start (Path.ofText "/out") .skip) := rfl
  have htree : (withA (fileOf [0x62])).Tree := by decide
  obtain ⟨-, hmatches, -, -, -, hconflicts⟩ :=
    counts_match_writes proper_atTop (Path.proper_ofText "/out") hmake htree hrequests
  exact ⟨rfl, rfl, rfl, hmatches, hconflicts⟩

def oneOutput (cwd : Loc) (input : Text) : List Service :=
  serveAll ⟨cwd, "/", []⟩ throughLoop (start (Path.ofText "/out") .overwrite) (withA .dir)
    [.laidOut (Path.ofText input) [0x31] (some (Path.ofText "/src")) (oneByte .none).now .none]

/-- A request that runs into a loop of links fails and is not counted, nor is one from a working directory that is gone. -/
theorem lost_request_is_not_counted :
    (oneOutput [] "loop/a.jsonnet").map (·.step.result) = [.error (.badPath (.linkLoop "/loop/a.jsonnet"))] ∧
      (lastWriter (start (Path.ofText "/out") .overwrite) (oneOutput [] "loop/a.jsonnet")).total = 0 ∧
      (oneOutput ["gone"] "a.jsonnet").map (·.step.result) = [.error (.badPath .noWorkingDirectory)] ∧
      (lastWriter (start (Path.ofText "/out") .overwrite) (oneOutput ["gone"] "a.jsonnet")).total = 0 :=
  ⟨rfl, rfl, rfl, rfl⟩

end Writer

end JsonnetLocals
