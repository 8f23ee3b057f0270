/-
  JsonnetLocals.Proofs.Output.Sequence — writes one after another.

  Without overwriting, a write keeps whatever is on the disk (`Writer.keeps_write`), and a file that it
  writes is at a place that was empty (`Writer.landing_write`). So along any sequence of writes nothing is
  ever lost, and under `rename` every write that succeeds has a place of its own
  (`Writer.nothing_is_lost`).
-/

import JsonnetLocals.Proofs.Output.Effects

namespace JsonnetLocals

/-- One write of a sequence: what it found, what it was asked and what it left. -/
structure Turn where
  before : Disk
  call : WriteCall
  step : WriteStep

namespace Turn

def output? (t : Turn) : Option Path :=
  match t.step.result with
  | .ok r => r.output
  | .error _ => none

def lastDisk (d : Disk) : List Turn → Disk
  | [] => d
  | t :: turns => lastDisk t.step.disk turns

end Turn

namespace Writer

open Disk

variable {d : Disk} {w : Writer} {env : Environment} {call : WriteCall} {calls : List WriteCall} {p : Path} {t : Turn}

def writeAll (env : Environment) : Writer → Disk → List WriteCall → List Turn
  | _, _, [] => []
  | w, d, call :: calls =>
    let step := w.write d env call
    ⟨d, call, step⟩ :: writeAll env step.writer step.disk calls

/-! ## One write -/

/-- A file that was written where nothing was, beside the target. -/
structure Landing (env : Environment) (t : Turn) (p : Path) : Prop where
  beside : ∃ target, t.call.target.normalize env = .ok target ∧ p.parent = target.parent
  absent : t.before.pathExists env.cwd p = .ok false
  empty : t.before.get? (p.place env.cwd) = none
  holds : t.step.disk.contents env.cwd p = .ok t.call.content

theorem landing_write (henv : env.Proper) (hcall : call.target.Proper) (hd : d.Tree) (hs : w.strategy ≠ .overwrite)
    (hp : Turn.output? ⟨d, call, w.write d env call⟩ = some p) : Landing env ⟨d, call, w.write d env call⟩ p := by
  have hcourse := course_write henv hcall w d
  generalize w.write d env call = step at hcourse hp ⊢
  cases hcourse with
  | refused => cases hp
  | skipped => cases hp
  | failed => cases hp
  | @written target output _ _ _ _ normal choice ending =>
    obtain rfl : output = p := Option.some.inj hp
    have ht := Path.settled_normalize henv hcall normal
    have hempty := choice.get?_eq_none hd ht hs ending.fits
    have hwrote := ending.wrote (choice.settled ht) (by rw [hempty]; simp)
    refine ⟨⟨target, normal, choice.parent_eq ht⟩, ?_, hempty, hwrote.holds⟩
    rw [pathExists, choice.find_eq_none ht hs]
    rfl

/-- Under `rename` a write that succeeds has written a file. -/
theorem output?_ne_none (henv : env.Proper) (hcall : call.target.Proper) (hs : w.strategy = .rename) {r : Written}
    (hok : (w.write d env call).result = .ok r) : r.output ≠ none := by
  have hcourse := course_write henv hcall w d
  generalize w.write d env call = step at hcourse hok
  cases hcourse with
  | refused => cases hok
  | skipped strategy =>
    rw [hs] at strategy
    cases strategy
  | failed => cases hok
  | written =>
    cases hok
    simp

/-! ## All writes -/

/-- What holds of every turn of a sequence that starts with `d`. -/
structure Along (env : Environment) (strategy : ConflictStrategy) (d last : Disk) (calls : List WriteCall) (t : Turn) :
    Prop where
  step_eq : ∃ w : Writer, w.strategy = strategy ∧ t.step = w.write t.before env t.call
  asked : t.call ∈ calls
  tree : t.before.Tree
  since : Keeps d t.before
  till : Keeps t.step.disk last

theorem keeps_lastDisk (henv : env.Proper) (hcalls : ∀ call ∈ calls, call.target.Proper) (hd : d.Tree)
    (hs : w.strategy ≠ .overwrite) : Keeps d (Turn.lastDisk d (writeAll env w d calls)) := by
  induction calls generalizing w d with
  | nil => exact .refl d
  | cons call calls ih =>
    rw [List.forall_mem_cons] at hcalls
    exact (keeps_write henv hcalls.1 hd hs).trans
      (ih hcalls.2 (tree_write w henv hcalls.1 hd) (by rwa [strategy_write henv hcalls.1]))

theorem along_writeAll (henv : env.Proper) (hcalls : ∀ call ∈ calls, call.target.Proper) (hd : d.Tree)
    (hs : w.strategy ≠ .overwrite) (ht : t ∈ writeAll env w d calls) :
    Along env w.strategy d (Turn.lastDisk d (writeAll env w d calls)) calls t := by
  induction calls generalizing w d with
  | nil => cases ht
  | cons call calls ih =>
    rw [List.forall_mem_cons] at hcalls
    have hstrategy : (w.write d env call).writer.strategy = w.strategy := strategy_write henv hcalls.1
    have htree : (w.write d env call).disk.Tree := tree_write w henv hcalls.1 hd
    have hs' : (w.write d env call).writer.strategy ≠ .overwrite := by rwa [hstrategy]
    rcases List.mem_cons.mp ht with rfl | ht
    · exact ⟨⟨w, rfl, rfl⟩, List.mem_cons_self, hd, .refl d, keeps_lastDisk henv hcalls.2 htree hs'⟩
    · have hrest := ih hcalls.2 htree hs' ht
      refine ⟨hstrategy ▸ hrest.step_eq, List.mem_cons_of_mem call hrest.asked, hrest.tree, ?_, hrest.till⟩
      exact (keeps_write henv hcalls.1 hd hs).trans hrest.since

theorem pairwise_keeps (henv : env.Proper) (hcalls : ∀ call ∈ calls, call.target.Proper) (hd : d.Tree)
    (hs : w.strategy ≠ .overwrite) : (d :: (writeAll env w d calls).map (·.step.disk)).Pairwise Keeps := by
  induction calls generalizing w d with
  | nil => exact List.pairwise_singleton _ d
  | cons call calls ih =>
    rw [List.forall_mem_cons] at hcalls
    have hkeeps := keeps_write henv hcalls.1 hd hs
    have hs' : (w.write d env call).writer.strategy ≠ .overwrite := by rwa [strategy_write henv hcalls.1]
    have htree : (w.write d env call).disk.Tree := tree_write w henv hcalls.1 hd
    have hrest := ih hcalls.2 htree hs'
    refine List.pairwise_cons.mpr ⟨?_, hrest⟩
    intro d' hd'
    rcases List.mem_cons.mp hd' with rfl | hd'
    · exact hkeeps
    · exact hkeeps.trans ((List.pairwise_cons.mp hrest).1 d' hd')

theorem Along.landing {strategy : ConflictStrategy} {last : Disk} (h : Along env strategy d last calls t)
    (henv : env.Proper) (hcalls : ∀ call ∈ calls, call.target.Proper) (hs : strategy ≠ .overwrite) (hp : t.output? = some p) :
    Landing env t p := by
  obtain ⟨w, rfl, hstep⟩ := h.step_eq
  have ht : t = ⟨t.before, t.call, w.write t.before env t.call⟩ := by rw [← hstep]
  rw [ht] at hp ⊢
  exact landing_write henv (hcalls t.call h.asked) h.tree hs hp

/-- Two files that were written are at two places. -/
theorem pairwise_places (henv : env.Proper) (hcalls : ∀ call ∈ calls, call.target.Proper) (hd : d.Tree)
    (hs : w.strategy ≠ .overwrite) :
    ((writeAll env w d calls).filterMap Turn.output?).Pairwise fun p q => p.place env.cwd ≠ q.place env.cwd := by
  induction calls generalizing w d with
  | nil => exact List.Pairwise.nil
  | cons call calls ih =>
    rw [List.forall_mem_cons] at hcalls
    have htree : (w.write d env call).disk.Tree := tree_write w henv hcalls.1 hd
    have hs' : (w.write d env call).writer.strategy ≠ .overwrite := by rwa [strategy_write henv hcalls.1]
    have hrest := ih hcalls.2 htree hs'
    rw [writeAll, List.filterMap_cons]
    split
    · exact hrest
    · rename_i p hp
      refine List.pairwise_cons.mpr ⟨?_, hrest⟩
      intro q hq heq
      obtain ⟨u, hu, hq⟩ := List.mem_filterMap.mp hq
      -- what this turn wrote is there when the later one looks for a place
      have halong := along_writeAll henv hcalls.2 htree hs' hu
      have hlater := halong.landing henv hcalls.2 hs' hq
      have hfirst := landing_write henv hcalls.1 hd hs hp
      obtain ⟨l, hl, hfile⟩ := contents_eq_ok_iff.mp hfirst.holds
      have hplace : l = p.place env.cwd := locate_eq_place henv hl
      have hthere := halong.since l _ (fileAt_eq_some_iff.mp hfile)
      rw [hplace, heq, hlater.empty] at hthere
      cases hthere

/-- The search for a free name ends at the first candidate that is not taken. -/
def SearchEnds (d : Disk) (cwd : Loc) (target : Path) (now : WallTime) : Prop :=
  ∃ n, (∀ m < n, d.pathExists cwd (candidate target now m) = .ok true) ∧
    d.pathExists cwd (candidate target now n) ≠ .ok true ∧
    freeName d cwd target now = (d.pathExists cwd (candidate target now n)).map fun _ => candidate target now n

/-- Without overwriting, nothing that is on the disk or that was written is ever lost. Under `rename` every
    write that succeeds has a place of its own, which was empty, in the directory of its target. -/
theorem nothing_is_lost (henv : env.Proper) (hd : d.Tree) (hcalls : ∀ call ∈ calls, call.target.Proper)
    (hs : w.strategy ≠ .overwrite) :
    (d :: (writeAll env w d calls).map (·.step.disk)).Pairwise Keeps ∧
      (∀ t ∈ writeAll env w d calls, ∀ p, t.output? = some p →
        (Turn.lastDisk d (writeAll env w d calls)).contents env.cwd p = .ok t.call.content) ∧
      (w.strategy = .rename →
        (∀ t ∈ writeAll env w d calls, ∀ r, t.step.result = .ok r → ∃ p, r.output = some p ∧ Landing env t p) ∧
        ((writeAll env w d calls).filterMap Turn.output?).Pairwise (fun p q => p.place env.cwd ≠ q.place env.cwd) ∧
        ∀ t ∈ writeAll env w d calls, ∀ target, t.call.target.normalize env = .ok target →
          SearchEnds t.before env.cwd target t.call.now) := by
  have halong (t : Turn) (ht : t ∈ writeAll env w d calls) := along_writeAll henv hcalls hd hs ht
  refine ⟨pairwise_keeps henv hcalls hd hs, ?_, fun hrename => ⟨?_, pairwise_places henv hcalls hd hs, ?_⟩⟩
  · intro t ht p hp
    exact (halong t ht).till.contents ((halong t ht).landing henv hcalls hs hp).holds
  · intro t ht r hok
    obtain ⟨w', hw', hstep⟩ := (halong t ht).step_eq
    have hne := output?_ne_none henv (hcalls t.call (halong t ht).asked) (hw'.trans hrename) (hstep ▸ hok)
    obtain ⟨p, hp⟩ := Option.ne_none_iff_exists'.mp hne
    refine ⟨p, hp, (halong t ht).landing henv hcalls hs ?_⟩
    rw [Turn.output?, hok]
    exact hp
  · intro t ht target hn
    have hsettled := Path.settled_normalize henv (hcalls t.call (halong t ht).asked) hn
    obtain ⟨n, -, hsearch⟩ := freeName_eq hsettled t.before env.cwd t.call.now
    exact ⟨n, hsearch⟩

theorem nothing_is_lost_in_one_second :
    ((writeAll atTop (start (Path.ofText "/out") .rename) (withA (fileOf [0x62]))
        [oneByte .none, oneByte ⟨true, true⟩, oneByte .none]).filterMap Turn.output?).Pairwise
      (fun p q => p.place [] ≠ q.place []) :=
  have hcalls : ∀ call ∈ [oneByte .none, oneByte ⟨true, true⟩, oneByte .none], call.target.Proper := by
    simp only [List.forall_mem_cons]
    exact ⟨proper_oneByte _, proper_oneByte _, proper_oneByte _, List.forall_mem_nil _⟩
  ((nothing_is_lost proper_atTop (by decide) hcalls (by decide)).2.2 rfl).2.1

end Writer

end JsonnetLocals
