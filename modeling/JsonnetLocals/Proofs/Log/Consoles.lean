/-
  JsonnetLocals.Proofs.Log.Consoles — how often a record is shown.

  After any calls that ask for loggers or set them up, the calls alone tell which loggers have
  handlers (`LogCall.owners`), and each of these owners has one for the console (`Shows`; for one call
  `LogWorld.shows_serve`, for a run `LogWorld.shows_run`). A record is shown for the owners on its
  way up (`Shows.countP_handlersFor`). So every record is shown at most once if no owner is above
  another, and only then (`LogWorld.shown_once_iff`).

  Asking for a logger looks upwards only, and setting one up does not look at all, so a logger may
  become an owner above another. In the program it does: the parts ask for their loggers before that
  of the whole is set up, and what they log is shown twice (`LogWorld.shown_twice_set_up_last`).
-/

import JsonnetLocals.Proofs.Log.Lineage
import Mathlib.Data.List.Perm.Subperm

namespace JsonnetLocals.Registry

variable {r : Registry} {name k b : Text} {owned : List Text}

/-! ## Who has a console handler -/

theorem reach_eq {loggers : List Logger} (h : ∀ l ∈ loggers, l.propagate = true) :
    reach loggers = loggers.flatMap Logger.handlers := by
  induction loggers with
  | nil => rfl
  | cons l rest ih =>
    rw [reach, if_pos (h l List.mem_cons_self), ih fun l hl => h l (List.mem_cons_of_mem _ hl)]
    rfl

theorem mem_cons_iff_of_owner (hin : name ∈ owned) : b ∈ name :: owned ↔ b ∈ owned := by
  constructor
  · intro hb
    rcases List.mem_cons.mp hb with rfl | hb
    · exact hin
    · exact hb
  · exact List.mem_cons_of_mem _

/-- What is asked of the names above a logger, when the logger itself is no owner. -/
theorem exists_owner_iff (hself : canonical name ∉ owned) :
    (∃ b ∈ canonical name :: above name, b ∈ owned) ↔ rootName ∈ owned ∨ ∃ m ∈ cuts name, canonical m ∈ owned := by
  constructor
  · rintro ⟨b, hb, hin⟩
    rcases List.mem_cons.mp hb with rfl | hb
    · exact absurd hin hself
    · rcases (mem_above_iff.mp hb).2 with hcut | rfl
      · exact .inr ⟨b, hcut, (canonical_of_mem_above hb).symm ▸ hin⟩
      · exact .inl hin
  · intro hfound
    by_cases hr : isRoot name
    · rw [canonical, if_pos hr] at hself
      rw [cuts_of_root hr] at hfound
      simp [hself] at hfound
    · have hr : isRoot name = false := by simpa using hr
      rcases hfound with hin | ⟨m, hm, hin⟩
      · exact ⟨_, List.mem_cons_of_mem _ (mem_above_of_root hr), hin⟩
      · exact ⟨_, List.mem_cons_of_mem _ (canonical_mem_above hr hm), hin⟩

/-- The registry when `owned` are the loggers that have handlers: each has one for the console, and
    maybe one for a file. Records pass every logger on their way, and no answer is kept. -/
structure Shows (r : Registry) (owned : List Text) : Prop where
  linked : r.Linked
  verdicts : r.verdicts = []
  propagates : ∀ k, (r.logger k).propagate = true
  console : ∀ k, canonical k ∈ owned → (r.logger k).handlers.countP Handler.isConsole = 1
  bare : ∀ k, canonical k ∉ owned → (r.logger k).handlers = []

namespace Shows

theorem handlers_eq_nil_iff (h : r.Shows owned) (k : Text) : (r.logger k).handlers = [] ↔ canonical k ∉ owned := by
  refine ⟨fun hnil hin => ?_, h.bare k⟩
  have := h.console k hin
  simp [hnil] at this

/-- Making a logger gives nobody a handler. -/
protected theorem touch (h : r.Shows owned) (name : Text) : (r.touch name).Shows owned := by
  refine ⟨h.linked.touch name, (h.linked.verdicts_touch name).trans h.verdicts, ?_, ?_, ?_⟩
  all_goals
    intro k
    obtain ⟨parent, hk⟩ := h.linked.logger_touch name k
    rw [hk]
  · exact h.propagates k
  · exact h.console k
  · exact h.bare k

theorem congr (h : r.Shows owned) {owned' : List Text} (hiff : ∀ x, x ∈ owned' ↔ x ∈ owned) : r.Shows owned' :=
  ⟨h.linked, h.verdicts, h.propagates, fun k hk => h.console k ((hiff _).mp hk),
    fun k hk => h.bare k fun hin => hk ((hiff _).mpr hin)⟩

theorem setOwnLevel (h : r.Shows owned) (name : Text) (level : LogLevel) : (r.setOwnLevel name level).Shows owned := by
  have ht := h.touch name
  have hk : ∀ k, ∃ own, (r.setOwnLevel name level).logger k = { (r.touch name).logger k with level := own } := by
    intro k
    have hu := logger_update r name k fun l => { l with level := some level }
    by_cases hc : canonical k = canonical name
    · exact ⟨some level, hu.trans (if_pos hc)⟩
    · exact ⟨_, hu.trans (if_neg hc)⟩
  have hlinked : (r.update name fun l => { l with level := some level }).Linked := h.linked.update name fun _ => rfl
  refine ⟨hlinked.of_parents rfl rfl fun k _ => rfl, rfl, ?_, ?_, ?_⟩
  all_goals
    intro k
    obtain ⟨own, hk⟩ := hk k
    rw [hk]
  · exact ht.propagates k
  · exact ht.console k
  · exact ht.bare k

/-- A handler more, with which the logger has one for the console. -/
theorem addHandler (h : r.Shows owned) (name : Text) (handler : Handler)
    (hone : ((r.logger name).handlers ++ [handler]).countP Handler.isConsole = 1) :
    (r.addHandler name handler).Shows (canonical name :: owned) := by
  have ht := h.touch name
  have hlogger : ∀ k, (r.addHandler name handler).logger k = if canonical k = canonical name then
      { (r.touch name).logger k with handlers := ((r.touch name).logger k).handlers ++ [handler] }
      else (r.touch name).logger k := fun k => logger_update r name k _
  refine ⟨h.linked.update name fun _ => rfl, ?_, ?_, ?_, ?_⟩
  · exact (verdicts_setLogger _ _ _).trans ht.verdicts
  all_goals
    intro k
    rw [hlogger]
    by_cases hk : canonical k = canonical name
  · rw [if_pos hk]
    exact ht.propagates k
  · rw [if_neg hk]
    exact ht.propagates k
  · rw [if_pos hk, logger_congr _ hk]
    obtain ⟨parent, hname⟩ := h.linked.logger_touch name name
    rw [hname]
    exact fun _ => hone
  · rw [if_neg hk]
    exact fun hin => ht.console k ((List.mem_cons.mp hin).resolve_left hk)
  · exact fun hout => absurd (hk ▸ List.mem_cons_self) hout
  · rw [if_neg hk]
    exact fun hout => ht.bare k fun hin => hout (List.mem_cons_of_mem _ hin)

/-- Whether or not the logger had a console handler, it has one. -/
theorem setupConsole (h : r.Shows owned) (name : Text) (level : LogLevel) :
    (r.setupConsole name level).Shows (canonical name :: owned) := by
  have hl := h.setOwnLevel name level
  unfold Registry.setupConsole
  by_cases hin : canonical name ∈ owned
  · have hany : ((r.setOwnLevel name level).logger name).handlers.any Handler.isConsole = true := by
      have hone := hl.console name hin
      rw [List.any_eq_true]
      exact List.countP_pos_iff.mp (by omega)
    simp only [hany, if_true]
    exact hl.congr fun x => mem_cons_iff_of_owner hin
  · have hnil := hl.bare name hin
    simp only [hnil, List.any_nil, Bool.false_eq_true, if_false]
    exact hl.addHandler name _ (by simp [hnil, Handler.isConsole])

/-! ## Asking for a logger -/

theorem seekHandlers (h : r.Shows owned) (names : List Text) :
    (r.seekHandlers names).1.Shows owned ∧
      ((r.seekHandlers names).2 = true ↔ rootName ∈ owned ∨ ∃ m ∈ names, canonical m ∈ owned) := by
  induction names generalizing r with
  | nil =>
    refine ⟨h, ?_⟩
    have hroot := h.handlers_eq_nil_iff rootName
    rw [logger_of_root isRoot_rootName] at hroot
    have hc : canonical rootName = rootName := by simp [canonical]
    rw [hc] at hroot
    simp [Registry.seekHandlers, hroot]
  | cons m rest ih =>
    have ht := h.touch m
    unfold Registry.seekHandlers
    by_cases hm : canonical m ∈ owned
    · have hne : ((r.touch m).logger m).handlers ≠ [] := fun hnil => (ht.handlers_eq_nil_iff m).mp hnil hm
      simp [List.isEmpty_iff, hne, ht, hm]
    · have hnil := ht.bare m hm
      simp only [hnil, List.isEmpty_nil, if_true]
      refine ⟨(ih ht).1, (ih ht).2.trans ?_⟩
      simp [hm]

theorem handlersFor_eq (h : r.Shows owned) (name : Text) :
    r.handlersFor name = (r.route name).flatMap fun b => (r.logger b).handlers := by
  have hall : ∀ l ∈ (r.route name).map r.logger, l.propagate = true := by
    intro l hl
    obtain ⟨b, -, rfl⟩ := List.mem_map.mp hl
    exact h.propagates b
  unfold handlersFor chain
  rw [chainFrom_eq]
  exact (reach_eq hall).trans (List.flatMap_map _ _ _)

theorem hasHandlers_iff (h : r.Shows owned) (name : Text) :
    r.hasHandlers name = true ↔ ∃ b ∈ r.route name, b ∈ owned := by
  have hne : ∀ b ∈ r.route name, ((r.logger b).handlers = [] ↔ b ∉ owned) := by
    intro b hb
    rw [h.handlers_eq_nil_iff, h.linked.canonical_of_mem_route hb]
  unfold hasHandlers
  rw [h.handlersFor_eq, Bool.not_eq_true', ← Bool.not_eq_true, List.isEmpty_iff, List.flatMap_eq_nil_iff]
  constructor
  · intro hsome
    by_contra hnone
    exact hsome fun b hb => (hne b hb).mpr fun hin => hnone ⟨b, hb, hin⟩
  · rintro ⟨b, hb, hin⟩ hnone
    exact (hne b hb).mp (hnone b hb) hin

/-- A logger that is asked for becomes an owner only if neither it nor a name above is one. -/
theorem request (h : r.Shows owned) (name : Text) :
    (r.request name).Shows (if ∃ b ∈ canonical name :: above name, b ∈ owned then owned else canonical name :: owned) := by
  have ht := h.touch name
  unfold Registry.request
  by_cases hhas : (r.touch name).hasHandlers name
  · obtain ⟨b, hb, hin⟩ := (ht.hasHandlers_iff name).mp hhas
    have hown : ∃ b ∈ canonical name :: above name, b ∈ owned :=
      ⟨b, List.mem_cons.mpr (ht.linked.mem_routeFrom _ _ hb), hin⟩
    rw [if_pos hown]
    simp only [hhas, if_true]
    exact ht
  · have hself : canonical name ∉ owned := fun hin =>
      hhas ((ht.hasHandlers_iff name).mpr ⟨_, canonical_mem_route _ name, hin⟩)
    obtain ⟨hs, hfound⟩ := ht.seekHandlers (cuts name)
    simp only [hhas, if_false, Bool.false_eq_true]
    rw [← exists_owner_iff hself] at hfound
    generalize (r.touch name).seekHandlers (cuts name) = sought at hs hfound
    obtain ⟨s, found⟩ := sought
    cases found with
    | true =>
      rw [if_pos (hfound.mp rfl)]
      exact hs
    | false =>
      rw [if_neg fun hown => by simpa using hfound.mpr hown]
      exact hs.setupConsole name .info

/-! ## Showing a record -/

theorem countP_handlersFor (h : r.Shows owned) (name : Text) :
    (r.handlersFor name).countP Handler.isConsole = (r.route name).countP (· ∈ owned) := by
  have hroute : ∀ b ∈ r.route name, canonical b = b := fun b hb => h.linked.canonical_of_mem_route hb
  rw [h.handlersFor_eq]
  generalize r.route name = names at hroute
  induction names with
  | nil => rfl
  | cons b rest ih =>
    obtain ⟨hb, hrest⟩ := List.forall_mem_cons.mp hroute
    rw [List.flatMap_cons, List.countP_append, ih hrest, List.countP_cons, Nat.add_comm]
    by_cases hin : b ∈ owned
    · simp [hin, h.console b (hb.symm ▸ hin)]
    · simp [hin, h.bare b (hb.symm ▸ hin)]

end Shows

theorem chainFrom_verdicts (r : Registry) (v : List ((Text × LogLevel) × Bool)) (n : Nat) (name : Text) :
    ({ r with verdicts := v } : Registry).chainFrom n name = r.chainFrom n name := by
  induction n generalizing name with
  | zero => rfl
  | succ n ih =>
    unfold chainFrom
    simp only [ih]
    rfl

theorem handlersFor_verdicts (r : Registry) (v : List ((Text × LogLevel) × Bool)) (name : Text) :
    ({ r with verdicts := v } : Registry).handlersFor name = r.handlersFor name := by
  rw [handlersFor, chain, chainFrom_verdicts]
  rfl

def showsAt (level : LogLevel) (handler : Handler) : Bool :=
  handler.isConsole && decide (handler.level.value ≤ level.value)

theorem length_handle (rec : Record) (acc : Registry × List Text) (handler : Handler) :
    (handle rec acc handler).2.length = acc.2.length + if showsAt rec.level handler then 1 else 0 := by
  unfold handle showsAt
  by_cases hl : rec.level.value < handler.level.value
  · have hle : ¬ handler.level.value ≤ rec.level.value := by omega
    simp [hl, hle]
  · have hle : handler.level.value ≤ rec.level.value := by omega
    cases handler with
    | console level => simp [hl, hle, Handler.isConsole]
    | file level place =>
      simp only [hl, if_false, Handler.isConsole, Bool.false_and, Bool.false_eq_true, Nat.add_zero]
      by_cases hw : (if isRoot rec.logger then { rec with logger := rootName } else rec : Record).isWritable
      · simp [hw]
      · simp [hw]

theorem length_foldl_handle (rec : Record) (acc : Registry × List Text) (handlers : List Handler) :
    (handlers.foldl (handle rec) acc).2.length = acc.2.length + handlers.countP (showsAt rec.level) := by
  induction handlers generalizing acc with
  | nil => rfl
  | cons handler rest ih =>
    rw [List.foldl_cons, ih, length_handle, List.countP_cons]
    omega

theorem judge_eq (r : Registry) (name : Text) (level : LogLevel) :
    ∃ v passes, r.judge name level = ({ r with verdicts := v }, passes) := by
  unfold judge
  dsimp only
  split
  · exact ⟨r.verdicts, _, rfl⟩
  · exact ⟨_, _, rfl⟩

/-- What a record shows: nothing, one bare line, or a line for each handler on its way. -/
theorem length_log_le (r : Registry) (rec : Record) :
    (r.log rec).2.length ≤
      max 1 (((r.touch rec.logger).handlersFor rec.logger).countP Handler.isConsole) := by
  obtain ⟨v, passes, hj⟩ := judge_eq (r.touch rec.logger) rec.logger rec.level
  unfold log
  rw [hj]
  cases passes with
  | false => simp
  | true =>
    simp only [handlersFor_verdicts]
    cases (r.touch rec.logger).handlersFor rec.logger with
    | nil =>
      dsimp only
      split <;> simp
    | cons handler rest =>
      have hle : (handler :: rest).countP (showsAt rec.level) ≤ (handler :: rest).countP Handler.isConsole :=
        List.countP_mono_left fun x _ hx => (Bool.and_eq_true_iff.mp hx).1
      simp only [length_foldl_handle, List.length_nil, Nat.zero_add]
      exact hle.trans (Nat.le_max_right _ _)

theorem value_le_critical (level : LogLevel) : level.value ≤ LogLevel.critical.value := by cases level <;> decide

/-- A critical record passes every logger and every handler. -/
theorem le_length_log_critical (hv : (r.touch name).verdicts = []) (message : Text) :
    ((r.touch name).handlersFor name).countP Handler.isConsole ≤ (r.log ⟨name, .critical, message⟩).2.length := by
  obtain ⟨v, passes, hj⟩ := judge_eq (r.touch name) name .critical
  obtain rfl : true = passes := by
    have hpass : ((r.touch name).judge name .critical).2 = true := by simp [judge, hv, value_le_critical]
    rwa [hj, eq_comm] at hpass
  unfold log
  simp only [hj, handlersFor_verdicts]
  cases (r.touch name).handlersFor name with
  | nil => simp
  | cons handler rest =>
    have hall : (handler :: rest).countP (showsAt .critical) = (handler :: rest).countP Handler.isConsole :=
      List.countP_congr fun x _ => by simp [showsAt, value_le_critical]
    simp only [length_foldl_handle, List.length_nil, Nat.zero_add, hall, Nat.le_refl]

/-! ## Owners apart -/

/-- No owner is above another. -/
def Apart (owned : List Text) : Prop := ∀ a ∈ owned, ∀ b ∈ above a, b ∉ owned

instance (owned : List Text) : Decidable (Apart owned) :=
  inferInstanceAs (Decidable (∀ a ∈ owned, ∀ b ∈ above a, b ∉ owned))

theorem Apart.countP_le_one (h : Apart owned) {names : List Text} (hup : names.Pairwise fun a b => b ∈ above a) :
    names.countP (· ∈ owned) ≤ 1 := by
  induction names with
  | nil => simp
  | cons a rest ih =>
    obtain ⟨ha, hrest⟩ := List.pairwise_cons.mp hup
    by_cases hin : a ∈ owned
    · have hnone : rest.countP (· ∈ owned) = 0 :=
        List.countP_eq_zero.mpr fun b hb => by simpa using h a hin b (ha b hb)
      simp [hin, hnone]
    · simpa [hin] using ih hrest

theorem two_le_countP {names : List Text} {a b : Text} (ha : a ∈ names) (hb : b ∈ names) (hne : a ≠ b)
    (hao : a ∈ owned) (hbo : b ∈ owned) : 2 ≤ names.countP (· ∈ owned) := by
  have hsub : [a, b].Subperm (names.filter (· ∈ owned)) := by
    refine List.Nodup.subperm (by simp [hne]) ?_
    intro x hx
    rcases List.mem_pair.mp hx with rfl | rfl
    · simp [ha, hao]
    · simp [hb, hbo]
  rw [List.countP_eq_length_filter]
  exact hsub.length_le

namespace Shows

/-- No record is shown twice while no owner is above another. -/
theorem length_log_le_one (h : r.Shows owned) (hapart : Apart owned) (rec : Record) : (r.log rec).2.length ≤ 1 := by
  have ht := h.touch rec.logger
  refine (length_log_le r rec).trans (max_le (Nat.le_refl 1) ?_)
  rw [ht.countP_handlersFor]
  exact hapart.countP_le_one (ht.linked.pairwise_routeFrom _ _)

theorem made_of_mem (h : r.Shows owned) (hr : isRoot name = false) (hin : name ∈ owned) : r.made name = true := by
  by_contra hn
  have hc : canonical name = name := by simp [canonical, hr]
  refine (h.handlers_eq_nil_iff name).mp ?_ (hc.symm ▸ hin)
  rw [logger_of_not_made hr (by simpa using hn)]
  rfl

/-- A critical record of an owner is shown for it and for every owner above. -/
theorem two_le_length_log (h : r.Shows owned) (hplain : Plain name) (hin : name ∈ owned) (hb : b ∈ above name)
    (hbo : b ∈ owned) (message : Text) : 2 ≤ (r.log ⟨name, .critical, message⟩).2.length := by
  have hr : isRoot name = false := (mem_above_iff.mp hb).1
  have ht := h.touch name
  refine le_trans ?_ (le_length_log_critical ht.verdicts message)
  rw [ht.countP_handlersFor]
  have hself : name ∈ (r.touch name).route name := self_mem_routeFrom _ hr (Nat.le_refl _)
  by_cases hroot : isRoot b
  · obtain rfl : b = rootName := by
      rw [← canonical_of_mem_above hb, canonical, if_pos hroot]
    have hne : name ≠ rootName := fun e => by simp [e, isRoot_rootName] at hr
    exact two_le_countP hself (rootName_mem_routeFrom _ _ _) hne hin hbo
  · have hbr : isRoot b = false := by simpa using hroot
    have hcut : b ∈ cuts name := (mem_above_iff.mp hb).2.resolve_right fun e => by simp [e, isRoot_rootName] at hbr
    have hne : name ≠ b := fun e => absurd (length_lt_of_mem_cuts hcut) (by simp [e])
    have hway : b ∈ (r.touch name).route name :=
      ht.linked.mem_routeFrom_of_mem_cuts (Nat.le_refl _) hplain (ht.made_of_mem hr hin) hcut (ht.made_of_mem hbr hbo)
    exact two_le_countP hself hway hne hin hbo

end Shows

/-! ## Runs of calls -/

/-- Before any logger is asked for or set up. -/
def blank : Registry := ⟨⟨some .warning, [], true, none⟩, [], [], [], []⟩

theorem shows_blank : blank.Shows [] := by
  have hmade : ∀ k, blank.made k = false := fun k => rfl
  have hlogger : ∀ k, (blank.logger k).propagate = true ∧ (blank.logger k).handlers = [] := by
    intro k
    by_cases hk : isRoot k
    · simp [logger, hk, blank]
    · simp [logger, hk, blank, Logger.fresh]
  refine ⟨⟨?_, ?_, ?_, ?_, ?_⟩, rfl, fun k => (hlogger k).1, ?_, fun k _ => (hlogger k).2⟩
  · simp [hmade]
  · simp [waiting, blank]
  · simp [hmade]
  · simp [hmade]
  · simp [hmade]
  · simp

end Registry

open Registry

inductive LogCall where
  | get (name : Text)
  | setup (name level : Text) (file : Option Path)

namespace LogCall

def name : LogCall → Text
  | get name => name
  | setup name _ _ => name

/-- The owners after a call. A logger that is set up becomes one; one that is asked for, if neither
    it nor a name above is. -/
def owners (owned : List Text) : LogCall → List Text
  | get name => if ∃ b ∈ canonical name :: above name, b ∈ owned then owned else canonical name :: owned
  | setup name level _ => if (LogLevel.ofName? level).isSome then canonical name :: owned else owned

theorem mem_owners {call : LogCall} {owned : List Text} {x : Text} (h : x ∈ call.owners owned) :
    x = canonical call.name ∨ x ∈ owned := by
  cases call with
  | get name =>
    simp only [owners] at h
    split at h
    · exact .inr h
    · exact List.mem_cons.mp h
  | setup name level file =>
    simp only [owners] at h
    split at h
    · exact List.mem_cons.mp h
    · exact .inr h

end LogCall

namespace LogWorld

variable {w : LogWorld} {owned : List Text}

def serve (cwd : Loc) (w : LogWorld) : LogCall → LogWorld
  | .get name => { w with registry := w.registry.request name }
  | .setup name level file => (w.setup cwd name level file).1

theorem shows_addFile (h : w.registry.Shows owned) (cwd : Loc) (name : Text) (p : Path) (level : Text)
    (hin : canonical name ∈ owned) : (w.addFile cwd name p level).1.registry.Shows owned := by
  unfold addFile
  cases levelOf level with
  | error e => exact h
  | ok l =>
    dsimp only
    obtain ⟨d, opened⟩ := openLog w.disk cwd p
    cases opened with
    | error e => exact h
    | ok place =>
      have hone := h.console name hin
      have hmore := h.addHandler name (.file l place) (by simpa [Handler.isConsole] using hone)
      exact hmore.congr fun x => (mem_cons_iff_of_owner hin).symm

theorem shows_setup (h : w.registry.Shows owned) (cwd : Loc) (name level : Text) (file : Option Path) :
    (w.setup cwd name level file).1.registry.Shows
      (if (LogLevel.ofName? level).isSome then canonical name :: owned else owned) := by
  unfold setup levelOf
  cases hl : LogLevel.ofName? level with
  | none => exact h
  | some l =>
    have hs := h.setupConsole name l
    simp only [Option.isSome_some, if_true]
    cases file with
    | none => exact hs
    | some p =>
      dsimp only
      split
      · exact hs
      · exact shows_addFile hs cwd name p _ List.mem_cons_self

/-- One call. -/
theorem shows_serve (h : w.registry.Shows owned) (cwd : Loc) (call : LogCall) :
    (w.serve cwd call).registry.Shows (call.owners owned) := by
  cases call with
  | get name => exact h.request name
  | setup name level file => exact shows_setup h cwd name level file

theorem shows_run (h : w.registry.Shows owned) (cwd : Loc) (calls : List LogCall) :
    (calls.foldl (serve cwd) w).registry.Shows (calls.foldl LogCall.owners owned) := by
  induction calls generalizing w owned with
  | nil => exact h
  | cons call rest ih => exact ih (shows_serve h cwd call)

theorem exists_call_of_mem_owners {calls : List LogCall} {x : Text} (h : x ∈ calls.foldl LogCall.owners owned) :
    x ∈ owned ∨ ∃ call ∈ calls, x = canonical call.name := by
  induction calls generalizing owned with
  | nil => exact .inl h
  | cons call rest ih =>
    rcases ih h with hin | ⟨c, hc, rfl⟩
    · rcases LogCall.mem_owners hin with rfl | hin
      · exact .inr ⟨call, List.mem_cons_self, rfl⟩
      · exact .inl hin
    · exact .inr ⟨c, List.mem_cons_of_mem _ hc, rfl⟩

theorem plain_of_mem_owners {calls : List LogCall} {a : Text} (hplain : ∀ call ∈ calls, Plain call.name)
    (ha : a ∈ calls.foldl LogCall.owners []) (hr : isRoot a = false) : Plain a := by
  rcases exists_call_of_mem_owners ha with hin | ⟨call, hcall, rfl⟩
  · simp at hin
  · unfold canonical at hr ⊢
    split
    · rename_i hroot
      simp [hroot, isRoot_rootName] at hr
    · exact hplain call hcall

/-- Every record is shown at most once if no owner is above another. The converse is for plain
    names: a record of another name may miss an owner above it. -/
theorem shown_once_iff (disk : Disk) (cwd : Loc) (calls : List LogCall) :
    (Apart (calls.foldl LogCall.owners []) →
      ∀ rec, ((calls.foldl (serve cwd) ⟨disk, .blank⟩).registry.log rec).2.length ≤ 1) ∧
    ((∀ call ∈ calls, Plain call.name) →
      (∀ rec, ((calls.foldl (serve cwd) ⟨disk, .blank⟩).registry.log rec).2.length ≤ 1) →
      Apart (calls.foldl LogCall.owners [])) := by
  have hrun := shows_run (w := ⟨disk, .blank⟩) shows_blank cwd calls
  constructor
  · intro hapart rec
    exact hrun.length_log_le_one hapart rec
  · intro hplain honce a ha b hb hbo
    have hpa := plain_of_mem_owners hplain ha (mem_above_iff.mp hb).1
    have htwo := hrun.two_le_length_log hpa ha hb hbo ""
    have hone := honce ⟨a, .critical, ""⟩
    omega

/-- The logger of the whole program is set up before its parts ask for theirs. -/
def setUpFirst : List LogCall := [.setup LoggerName.app "INFO" none, .get LoggerName.config, .get LoggerName.bundler]

theorem shown_once_set_up_first :
    (∀ rec, ((setUpFirst.foldl (serve []) ⟨⟨[], []⟩, .blank⟩).registry.log rec).2.length ≤ 1) ∧
      (∀ call ∈ setUpFirst, Plain call.name) ∧ Apart (setUpFirst.foldl LogCall.owners []) := by
  have hplain : ∀ call ∈ setUpFirst, Plain call.name := by decide +kernel
  have hapart : Apart (setUpFirst.foldl LogCall.owners []) := by decide +kernel
  have honce := (shown_once_iff ⟨[], []⟩ [] setUpFirst).1 hapart
  exact ⟨honce, hplain, (shown_once_iff ⟨[], []⟩ [] setUpFirst).2 hplain honce⟩

/-- The order of the program: four parts ask for their loggers (`Registry.start`), then the logger of
    the whole is set up. -/
def setUpLast : List LogCall :=
  [.get LoggerName.config, .get LoggerName.renamer, .get LoggerName.bundler, .get LoggerName.reader,
    .setup LoggerName.app "INFO" none]

theorem shown_twice_set_up_last :
    ((setUpLast.foldl (serve []) ⟨⟨[], []⟩, .blank⟩).registry.log ⟨LoggerName.bundler, .warning, "m"⟩).2 =
      ["WARNING: m", "WARNING: m"] := by
  decide +kernel

end LogWorld

end JsonnetLocals
