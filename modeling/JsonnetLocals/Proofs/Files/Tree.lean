/-
  JsonnetLocals.Proofs.Files.Tree — what the operations on files do to a tree of files.

  A disk is a tree when whatever is on it lies in a directory (`Disk.Tree`). Following a settled path ends
  at its place if the way to it is made of directories and the path is not too long
  (`Disk.locate_eq_ok_iff`). Making a directory adds directories on the way to it and nothing else
  (`Disk.MakesWay`), and when it succeeds the way is there (`Disk.made_ensureDir`). Putting and erasing a
  file keep a tree a tree (`Disk.Tree.put`, `Disk.Tree.erase`).
-/

import JsonnetLocals.Proofs.Files.Place
import Mathlib.Data.List.Infix

namespace JsonnetLocals

/-- A path that the system takes: it has bytes, and neither it nor a name of it is too long. -/
structure Path.Fits (p : Path) : Prop where
  flawless : Path.nameFlaw 0 p.text = none
  path : p.text.nameSize ≤ Disk.maxPath
  names : ∀ t ∈ p.parts, t.nameSize ≤ Disk.maxName

/-! ## Ways -/

theorem Loc.prefix_or_eq {k l : Loc} (h : k <+: l) : k = l ∨ k <+: l.dropLast := by
  rcases List.eq_nil_or_concat l with rfl | ⟨l, t, rfl⟩
  · exact .inl (List.prefix_nil.mp h)
  · rw [List.concat_eq_append] at h ⊢
    rw [List.dropLast_concat]
    exact (List.prefix_concat_iff.mp h).imp id id

/-- A place is not on the way to itself. -/
theorem Loc.not_prefix_dropLast {l : Loc} (h : l ≠ []) : ¬ l <+: l.dropLast := by
  intro hle
  have hlen := hle.length_le
  have hpos := List.length_pos_iff.mpr h
  rw [List.length_dropLast] at hlen
  omega

/-- Whatever goes on from a place, and is not that place, is in a directory that goes on from it. -/
theorem Loc.prefix_dropLast {top l : Loc} (hle : top <+: l) (h : l = top → top = []) : top <+: l.dropLast := by
  rcases Loc.prefix_or_eq hle with heq | hle
  · rw [h heq.symm]
    exact List.nil_prefix
  · exact hle

def Loc.Inside (dir l : Loc) : Prop := dir <+: l ∧ l ≠ dir

theorem Loc.inside_iff {dir l : Loc} : Inside dir l ↔ l ≠ [] ∧ dir <+: l.dropLast := by
  constructor
  · rintro ⟨hle, hne⟩
    refine ⟨?_, (Loc.prefix_or_eq hle).resolve_left (Ne.symm hne)⟩
    rintro rfl
    exact hne (List.prefix_nil.mp hle).symm
  · rintro ⟨hne, hle⟩
    refine ⟨hle.trans (List.dropLast_prefix l), ?_⟩
    rintro rfl
    exact Loc.not_prefix_dropLast hne hle

theorem Loc.inside_concat (dir : Loc) (name : Text) : Inside dir (dir ++ [name]) :=
  ⟨List.prefix_append dir [name], by simp⟩

theorem Loc.Inside.above {dir top l : Loc} (h : Inside dir l) (hle : top <+: dir) : Inside top l := by
  rw [Loc.inside_iff] at h ⊢
  exact ⟨h.1, hle.trans h.2⟩

namespace Disk

variable {d d' : Disk} {cwd l k : Loc} {p : Path} {e : Entry}

/-- The place and all places on the way to it are directories. -/
def Opens (d : Disk) (l : Loc) : Prop := ∀ k, k <+: l → d.get? k = some .dir

/-- Whatever is on the disk lies in a directory. -/
def Tree (d : Disk) : Prop := ∀ l, d.get? l ≠ none → d.Opens l.dropLast

def fileAt (d : Disk) (l : Loc) : Option Bytes :=
  match d.get? l with
  | some (.file data) => some data.data.toList
  | _ => none

@[simp] theorem get?_nil (d : Disk) : d.get? [] = some .dir := if_pos rfl

theorem get?_put_of_ne (d : Disk) (hl : l ≠ []) (e : Entry) :
    (d.put l e).get? k = if k = l then some e else d.get? k := by
  by_cases hk : k = []
  · subst hk
    rw [get?_nil, get?_nil, if_neg (Ne.symm hl)]
  · rw [get?_put _ _ _ _ hk]
    simp only [beq_iff_eq]

theorem get?_erase_of_ne (d : Disk) (hl : l ≠ []) : (d.erase l).get? k = if k = l then none else d.get? k := by
  by_cases hk : k = []
  · subst hk
    rw [get?_nil, get?_nil, if_neg (Ne.symm hl)]
  · rw [get?_erase _ _ _ hk]
    simp only [beq_iff_eq]

theorem opens_nil (d : Disk) : d.Opens [] := by
  intro k hk
  rw [List.prefix_nil.mp hk]
  exact get?_nil d

theorem Opens.dropLast (h : d.Opens l) : d.Opens l.dropLast := fun k hk => h k (hk.trans (List.dropLast_prefix l))

theorem Opens.self (h : d.Opens l) : d.get? l = some .dir := h l List.prefix_rfl

theorem opens_of_dropLast (h : d.Opens l.dropLast) (hl : d.get? l = some .dir) : d.Opens l := by
  intro k hk
  rcases Loc.prefix_or_eq hk with rfl | hk
  · exact hl
  · exact h k hk

theorem Opens.mono (h : d.Opens l) (hd : ∀ k, d.get? k = some .dir → d'.get? k = some .dir) : d'.Opens l :=
  fun k hk => hd k (h k hk)

/-- Only what the disk lists is on it. -/
theorem mem_entries_of_get? (h : d.get? l = some e) (hl : l ≠ []) : l ∈ d.entries.map Prod.fst := by
  rw [get?, if_neg hl] at h
  obtain ⟨before, after, hsplit, -⟩ := List.lookup_eq_some_iff.mp h
  rw [hsplit, List.map_append, List.map_cons]
  exact List.mem_append_right _ List.mem_cons_self

theorem fileAt_eq_some_iff {content : Bytes} : d.fileAt l = some content ↔ d.get? l = some (fileOf content) := by
  unfold fileAt fileOf
  cases h : d.get? l with
  | none => simp
  | some e =>
    cases e with
    | dir => simp
    | file data =>
      simp only [Option.some.injEq, Entry.file.injEq]
      constructor
      · rintro rfl
        rfl
      · rintro rfl
        rfl

theorem fileAt_congr (h : d'.get? l = d.get? l) : d'.fileAt l = d.fileAt l := by rw [fileAt, fileAt, h]

/-! ## Following paths -/

theorem follow_eq_ok_iff {path : Text} {parts : List Text} (hp : ∀ t ∈ parts, t ≠ Path.up) :
    d.follow path l parts = .ok k ↔
      k = l ++ parts.map Text.storedName ∧ (∀ t ∈ parts, t.nameSize ≤ maxName) ∧
        ∀ us v vs, parts = us ++ v :: vs → d.get? (l ++ us.map Text.storedName) = some .dir := by
  induction parts generalizing l with
  | nil =>
    simp only [follow, Except.ok.injEq, List.map_nil, List.append_nil, List.not_mem_nil, false_imp_iff, implies_true,
      List.nil_eq_append_iff, reduceCtorEq, and_false, and_true]
    exact eq_comm
  | cons part parts ih =>
    rw [List.forall_mem_cons] at hp
    have hstep : Path.stepLoc l part.storedName = l ++ [part.storedName] :=
      if_neg fun e => hp.1 (Text.storedName_eq_up e)
    constructor
    · intro h
      rw [follow] at h
      split at h
      · cases h
      · cases h
      · rename_i hdir
        split at h
        · cases h
        · rename_i hsize
          rw [hstep, ih hp.2] at h
          obtain ⟨rfl, hnames, hway⟩ := h
          refine ⟨by simp, List.forall_mem_cons.mpr ⟨Nat.not_lt.mp hsize, hnames⟩, ?_⟩
          intro us v vs hsplit
          cases us with
          | nil =>
            rw [List.map_nil, List.append_nil]
            exact hdir
          | cons u us =>
            rw [List.cons_append, List.cons.injEq] at hsplit
            obtain ⟨rfl, hsplit⟩ := hsplit
            have := hway us v vs hsplit
            rwa [List.append_assoc] at this
    · rintro ⟨rfl, hnames, hway⟩
      rw [List.forall_mem_cons] at hnames
      have hdir : d.get? l = some .dir := by simpa using hway [] part parts rfl
      have hrest : d.follow path (l ++ [part.storedName]) parts = .ok (l ++ (part :: parts).map Text.storedName) := by
        rw [ih hp.2]
        refine ⟨by simp, hnames.2, ?_⟩
        intro us v vs hsplit
        have := hway (part :: us) v vs (by rw [hsplit]; rfl)
        rwa [List.map_cons, ← List.singleton_append, ← List.append_assoc] at this
      rw [follow, hdir]
      dsimp only
      rw [if_neg (Nat.not_lt.mpr hnames.1), hstep, hrest]

/-- A settled path leads to its place if there is a way to it and the path fits. -/
theorem locate_eq_ok_iff (hp : p.Settled) :
    d.locate cwd p = .ok l ↔ l = p.place cwd ∧ p.Fits ∧ d.Opens (p.place cwd).dropLast := by
  have hway : (∀ us v vs, p.parts = us ++ v :: vs → d.get? ([] ++ us.map Text.storedName) = some .dir) ↔
      d.Opens (p.place cwd).dropLast := by
    rw [hp.place_eq, ← List.map_dropLast]
    constructor
    · intro h k hk
      rcases List.eq_nil_or_concat p.parts with hnil | ⟨init, last, hlast⟩
      · rw [hnil] at hk
        rw [List.prefix_nil.mp hk]
        exact get?_nil d
      · rw [List.concat_eq_append] at hlast
        rw [hlast, List.dropLast_concat] at hk
        obtain ⟨us, ⟨ws, rfl⟩, rfl⟩ := List.prefix_map_iff.mp hk
        cases ws with
        | nil => exact h us last [] (by simp [hlast])
        | cons w ws => exact h us w (ws ++ [last]) (by simp [hlast])
    · intro h us v vs hsplit
      refine h _ ?_
      rw [hsplit, List.nil_append, List.dropLast_append_of_ne_nil (List.cons_ne_nil v vs), List.map_append]
      exact List.prefix_append _ _
  have hstart : (if p.anchor = .relative then cwd else []) = [] := if_neg (by rw [hp.anchor]; decide)
  unfold locate
  rw [hstart]
  constructor
  · intro h
    split at h
    · cases h
    · rename_i hflaw
      split at h
      · cases h
      · rename_i hsize
        rw [follow_eq_ok_iff fun t ht => (hp.parts t ht).2] at h
        exact ⟨h.1.trans (by rw [hp.place_eq]; rfl), ⟨hflaw, Nat.not_lt.mp hsize, h.2.1⟩, hway.mp h.2.2⟩
  · rintro ⟨rfl, hfits, hopens⟩
    rw [hfits.flawless]
    dsimp only
    rw [if_neg (Nat.not_lt.mpr hfits.path), follow_eq_ok_iff fun t ht => (hp.parts t ht).2]
    exact ⟨by rw [hp.place_eq]; rfl, hfits.names, hway.mpr hopens⟩

theorem follow_mono {path : Text} {parts : List Text} (hd : ∀ k, d.get? k = some .dir → d'.get? k = some .dir)
    (h : d.follow path l parts = .ok k) : d'.follow path l parts = .ok k := by
  induction parts generalizing l with
  | nil => exact h
  | cons part parts ih =>
    rw [follow] at h ⊢
    split at h
    · cases h
    · cases h
    · rename_i hdir
      rw [hd l hdir]
      dsimp only
      split at h
      · cases h
      · rename_i hsize
        rw [if_neg hsize]
        exact ih h

/-- A path that leads somewhere leads there as long as no directory is lost. -/
theorem locate_mono (hd : ∀ k, d.get? k = some .dir → d'.get? k = some .dir) (h : d.locate cwd p = .ok l) :
    d'.locate cwd p = .ok l := by
  unfold locate at h ⊢
  split at h
  · cases h
  · split at h
    · cases h
    · rename_i hsize
      rw [if_neg hsize]
      exact follow_mono hd h

theorem stat_eq_ok_iff : d.stat cwd p = .ok e ↔ ∃ l, d.locate cwd p = .ok l ∧ d.get? l = some e := by
  unfold stat
  cases d.locate cwd p with
  | error => simp
  | ok l => cases hl : d.get? l <;> simp [hl]

theorem find_eq_some_iff : d.find cwd p = .ok (some e) ↔ d.stat cwd p = .ok e := by
  unfold find
  cases d.stat cwd p with
  | error x => cases hx : x.isAbsence <;> simp [hx]
  | ok => simp

theorem contents_eq_ok_iff {content : Bytes} :
    d.contents cwd p = .ok content ↔ ∃ l, d.locate cwd p = .ok l ∧ d.fileAt l = some content := by
  unfold contents stat fileAt
  cases d.locate cwd p with
  | error => simp
  | ok l =>
    cases h : d.get? l with
    | none => simp [h]
    | some e => cases e <;> simp [h]

theorem isDir_eq_true_iff : d.isDir cwd p = true ↔ d.stat cwd p = .ok .dir := by
  unfold isDir
  cases h : d.stat cwd p with
  | error => simp
  | ok e => cases e <;> simp

theorem isDir_iff_opens (hp : p.Settled) : d.isDir cwd p = true ↔ p.Fits ∧ d.Opens (p.place cwd) := by
  rw [isDir_eq_true_iff, stat_eq_ok_iff]
  constructor
  · rintro ⟨l, hl, hdir⟩
    obtain ⟨rfl, hfits, hway⟩ := (locate_eq_ok_iff hp).mp hl
    exact ⟨hfits, opens_of_dropLast hway hdir⟩
  · rintro ⟨hfits, hopens⟩
    exact ⟨_, (locate_eq_ok_iff hp).mpr ⟨rfl, hfits, hopens.dropLast⟩, hopens.self⟩

/-- On a tree, a path that fits and leads to nothing has an empty place. -/
theorem Tree.get?_eq_none (ht : d.Tree) (hp : p.Settled) (hf : p.Fits) (h : d.find cwd p = .ok none) :
    d.get? (p.place cwd) = none := by
  by_contra hne
  obtain ⟨e, he⟩ := Option.ne_none_iff_exists'.mp hne
  have hstat : d.stat cwd p = .ok e :=
    stat_eq_ok_iff.mpr ⟨_, (locate_eq_ok_iff hp).mpr ⟨rfl, hf, ht _ hne⟩, he⟩
  rw [find_eq_some_iff.mpr hstat] at h
  cases h

/-! ## Changes -/

/-- Whatever is on the first disk is on the second. -/
def Keeps (d d' : Disk) : Prop := ∀ l e, d.get? l = some e → d'.get? l = some e

namespace Keeps

variable {d'' : Disk}

theorem refl (d : Disk) : Keeps d d := fun _ _ h => h

theorem trans (h : Keeps d d') (h' : Keeps d' d'') : Keeps d d'' := fun l e he => h' l e (h l e he)

theorem contents {content : Bytes} (h : Keeps d d') (hc : d.contents cwd p = .ok content) :
    d'.contents cwd p = .ok content := by
  obtain ⟨l, hl, hfile⟩ := contents_eq_ok_iff.mp hc
  refine contents_eq_ok_iff.mpr ⟨l, locate_mono (fun k => h k .dir) hl, ?_⟩
  exact fileAt_eq_some_iff.mpr (h l _ (fileAt_eq_some_iff.mp hfile))

theorem get?_eq_none (h : Keeps d d') (hl : d'.get? l = none) : d.get? l = none := by
  by_contra hne
  obtain ⟨e, he⟩ := Option.ne_none_iff_exists'.mp hne
  rw [h l e he] at hl
  cases hl

end Keeps

/-! ## Trees -/

theorem Tree.put (ht : d.Tree) (hl : l ≠ []) (hway : d.Opens l.dropLast) (he : d.get? l = some .dir → e = .dir) :
    (d.put l e).Tree := by
  intro k hk m hm
  rw [get?_put_of_ne d hl] at hk ⊢
  by_cases hkl : k = l
  · subst hkl
    have hmk : m ≠ k := by
      rintro rfl
      exact Loc.not_prefix_dropLast hl hm
    rw [if_neg hmk]
    exact hway m hm
  · rw [if_neg hkl] at hk
    have hdir := ht k hk m hm
    split
    · rename_i hml
      subst hml
      rw [he hdir]
    · exact hdir

theorem Tree.erase (ht : d.Tree) (hl : l ≠ []) (he : d.get? l ≠ some .dir) : (d.erase l).Tree := by
  intro k hk m hm
  rw [get?_erase_of_ne d hl] at hk ⊢
  split at hk
  · exact absurd rfl hk
  · have hdir := ht k hk m hm
    have hml : m ≠ l := by
      rintro rfl
      exact he hdir
    rw [if_neg hml]
    exact hdir

def Alike (d d' : Disk) : Prop := ∀ l, d'.get? l = d.get? l

theorem Tree.alike (ht : d.Tree) (h : Alike d d') : d'.Tree := by
  intro l hl k hk
  rw [h] at hl ⊢
  exact ht l hl k hk

/-- The second disk is the first with a file put where its directory was and no other one. -/
structure Puts (d d' : Disk) (l : Loc) (content : Bytes) : Prop where
  ne_nil : l ≠ []
  way : d.Opens l.dropLast
  not_dir : d.get? l ≠ some .dir
  alike : Alike (d.put l (fileOf content)) d'

namespace Puts

variable {content : Bytes}

theorem get?_eq (h : Puts d d' l content) (k : Loc) :
    d'.get? k = if k = l then some (fileOf content) else d.get? k := by
  rw [h.alike, get?_put_of_ne d h.ne_nil]

theorem get?_of_ne (h : Puts d d' l content) (hk : k ≠ l) : d'.get? k = d.get? k := by rw [h.get?_eq, if_neg hk]

theorem get?_self (h : Puts d d' l content) : d'.get? l = some (fileOf content) := by rw [h.get?_eq, if_pos rfl]

theorem fileAt_self (h : Puts d d' l content) : d'.fileAt l = some content := fileAt_eq_some_iff.mpr h.get?_self

theorem fileAt_eq (h : Puts d d' l content) (k : Loc) : d'.fileAt k = if k = l then some content else d.fileAt k := by
  split
  · rename_i hk
    rw [hk, h.fileAt_self]
  · rename_i hk
    exact fileAt_congr (h.get?_of_ne hk)

theorem tree (h : Puts d d' l content) (ht : d.Tree) : d'.Tree :=
  (ht.put h.ne_nil h.way fun hdir => absurd hdir h.not_dir).alike h.alike

/-- No directory is lost. -/
theorem dir_kept (h : Puts d d' l content) (hk : d.get? k = some .dir) : d'.get? k = some .dir := by
  rw [h.get?_of_ne (fun e => h.not_dir (e ▸ hk)), hk]

theorem keeps (h : Puts d d' l content) (hl : d.get? l = none) : Keeps d d' := by
  intro k e hk
  have hne : k ≠ l := by
    rintro rfl
    rw [hl] at hk
    cases hk
  rw [h.get?_of_ne hne, hk]

end Puts

/-- The second disk is the first, or the first with a file put at a place of which `P` holds. -/
def MayPut (P : Loc → Prop) (d d' : Disk) : Prop := Alike d d' ∨ ∃ l content, P l ∧ Puts d d' l content

namespace MayPut

variable {P : Loc → Prop}

theorem tree (h : MayPut P d d') (ht : d.Tree) : d'.Tree := by
  rcases h with h | ⟨l, content, -, h⟩
  · exact ht.alike h
  · exact h.tree ht

theorem dir_iff (h : MayPut P d d') : d'.get? k = some .dir ↔ d.get? k = some .dir := by
  rcases h with h | ⟨l, content, -, h⟩
  · rw [h]
  · refine ⟨fun hk => ?_, h.dir_kept⟩
    have hne : k ≠ l := by
      rintro rfl
      rw [h.get?_self] at hk
      cases hk
    rwa [h.get?_of_ne hne] at hk

/-- Where `P` does not hold nothing changes. -/
theorem get?_eq (h : MayPut P d d') (hk : ¬ P k) : d'.get? k = d.get? k := by
  rcases h with h | ⟨l, content, hl, h⟩
  · exact h k
  · exact h.get?_of_ne fun heq => hk (heq ▸ hl)

theorem keeps (h : MayPut P d d') (hP : ∀ l, P l → d.get? l = none) : Keeps d d' := by
  intro k e hk
  rw [h.get?_eq fun hp => ?_, hk]
  rw [hP k hp] at hk
  cases hk

end MayPut

/-- The path leads to a file with the content, and that is the only change of the files. -/
structure Wrote (d d' : Disk) (cwd : Loc) (p : Path) (content : Bytes) : Prop where
  holds : d'.contents cwd p = .ok content
  rest : ∀ l, l ≠ p.place cwd → d'.fileAt l = d.fileAt l

def isTree (d : Disk) : Bool :=
  d.entries.all fun entry => entry.1.dropLast.inits.all fun k =>
    match d.get? k with
    | some .dir => true
    | _ => false

theorem tree_iff_isTree : d.Tree ↔ d.isTree = true := by
  have hdir (k : Loc) : (match d.get? k with | some .dir => true | _ => false) = true ↔ d.get? k = some .dir := by
    cases d.get? k with
    | none => simp
    | some e => cases e <;> simp
  simp only [isTree, List.all_eq_true, List.mem_inits, hdir]
  constructor
  · intro h entry hentry k hk
    by_cases hnil : entry.1 = []
    · rw [hnil] at hk
      rw [List.prefix_nil.mp hk]
      exact get?_nil d
    · refine h entry.1 ?_ k hk
      rw [get?, if_neg hnil, Ne, List.lookup_eq_none_iff]
      intro hall
      simpa using hall entry hentry
  · intro h k hk
    by_cases hnil : k = []
    · subst hnil
      exact opens_nil d
    · obtain ⟨e, he⟩ := Option.ne_none_iff_exists'.mp hk
      obtain ⟨entry, hentry, rfl⟩ := List.mem_map.mp (mem_entries_of_get? he hnil)
      exact h entry hentry

instance (d : Disk) : Decidable d.Tree := decidable_of_iff _ tree_iff_isTree.symm

/-! ## Making directories -/

/-- The second disk is the first with directories added on the way to `l`. -/
def MakesWay (d d' : Disk) (l : Loc) : Prop :=
  ∀ k, d'.get? k = d.get? k ∨ d.get? k = none ∧ d'.get? k = some .dir ∧ k <+: l

namespace MakesWay

variable {d'' : Disk} {m : Loc}

theorem refl (d : Disk) (l : Loc) : MakesWay d d l := fun _ => .inl rfl

theorem trans (h : MakesWay d d' l) (h' : MakesWay d' d'' l) : MakesWay d d'' l := by
  intro k
  rcases h k with e | ⟨hnone, hdir, hk⟩
  · rcases h' k with e' | ⟨hnone', hdir', hk⟩
    · exact .inl (e'.trans e)
    · exact .inr ⟨e ▸ hnone', hdir', hk⟩
  · rcases h' k with e' | ⟨hnone', _⟩
    · exact .inr ⟨hnone, e'.trans hdir, hk⟩
    · rw [hdir] at hnone'
      cases hnone'

theorem mono (h : MakesWay d d' l) (hm : l <+: m) : MakesWay d d' m := fun k =>
  (h k).imp id fun ⟨hnone, hdir, hk⟩ => ⟨hnone, hdir, hk.trans hm⟩

theorem keeps (h : MakesWay d d' l) : Keeps d d' := by
  intro k e hk
  rcases h k with heq | ⟨hnone, _⟩
  · exact heq.trans hk
  · rw [hk] at hnone
    cases hnone

/-- What is new is on the way. -/
theorem prefix_of_new (h : MakesWay d d' l) (hnone : d.get? k = none) (hk : d'.get? k ≠ none) : k <+: l := by
  rcases h k with heq | ⟨-, -, hle⟩
  · exact absurd (heq.trans hnone) hk
  · exact hle

/-- Elsewhere nothing changes. -/
theorem get?_eq (h : MakesWay d d' l) (hk : ¬ k <+: l) : d'.get? k = d.get? k :=
  (h k).resolve_right fun hadded => hk hadded.2.2

theorem fileAt_eq (h : MakesWay d d' l) (k : Loc) : d'.fileAt k = d.fileAt k := by
  rcases h k with heq | ⟨hnone, hdir, _⟩
  · exact fileAt_congr heq
  · rw [fileAt, fileAt, hnone, hdir]

theorem opens (h : MakesWay d d' l) (ho : d.Opens k) : d'.Opens k := ho.mono fun k => h.keeps k .dir

theorem put_dir (hl : l ≠ []) (hnone : d.get? l = none) : MakesWay d (d.put l .dir) l := by
  intro k
  rw [get?_put_of_ne d hl]
  split
  · rename_i hk
    exact .inr ⟨hk ▸ hnone, rfl, hk ▸ List.prefix_rfl⟩
  · exact .inl rfl

end MakesWay

theorem makeDir_eq_ok (h : d.makeDir cwd p = .ok d') :
    ∃ l, d.locate cwd p = .ok l ∧ l ≠ [] ∧ d.get? l = none ∧ d' = d.put l .dir := by
  unfold makeDir at h
  split at h
  · cases h
  · rename_i l hl
    split at h
    · cases h
    · rename_i hnone
      cases h
      refine ⟨l, hl, ?_, hnone, rfl⟩
      rintro rfl
      rw [get?_nil] at hnone
      cases hnone

/-- What making a directory leaves, whether it succeeds or not. -/
structure Made (d d' : Disk) (p : Path) (cwd : Loc) (r : Except FileError Unit) : Prop where
  way : MakesWay d d' (p.place cwd)
  tree : d.Tree → d'.Tree
  opens : r = .ok () → d'.Opens (p.place cwd)

theorem made_of_makeDir (hp : p.Settled) (h : d.makeDir cwd p = .ok d') : Made d d' p cwd (.ok ()) := by
  obtain ⟨l, hl, hne, hnone, rfl⟩ := makeDir_eq_ok h
  obtain ⟨rfl, -, hway⟩ := (locate_eq_ok_iff hp).mp hl
  have hmakes := MakesWay.put_dir hne hnone
  refine ⟨hmakes, fun ht => ht.put hne hway fun _ => rfl, fun _ => ?_⟩
  exact opens_of_dropLast (hmakes.opens hway) (by rw [get?_put_of_ne d hne, if_pos rfl])

theorem made_of_isDir (hp : p.Settled) (h : d.isDir cwd p = true) : Made d d p cwd (.ok ()) :=
  ⟨.refl d _, id, fun _ => ((isDir_iff_opens hp).mp h).2⟩

theorem made_of_error (d : Disk) (p : Path) (cwd : Loc) (x : FileError) : Made d d p cwd (.error x) :=
  ⟨.refl d _, id, fun h => by cases h⟩

theorem made_of_settleDir (hp : p.Settled) (h : d.settleDir cwd p (d.makeDir cwd p) = .ok d') :
    Made d d' p cwd (.ok ()) := by
  unfold settleDir at h
  split at h
  · rename_i hmake
    cases h
    exact made_of_makeDir hp hmake
  · split at h
    · rename_i hdir
      cases h
      exact made_of_isDir hp hdir
    · cases h

theorem Made.after {d'' : Disk} {r r' : Except FileError Unit} {q : Path} (h : Made d d' q cwd r) (h' : Made d' d'' p cwd r')
    (hq : q.place cwd <+: p.place cwd) : Made d d'' p cwd r' :=
  ⟨(h.way.mono hq).trans h'.way, fun ht => h'.tree (h.tree ht), h'.opens⟩

theorem made_makeDirs (hp : p.Settled) {n : Nat} {r : Except FileError Unit} (h : d.makeDirs cwd p n = (d', r)) :
    Made d d' { p with parts := p.parts.take n } cwd r := by
  induction n generalizing d d' r with
  | zero =>
    rw [makeDirs, Prod.mk.injEq] at h
    obtain ⟨rfl, rfl⟩ := h
    -- the top is always there, so nothing is made
    refine ⟨.refl d _, id, fun _ => ?_⟩
    rw [(hp.take 0).place_eq]
    exact opens_nil d
  | succ n ih =>
    have hq : Path.Settled { p with parts := p.parts.take (n + 1) } := hp.take (n + 1)
    have hle : Path.place cwd { p with parts := p.parts.take n } <+:
        Path.place cwd { p with parts := p.parts.take (n + 1) } := by
      rw [(hp.take n).place_eq, hq.place_eq]
      exact (List.take_prefix_take_left (Nat.le_succ n)).map Text.storedName
    rw [makeDirs] at h
    split at h
    · rename_i d₁ hmake
      cases h
      exact made_of_makeDir hq hmake
    · split at h
      · rename_i x hmade
        cases h
        exact (ih hmade).after (made_of_error _ _ _ x) hle
      · rename_i hmade
        refine (ih hmade).after ?_ hle
        split at h
        · rename_i hsettle
          cases h
          exact made_of_settleDir hq hsettle
        · cases h
          exact made_of_error _ _ _ _
    · cases h
      split
      · rename_i hdir
        exact made_of_isDir hq hdir
      · exact made_of_error _ _ _ _

/-- Making a directory with the ones above it. -/
theorem made_ensureDir (hp : p.Settled) {r : Except FileError Unit} (h : d.ensureDir cwd p = (d', r)) :
    Made d d' p cwd r := by
  have hmade := made_makeDirs hp h
  rwa [List.take_length] at hmade

/-! ## Errors -/

section Errors

variable {x : FileError}

/-! Only a move fails as a move does. -/

theorem ne_moveFailed_of_follow {path : Text} {parts : List Text} (h : d.follow path l parts = .error x) :
    x ≠ .moveFailed := by
  induction parts generalizing l with
  | nil => cases h
  | cons part parts ih =>
    rw [follow] at h
    split at h
    · cases h
      simp
    · cases h
      simp
    · split at h
      · cases h
        simp
      · exact ih h

theorem ne_moveFailed_of_locate (h : d.locate cwd p = .error x) : x ≠ .moveFailed := by
  unfold locate at h
  split at h
  · cases h
    simp
  · split at h
    · cases h
      simp
    · exact ne_moveFailed_of_follow h

theorem ne_moveFailed_of_find (h : d.find cwd p = .error x) : x ≠ .moveFailed := by
  unfold find stat at h
  cases hl : d.locate cwd p with
  | error y =>
    rw [hl] at h
    dsimp only at h
    split at h
    · cases h
    · cases h
      exact ne_moveFailed_of_locate hl
  | ok l =>
    rw [hl] at h
    cases hg : d.get? l <;> simp [hg, FileError.isAbsence] at h

theorem ne_moveFailed_of_writeContents {content : Bytes} (h : d.writeContents cwd p content = .error x) :
    x ≠ .moveFailed := by
  unfold writeContents at h
  split at h
  · rename_i hl
    cases h
    exact ne_moveFailed_of_locate hl
  · split at h
    · cases h
      simp
    · cases h

theorem ne_moveFailed_of_makeDir (h : d.makeDir cwd p = .error x) : x ≠ .moveFailed := by
  unfold makeDir at h
  split at h
  · rename_i hl
    cases h
    exact ne_moveFailed_of_locate hl
  · split at h
    · cases h
      simp
    · cases h

theorem ne_moveFailed_of_settleDir (h : d.settleDir cwd p (d.makeDir cwd p) = .error x) : x ≠ .moveFailed := by
  unfold settleDir at h
  split at h
  · cases h
  · rename_i hmake
    split at h
    · cases h
    · cases h
      exact ne_moveFailed_of_makeDir hmake

theorem ne_moveFailed_of_makeDirs {n : Nat} (h : d.makeDirs cwd p n = (d', .error x)) : x ≠ .moveFailed := by
  induction n generalizing d d' with
  | zero =>
    rw [makeDirs, Prod.mk.injEq] at h
    cases hs : d.settleDir cwd { p with parts := [] } (d.makeDir cwd { p with parts := [] }) with
    | ok d₁ =>
      rw [hs] at h
      cases h.2
    | error y =>
      rw [hs] at h
      cases h.2
      exact ne_moveFailed_of_settleDir hs
  | succ n ih =>
    rw [makeDirs] at h
    split at h
    · cases h
    · split at h
      · rename_i hmade
        cases h
        exact ih hmade
      · split at h
        · cases h
        · rename_i hs
          cases h
          exact ne_moveFailed_of_settleDir hs
    · rename_i hmake
      split at h
      · cases h
      · cases h
        exact ne_moveFailed_of_makeDir hmake

end Errors

/-! ## Places that are denied -/

theorem denied_move (d : Disk) (src dst : Loc) : (d.move src dst).denied = d.denied := by
  unfold move
  split <;> rfl

theorem denied_makeDir (h : d.makeDir cwd p = .ok d') : d'.denied = d.denied := by
  obtain ⟨l, -, -, -, rfl⟩ := makeDir_eq_ok h
  rfl

theorem denied_settleDir (h : d.settleDir cwd p (d.makeDir cwd p) = .ok d') : d'.denied = d.denied := by
  unfold settleDir at h
  split at h
  · rename_i hmake
    cases h
    exact denied_makeDir hmake
  · split at h
    · cases h
      rfl
    · cases h

theorem denied_makeDirs (d : Disk) (cwd : Loc) (p : Path) (n : Nat) : (d.makeDirs cwd p n).1.denied = d.denied := by
  induction n with
  | zero => rfl
  | succ n ih =>
    rw [makeDirs]
    split
    · rename_i hmake
      exact denied_makeDir hmake
    · split
      · rename_i hmade
        rw [hmade] at ih
        exact ih
      · rename_i hmade
        rw [hmade] at ih
        split
        · rename_i hsettle
          exact (denied_settleDir hsettle).trans ih
        · exact ih
    · rfl

theorem denied_ensureDir (d : Disk) (cwd : Loc) (p : Path) : (d.ensureDir cwd p).1.denied = d.denied :=
  denied_makeDirs d cwd p _

end Disk

end JsonnetLocals
