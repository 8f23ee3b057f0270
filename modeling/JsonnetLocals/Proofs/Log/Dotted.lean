/-
  JsonnetLocals.Proofs.Log.Dotted — the names above a dotted name.

  The cuts of a name are the texts before its dots (`mem_cuts`): of two cuts the shorter is a cut of
  the other (`mem_cuts_of_length_lt`). `ancestors` lists cuts, longest first (`pairwise_ancestors`),
  and all of them where no two dots meet (`ancestors_eq_cuts`). With the root above them they are
  the names `above` a logger.
-/

import JsonnetLocals.Log.Registry
import Mathlib.Data.List.Infix
import Mathlib.Data.List.Pairwise
import Mathlib.Data.List.TakeWhile

namespace JsonnetLocals.Registry

variable {name k m p b : Text}

/-! ## Texts before a dot -/

theorem mem_cutsFrom {back : List Nat} :
    m ∈ cutsFrom back ↔ m.codes ≠ [] ∧ dot :: m.codes.reverse <:+ back := by
  fun_induction cutsFrom back with
  | case1 => simp
  | case2 c => cases hm : m.codes <;> simp [List.suffix_cons_iff]
  | case3 d before ih =>
    have hcons : dot :: m.codes.reverse <:+ dot :: d :: before ↔
        dot :: m.codes.reverse = dot :: d :: before ∨ dot :: m.codes.reverse <:+ d :: before :=
      List.suffix_cons_iff
    rw [List.mem_cons, ih, hcons]
    constructor
    · rintro (rfl | ⟨hne, hsuf⟩)
      · exact ⟨by simp, .inl (by simp)⟩
      · exact ⟨hne, .inr hsuf⟩
    · rintro ⟨hne, heq | hsuf⟩
      · obtain ⟨codes⟩ := m
        have : codes = (d :: before).reverse := List.reverse_eq_iff.mp (List.cons.inj heq).2
        exact .inl (by rw [this])
      · exact .inr ⟨hne, hsuf⟩
  | case4 c d before hc ih =>
    rw [ih]
    refine and_congr_right fun _ => ⟨fun hsuf => hsuf.trans (List.suffix_cons _ _), fun hsuf => ?_⟩
    rcases List.suffix_cons_iff.mp hsuf with heq | hsuf
    · exact absurd (List.cons.inj heq).1.symm hc
    · exact hsuf

/-- A cut of a name is a text that is not empty and stands before a dot of it. -/
theorem mem_cuts : m ∈ cuts name ↔ m.codes ≠ [] ∧ m.codes ++ [dot] <+: name.codes := by
  rw [cuts, mem_cutsFrom, ← List.reverse_suffix, List.reverse_append]
  simp

theorem length_lt_of_mem_cuts (h : m ∈ cuts name) : m.length < name.length := by
  have := (mem_cuts.mp h).2.length_le
  simp only [List.length_append, List.length_singleton] at this
  exact this

theorem isPrefix_of_mem_cuts (h : m ∈ cuts name) : m.codes <+: name.codes :=
  (List.prefix_append _ _).trans (mem_cuts.mp h).2

theorem mem_cuts_trans (hb : b ∈ cuts m) (hm : m ∈ cuts name) : b ∈ cuts name :=
  mem_cuts.mpr ⟨(mem_cuts.mp hb).1, (mem_cuts.mp hb).2.trans (isPrefix_of_mem_cuts hm)⟩

/-- Of two cuts the shorter one is a cut of the other. -/
theorem mem_cuts_of_length_lt (hb : b ∈ cuts name) (hm : m ∈ cuts name) (h : b.length < m.length) :
    b ∈ cuts m := by
  refine mem_cuts.mpr ⟨(mem_cuts.mp hb).1, ?_⟩
  refine List.prefix_of_prefix_length_le (mem_cuts.mp hb).2 (isPrefix_of_mem_cuts hm) ?_
  simpa [Text.length, Nat.succ_le_iff] using h

theorem isPrefixOf_iff_of_cuts (hm : m ∈ cuts k) (hp : p ∈ cuts k) (hne : m.length ≠ p.length) :
    m.isPrefixOf p = true ↔ m.length < p.length := by
  rw [Text.isPrefixOf, List.isPrefixOf_iff_prefix]
  constructor
  · intro h
    exact lt_of_le_of_ne h.length_le hne
  · intro h
    exact List.prefix_of_prefix_length_le (isPrefix_of_mem_cuts hm) (isPrefix_of_mem_cuts hp) (le_of_lt h)

theorem pairwise_cutsFrom (back : List Nat) :
    (cutsFrom back).Pairwise fun a b => b.length < a.length := by
  fun_induction cutsFrom back with
  | case1 => exact .nil
  | case2 => exact .nil
  | case3 d before ih =>
    refine .cons ?_ ih
    intro b hb
    have := (mem_cutsFrom.mp hb).2.length_le
    simp only [Text.length, List.length_reverse, List.length_cons] at this ⊢
    omega
  | case4 c d before hc ih => exact ih

theorem cutsFrom_sublist_cons (d : Nat) (before : List Nat) : (cutsFrom before).Sublist (cutsFrom (d :: before)) := by
  cases before with
  | nil => exact .refl _
  | cons e rest =>
    by_cases hd : d = dot
    · simp [cutsFrom, hd]
    · simp [cutsFrom, hd]

theorem ancestorsFrom_sublist (back : List Nat) : (ancestorsFrom back).Sublist (cutsFrom back) := by
  fun_induction ancestorsFrom back with
  | case1 => exact .refl _
  | case2 => exact .refl _
  | case3 d before ih =>
    simpa [cutsFrom] using ih.trans (cutsFrom_sublist_cons d before)
  | case4 c d before hc ih => simpa [cutsFrom, hc] using ih

theorem ancestors_sublist (name : Text) : (ancestors name).Sublist (cuts name) := ancestorsFrom_sublist _

/-- The names above a name come longest first. -/
theorem pairwise_ancestors (name : Text) : (ancestors name).Pairwise fun a b => b.length < a.length :=
  (pairwise_cutsFrom _).sublist (ancestors_sublist name)

theorem mem_cuts_of_mem_ancestors (h : m ∈ ancestors name) : m ∈ cuts name := (ancestors_sublist name).subset h

/-- Where no two dots meet, every cut is a name above. -/
theorem ancestorsFrom_eq {back : List Nat} (h : ¬ [dot, dot] <:+: back) : ancestorsFrom back = cutsFrom back := by
  fun_induction ancestorsFrom back with
  | case1 => rfl
  | case2 => rfl
  | case3 d before ih =>
    have hd : d ≠ dot := by
      rintro rfl
      exact h ⟨[], before, rfl⟩
    have hin : ¬ [dot, dot] <:+: before := fun hi => h (hi.trans ⟨[dot, d], [], by simp⟩)
    have hskip : cutsFrom (d :: before) = cutsFrom before := by
      cases before with
      | nil => rfl
      | cons e rest => simp [cutsFrom, hd]
    simp [cutsFrom, ih hin, hskip]
  | case4 c d before hc ih =>
    have hin : ¬ [dot, dot] <:+: d :: before := fun hi => h (hi.trans ⟨[c], [], by simp⟩)
    simp [cutsFrom, hc, ih hin]

theorem ancestors_eq_cuts (h : ¬ [dot, dot] <:+: name.codes) : ancestors name = cuts name := by
  refine ancestorsFrom_eq fun hi => h ?_
  simpa using List.reverse_infix.mpr hi

/-! ## With the root -/

/-- The name under which the registry keeps a logger: the root has two. -/
def canonical (name : Text) : Text := if isRoot name then rootName else name

def above (name : Text) : List Text := if isRoot name then [] else cuts name ++ [rootName]

theorem isRoot_rootName : isRoot rootName = true := by simp [isRoot]

theorem mem_above_iff : b ∈ above name ↔ isRoot name = false ∧ (b ∈ cuts name ∨ b = rootName) := by
  unfold above
  by_cases hr : isRoot name
  · simp [hr]
  · simp [hr]

theorem mem_above_of_root (hr : isRoot name = false) : rootName ∈ above name := mem_above_iff.mpr ⟨hr, .inr rfl⟩

theorem canonical_mem_above (hr : isRoot name = false) (hm : m ∈ cuts name) : canonical m ∈ above name := by
  unfold canonical
  split
  · exact mem_above_of_root hr
  · exact mem_above_iff.mpr ⟨hr, .inl hm⟩

theorem mem_above_trans (hr : isRoot name = false) (hm : m ∈ cuts name) (hb : b ∈ above m) : b ∈ above name := by
  rcases (mem_above_iff.mp hb).2 with hb | rfl
  · exact mem_above_iff.mpr ⟨hr, .inl (mem_cuts_trans hb hm)⟩
  · exact mem_above_of_root hr

theorem eq_rootName_of_mem_cuts (h : m ∈ cuts name) (hr : isRoot m = true) : m = rootName := by
  rcases (Bool.or_eq_true _ _).mp hr with he | he
  · exact absurd (congrArg Text.codes (eq_of_beq he)) (mem_cuts.mp h).1
  · exact eq_of_beq he

theorem cuts_of_root (h : isRoot name = true) : cuts name = [] := by
  rcases (Bool.or_eq_true _ _).mp h with he | he
  · rw [eq_of_beq he]
    rfl
  · rw [eq_of_beq he]
    rfl

theorem canonical_canonical (name : Text) : canonical (canonical name) = canonical name := by
  unfold canonical
  by_cases hr : isRoot name
  · simp [hr, isRoot_rootName]
  · simp [hr]

theorem canonical_of_mem_above (h : b ∈ above name) : canonical b = b := by
  unfold canonical
  rcases (mem_above_iff.mp h).2 with hcut | rfl
  · split
    · exact (eq_rootName_of_mem_cuts hcut (by assumption)).symm
    · rfl
  · exact if_pos isRoot_rootName

theorem canonical_eq_iff :
    canonical k = canonical name ↔ (isRoot name && isRoot k || !isRoot name && k == name) = true := by
  unfold canonical
  by_cases hn : isRoot name <;> by_cases hk : isRoot k
  · simp [hn, hk]
  · have : k ≠ rootName := fun e => hk (e ▸ isRoot_rootName)
    simp [hn, hk, this]
  · have hne : rootName ≠ name := fun e => hn (e ▸ isRoot_rootName)
    have : k ≠ name := fun e => hn (e ▸ hk)
    simp [hn, hk, hne, this]
  · simp [hn, hk]

/-! ## Plain names -/

/-- No name above is a proper start of the root's name. -/
def Separate (name : Text) : Prop := ∀ m ∈ cuts name, m.isPrefixOf rootName → isRoot m

/-- A name for which every text before a dot is above: no two dots meet, and none of those texts is
    a proper start of the root's name. -/
def Plain (name : Text) : Prop := ¬ [dot, dot] <:+: name.codes ∧ Separate name

instance (name : Text) : Decidable (Separate name) :=
  inferInstanceAs (Decidable (∀ m ∈ cuts name, m.isPrefixOf rootName → isRoot m))

instance (name : Text) : Decidable (Plain name) := inferInstanceAs (Decidable (_ ∧ _))

theorem Plain.of_mem_cuts (h : Plain name) (hm : m ∈ cuts name) : Plain m :=
  ⟨fun hi => h.1 (hi.trans (isPrefix_of_mem_cuts hm).isInfix), fun b hb => h.2 b (mem_cuts_trans hb hm)⟩

end JsonnetLocals.Registry
