/-
  JsonnetLocals.Proofs.Syntax.Greedy — trees whose bodies extend as far to the right as they can.

  The grammar derives some texts in several ways: `error a + b` is an error whose message is a sum,
  or a sum whose left operand is an error. `Node.Greedy` picks the first way, and for `else` the
  innermost `if`:
  - the left operand of an operator does not end with a body that can take the operator
    (`Node.takes`),
  - what stands between `then` and `else` does not end with an `if` that has no `else` yet
    (`Node.endsOpen`).

  Every phrase has a greedy derivation (`Derives.exists_greedy`): where an operator or an `else`
  comes too late, it moves to the right end of what stands in front of it (`Spine.attach`,
  `Spine.attachElse`).
-/

import JsonnetLocals.Proofs.Syntax.Sound
import Mathlib.Data.List.Forall2

namespace JsonnetLocals

/-! ## Trees -/

namespace Node

def level : Node → Nat
  | binary _ op _ _ => op.level
  | inSuper _ _ => Level.inSuper
  | unary _ _ _ | localIn _ _ _ | function _ _ _ | conditional _ _ _ _ | assertion _ _ _ _ | error _ _ => Level.unary
  | _ => Level.postfixed

def lastLevel : Node → Nat
  | binary _ _ right _ => right.lastLevel
  | e => e.level

/-- Whether a body at the end of the expression can take an operator of level `k`. -/
def takes (k : Nat) : Node → Bool
  | binary _ _ e _ | unary _ e _ => e.takes k
  | localIn _ e _ | function _ e _ | assertion _ _ e _ | error e _ | conditional _ e none _
  | conditional _ _ (some e) _ => k ≤ e.lastLevel || e.takes k
  | _ => false

/-- Whether the expression ends with a conditional that can take `else`. -/
def endsOpen : Node → Bool
  | binary _ _ e _ | unary _ e _ | localIn _ e _ | function _ e _ | assertion _ _ e _ | error e _
  | conditional _ _ (some e) _ => e.endsOpen
  | conditional _ _ none _ => true
  | _ => false

/-- Nothing that follows a body in the construct itself could be part of the body. -/
def greedyHere : Node → Bool
  | binary left op _ _ => !left.takes op.level
  | inSuper key _ => !key.takes Level.inSuper
  | conditional _ yes (some _) _ => !yes.endsOpen
  | _ => true

/-- Every body extends as far to the right as it can. -/
def Greedy (e : Node) : Prop := ∀ n ∈ e.walk, n.greedyHere = true

instance (e : Node) : Decidable e.Greedy := inferInstanceAs (Decidable (∀ n ∈ e.walk, n.greedyHere = true))

theorem greedy_iff (e : Node) : e.Greedy ↔ e.greedyHere = true ∧ ∀ c ∈ e.children, c.Greedy := by
  unfold Greedy
  rw [walk_eq]
  simp only [List.mem_cons, List.mem_flatMap, forall_eq_or_imp, forall_exists_index, and_imp]
  refine and_congr_right fun _ => ⟨fun h c hc n hn => h n c hc hn, fun h n c hc hn => h c hc n hn⟩

theorem Greedy.intro {e : Node} (h : e.greedyHere = true) (hc : ∀ c ∈ e.children, c.Greedy) : e.Greedy :=
  (greedy_iff e).mpr ⟨h, hc⟩

theorem Greedy.leaf {e : Node} (h : e.greedyHere = true) (hc : e.children = []) : e.Greedy :=
  .intro h (hc ▸ List.forall_mem_nil _)

theorem Greedy.child {e c : Node} (h : e.Greedy) (hc : c ∈ e.children) : c.Greedy := ((greedy_iff e).mp h).2 c hc

end Node

def Bind.Greedy (b : Bind Node) : Prop := b.child.Greedy

def Param.Greedy (p : Param Node) : Prop := ∀ e ∈ p.value, e.Greedy

theorem Node.greedy_function (ps : List (Param Node)) (e : Node) (r : Range) :
    (Node.function ps e r).Greedy ↔ (∀ p ∈ ps, p.Greedy) ∧ e.Greedy := by
  rw [greedy_iff]
  simp only [greedyHere, children, List.mem_append, List.mem_filterMap, List.mem_singleton, true_and, or_imp,
    forall_and, forall_eq, forall_exists_index, and_imp]
  exact and_congr_left fun _ => ⟨fun h p hp c hc => h c p hp hc, fun h c p hp hc => h p hp c hc⟩

theorem Node.greedy_localIn (bs : List (Bind Node)) (e : Node) (r : Range) :
    (Node.localIn bs e r).Greedy ↔ (∀ b ∈ bs, b.Greedy) ∧ e.Greedy := by
  rw [greedy_iff]
  simp [greedyHere, children, or_imp, forall_and, Bind.Greedy]

/-! ## The right end of an expression -/

namespace Frame

variable {f : Frame} {b e : Node} {l k : Nat}

theorem level_of_close (h : f.close b = some (e, l)) : e.level = l ∧ f.level = l := by
  cases f <;> simp only [close, Option.some.injEq, Prod.mk.injEq, reduceCtorEq] at h
  all_goals
    obtain ⟨rfl, rfl⟩ := h
    exact ⟨rfl, rfl⟩

/-- A body at the end is the construct's own, or one at the end of its last part. -/
theorem takes_of_close (h : f.close b = some (e, l)) (ht : e.takes k = true) :
    b.takes k = true ∨ f.need = 1 ∧ k ≤ b.lastLevel := by
  cases f <;> simp only [close, Option.some.injEq, Prod.mk.injEq, reduceCtorEq] at h
  all_goals obtain ⟨rfl, -⟩ := h
  case unary | binary => exact .inl ht
  all_goals
    rw [Node.takes, Bool.or_eq_true, decide_eq_true_eq] at ht
    exact ht.symm.imp_right fun hk => ⟨rfl, hk⟩

/-- An operator that binds more tightly than the construct, and not than its last operand. -/
theorem lastLevel_of_close (h : f.close b = some (e, l)) (hl : e.level < k) (hk : k ≤ e.lastLevel) :
    f.need ≤ k ∧ k ≤ b.lastLevel := by
  cases f <;> simp only [close, Option.some.injEq, Prod.mk.injEq, reduceCtorEq] at h
  all_goals obtain ⟨rfl, -⟩ := h
  case binary => exact ⟨hl, hk⟩
  all_goals exact absurd (Nat.lt_of_lt_of_le hl hk) (Nat.lt_irrefl _)

theorem endsOpen_of_close (h : f.close b = some (e, l)) (ho : e.endsOpen = true) :
    b.endsOpen = true ∨ ∃ opening cond, f = .thenBranch opening cond := by
  cases f <;> simp only [close, Option.some.injEq, Prod.mk.injEq, reduceCtorEq] at h
  all_goals obtain ⟨rfl, -⟩ := h
  case thenBranch opening cond => exact .inr ⟨opening, cond, rfl⟩
  all_goals exact .inl ho

theorem greedy_of_close (h : f.close b = some (e, l)) (hg : e.Greedy) : b.Greedy := by
  cases f <;> simp only [close, Option.some.injEq, Prod.mk.injEq, reduceCtorEq] at h
  all_goals
    obtain ⟨rfl, -⟩ := h
    exact ((Node.greedy_iff _).mp hg).2 b (by simp [Node.children])

/-- What makes a construct greedy does not depend on its last part. -/
theorem close_of_greedy {m : Node} (h : f.close b = some (e, l)) (hg : e.Greedy) (hm : m.Greedy) :
    ∃ e', f.close m = some (e', l) ∧ e'.Greedy := by
  cases f <;> simp only [close, Option.some.injEq, Prod.mk.injEq, reduceCtorEq] at h
  all_goals
    obtain ⟨rfl, rfl⟩ := h
    refine ⟨_, rfl, ?_⟩
    rw [Node.greedy_iff] at hg ⊢
    refine ⟨hg.1, fun c hc => ?_⟩
    have hparts := hg.2 c
    simp only [Node.children, List.mem_append, List.mem_cons, Option.toList, List.not_mem_nil, or_false] at hparts hc
    grind

end Frame

/-- Nothing can be attached to the right end, except to the whole expression. -/
structure Node.Closed (e : Node) : Prop where
  lastLevel : e.lastLevel = e.level
  takes : ∀ k, e.takes k = false
  endsOpen : e.endsOpen = false

/-- A derivation, cut along the right end of the expression: constructs, each with its words, and
    the closed expression that the last one ends with. -/
inductive Spine : Nat → Node → List Word → Prop
  | closed {l : Nat} {e : Node} {ts : List Word} :
      Derives (.expr e.level e) ts → l ≤ e.level → e.Closed → Spine l e ts
  | close {f : Frame} {l : Nat} {b e : Node} {ts us : List Word} :
      f.Reads ts → Spine f.need b us → f.close b = some (e, e.level) → l ≤ e.level → Spine l e (ts ++ us)

namespace Spine

variable {l k : Nat} {e : Node} {ts us : List Word}

theorem level_le (h : Spine l e ts) : l ≤ e.level := by
  cases h with
  | closed _ hl _ => exact hl
  | close _ _ _ hl => exact hl

theorem looser {l' : Nat} (h : Spine l e ts) (hl : l' ≤ l) : Spine l' e ts := by
  cases h with
  | closed hd hle hc => exact .closed hd (Nat.le_trans hl hle) hc
  | close hf hb hc hle => exact .close hf hb hc (Nat.le_trans hl hle)

theorem derives (h : Spine l e ts) : Derives (.expr e.level e) ts := by
  induction h with
  | closed hd => exact hd
  | close hf hb hc _ ih => exact (hf.close (ih.looser hb.level_le) hc).1

theorem cast (h : Spine l e ts) (he : ts = us) : Spine l e us := he ▸ h

end Spine

theorem Derives.spine {p : Phrase} {l : Nat} {e : Node} {ts : List Word} (h : Derives p ts) (hp : p = .expr l e) :
    Spine l e ts := by
  -- a second copy of the derivation, for the expressions that nothing is attached to
  have hd := h
  induction h generalizing l e <;> cases hp
  case looser hl h ih => exact (ih rfl h).looser hl
  case binary ho hl hw h _ ih => exact (Spine.close (.binary ho hl hw) (ih rfl h) rfl (Nat.le_refl _)).cast (by simp)
  case unary ho hw h ih => exact .close (.unary ho hw) (ih rfl h) rfl (Nat.le_refl _)
  case localIn bs _ _ _ _ _ hw hb hv h _ ih =>
    obtain ⟨bs, rfl⟩ := List.reverse_surjective bs
    exact (Spine.close (.localBody hw hb hv) (ih rfl h) rfl (Nat.le_refl _)).cast (by simp)
  case ifThen hw hc hv h _ ih => exact (Spine.close (.thenBranch hw hc hv) (ih rfl h) rfl (Nat.le_refl _)).cast (by simp)
  case ifThenElse hw hc hv hy hx h _ _ ih =>
    exact (Spine.close (.elseBranch hw hc hv hy hx) (ih rfl h) rfl (Nat.le_refl _)).cast (by simp)
  case function ps _ _ _ _ hw hp h _ ih =>
    obtain ⟨ps, rfl⟩ := List.reverse_surjective ps
    exact .close (.functionBody hw hp) (ih rfl h) rfl (Nat.le_refl _)
  case assertion hw hc hv h _ ih => exact (Spine.close (.assertRest hw hc hv) (ih rfl h) rfl (Nat.le_refl _)).cast (by simp)
  case assertionMessage hw hc hv hm hx h _ _ ih =>
    exact (Spine.close (.assertRestMessage hw hc hv hm hx) (ih rfl h) rfl (Nat.le_refl _)).cast (by simp)
  case error hw h ih => exact .close (.errorBody hw) (ih rfl h) rfl (Nat.le_refl _)
  case apply h _ => cases h; exact .closed hd (Nat.le_refl _) ⟨rfl, fun _ => rfl, rfl⟩
  case string h _ => cases h; exact .closed hd (Nat.le_refl _) ⟨rfl, fun _ => rfl, rfl⟩
  case objectExpr h _ => cases h <;> exact .closed hd (Nat.le_refl _) ⟨rfl, fun _ => rfl, rfl⟩
  all_goals exact .closed hd (Nat.le_refl _) ⟨rfl, fun _ => rfl, rfl⟩

section Attach

variable {l k : Nat} {e : Node} {ts us : List Word}

/-- What follows the expression as the rest of an operation of level `k` goes to the rightmost place
    that can take it, if the whole expression is not one. -/
theorem Spine.attach (hk : 1 ≤ k)
    (join : ∀ {e : Node} {ts : List Word}, Derives (.expr k e) ts → e.Greedy → e.takes k = false →
      ∃ m, Derives (.expr k m) (ts ++ us) ∧ m.Greedy)
    (h : Spine l e ts) (hg : e.Greedy) (ht : e.takes k = true ∨ l ≤ k ∧ k ≤ e.lastLevel) :
    ∃ m, Derives (.expr l m) (ts ++ us) ∧ m.Greedy := by
  induction h with
  | @closed l e ts hd hl hc =>
    rw [hc.takes, hc.lastLevel] at ht
    obtain ⟨hlk, hke⟩ := ht.resolve_left Bool.false_ne_true
    obtain ⟨m, hder, hm⟩ := join (hd.looser hke) hg (hc.takes k)
    exact ⟨m, hder.looser hlk, hm⟩
  | @close f l b e ts vs hf hb hc hl ih =>
    have inside (hb : b.takes k = true ∨ f.need ≤ k ∧ k ≤ b.lastLevel) :
        ∃ m, Derives (.expr l m) (ts ++ vs ++ us) ∧ m.Greedy := by
      obtain ⟨m, hder, hm⟩ := ih (f.greedy_of_close hc hg) hb
      obtain ⟨e', hc', hg'⟩ := f.close_of_greedy hc hg hm
      exact ⟨e', ((hf.close hder hc').1.looser hl).cast (by simp), hg'⟩
    by_cases hte : e.takes k = true
    · refine inside ((f.takes_of_close hc hte).imp_right fun h => ⟨?_, h.2⟩)
      rw [h.1]
      exact hk
    · obtain ⟨hlk, hke⟩ := ht.resolve_left hte
      by_cases hle : k ≤ e.level
      · have hder := (Spine.close hf hb hc (Nat.le_refl _)).derives
        obtain ⟨m, hder, hm⟩ := join (hder.looser hle) hg (by simpa using hte)
        exact ⟨m, hder.looser hlk, hm⟩
      · exact inside (.inr (f.lastLevel_of_close hc (Nat.lt_of_not_le hle) hke))

/-- `else` goes to the innermost `if` that has none. -/
theorem Spine.attachElse {w : Word} {n : Node} (hw : w.Is .kwElse) (hn : n.Greedy) (hd : Derives (.expr 1 n) us)
    (h : Spine l e ts) (hg : e.Greedy) (ho : e.endsOpen = true) :
    ∃ m, Derives (.expr l m) (ts ++ w :: us) ∧ m.Greedy := by
  induction h with
  | closed _ _ hc => exact absurd (hc.endsOpen.symm.trans ho) Bool.false_ne_true
  | @close f l b e ts vs hf hb hc hl ih =>
    by_cases hbo : b.endsOpen = true
    · obtain ⟨m, hder, hm⟩ := ih (f.greedy_of_close hc hg) hbo
      obtain ⟨e', hc', hg'⟩ := f.close_of_greedy hc hg hm
      exact ⟨e', ((hf.close hder hc').1.looser hl).cast (by simp), hg'⟩
    · obtain ⟨opening, cond, rfl⟩ := (f.endsOpen_of_close hc ho).resolve_left hbo
      cases hc
      cases hf with
      | thenBranch hv hcond hthen =>
        have hder := Derives.ifThenElse hv hcond hthen (hb.derives.looser hb.level_le) hw hd
        refine ⟨_, (hder.looser hl).cast (by simp), ?_⟩
        rw [Node.greedy_iff] at hg ⊢
        have hparts := hg.2
        simp only [Node.children, Option.toList, List.forall_mem_cons] at hparts ⊢
        exact ⟨by simpa [Node.greedyHere] using hbo, hparts.1, hparts.2.1, hn, List.forall_mem_nil _⟩

end Attach

/-! ## Lists of phrases -/

/-- Phrases divided by commas, of each of which `M` says something. -/
inductive SeqOf (M : Phrase → List Word → Prop) : List Phrase → List Word → Prop
  | one {p : Phrase} {ts : List Word} : M p ts → SeqOf M [p] ts
  | more {p : Phrase} {ps : List Phrase} {ts us : List Word} {w : Word} :
      SeqOf M ps ts → w.Is .comma → M p us → SeqOf M (ps ++ [p]) (ts ++ w :: us)

inductive ItemsOf (M : Phrase → List Word → Prop) : List Phrase → List Word → Prop
  | empty : ItemsOf M [] []
  | seq {ps : List Phrase} {ts : List Word} : SeqOf M ps ts → ItemsOf M ps ts
  | comma {ps : List Phrase} {ts : List Word} {w : Word} : SeqOf M ps ts → w.Is .comma → ItemsOf M ps (ts ++ [w])

/-- What `M` says of a phrase, and of a list part by part. -/
abbrev Lifted (M : Phrase → List Word → Prop) : Phrase → List Word → Prop
  | .seq ps, ts => SeqOf M ps ts
  | .items ps, ts => ItemsOf M ps ts
  | p, ts => M p ts

section Lists

variable {M : Phrase → List Word → Prop} {α : Type} {f : α → Phrase} {R : α → α → Prop} {ts : List Word}

/-- A property of every phrase that is no list holds of the parts of a list. -/
theorem Lifted.part (hs : ∀ ps ts, M (.seq ps) ts) (hi : ∀ ps ts, M (.items ps) ts) {p : Phrase} (h : Lifted M p ts) :
    M p ts := by
  cases p with
  | seq ps => exact hs ps ts
  | items ps => exact hi ps ts
  | _ => exact h

theorem SeqOf.exists_seq (hf : ∀ {x ts}, M (f x) ts → ∃ y, Derives (f y) ts ∧ R x y) {xs : List α}
    (h : SeqOf M (xs.map f) ts) : ∃ ys, Derives (.seq (ys.map f)) ts ∧ xs.Forall₂ R ys := by
  generalize hps : xs.map f = ps at h
  induction h generalizing xs with
  | one h =>
    obtain ⟨x, rfl, rfl⟩ := List.map_eq_singleton_iff.mp hps
    obtain ⟨y, hd, hy⟩ := hf h
    exact ⟨[y], .one hd, .cons hy .nil⟩
  | more _ hw h ih =>
    obtain ⟨xs, zs, rfl, rfl, hz⟩ := List.map_eq_append_iff.mp hps
    obtain ⟨x, rfl, rfl⟩ := List.map_eq_singleton_iff.mp hz
    obtain ⟨ys, hd, hys⟩ := ih rfl
    obtain ⟨y, hd', hy⟩ := hf h
    refine ⟨ys ++ [y], ?_, List.rel_append hys (.cons hy .nil)⟩
    rw [List.map_append]
    exact .more hd hw hd'

theorem ItemsOf.exists_items (hf : ∀ {x ts}, M (f x) ts → ∃ y, Derives (f y) ts ∧ R x y) {xs : List α}
    (h : ItemsOf M (xs.map f) ts) : ∃ ys, Derives (.items (ys.map f)) ts ∧ xs.Forall₂ R ys := by
  generalize hps : xs.map f = ps at h
  cases h with
  | empty =>
    obtain rfl := List.map_eq_nil_iff.mp hps
    exact ⟨[], .noItems, .nil⟩
  | seq h =>
    obtain ⟨ys, hd, hys⟩ := SeqOf.exists_seq hf (hps ▸ h)
    exact ⟨ys, .items hd, hys⟩
  | comma h hw =>
    obtain ⟨ys, hd, hys⟩ := SeqOf.exists_seq hf (hps ▸ h)
    exact ⟨ys, .itemsComma hd hw, hys⟩

end Lists

/-! ## Greedy derivations -/

def Argument.SameKind : Argument → Argument → Prop
  | .positional _, .positional _ | .named _, .named _ => True
  | _, _ => False

def Argument.Greedy : Argument → Prop
  | .positional e => e.Greedy
  | .named a => a.value.Greedy

/-- What decides whether a member may stand in a comprehension. -/
def memberSort (m : Node) : Bool × Bool × Bool := (isObjectAssert m, isField m, isComputedField m)

/-- The words have a greedy derivation as a phrase of the kind. -/
def HasGreedy : Phrase → List Word → Prop
  | .expr l _, ts => ∃ e, Derives (.expr l e) ts ∧ e.Greedy
  | .opt _, ts => ∃ o, Derives (.opt o) ts ∧ (∀ e ∈ o, e.Greedy)
  | .string e, ts => Derives (.string e) ts ∧ e.Greedy
  | .bind _, ts => ∃ b, Derives (.bind b) ts ∧ b.Greedy
  | .param _, ts => ∃ p, Derives (.param p) ts ∧ p.Greedy
  | .params _, ts => ∃ ps, Derives (.params ps) ts ∧ (∀ p ∈ ps, p.Greedy)
  | .arg a, ts => ∃ a', Derives (.arg a') ts ∧ (a.SameKind a' ∧ a'.Greedy)
  | .call _, ts => ∃ e, Derives (.call e) ts ∧ e.Greedy
  | .object _, ts => ∃ e, Derives (.object e) ts ∧ e.Greedy
  | .member m, ts => ∃ m', Derives (.member m') ts ∧ (memberSort m' = memberSort m ∧ m'.Greedy)
  | .fieldName _ k _, ts => ∃ r n, Derives (.fieldName r k n) ts ∧ n.Greedy
  | .spec s, ts => ∃ s', Derives (.spec s') ts ∧ s'.Greedy ∧
      ∀ n e r, s = .forSpec n e r → ∃ n' e' r', s' = .forSpec n' e' r'
  | .specs _, ts => ∃ ss, Derives (.specs ss) ts ∧ (∀ s ∈ ss, s.Greedy)
  | .seq _, _ | .items _, _ => True

section Parts

variable {l k : Nat} {e : Node} {ts us : List Word}

/-- Attaches the rest of an operation of level `k` to the whole expression, or to a part of it. -/
theorem exists_attached (hk : 1 ≤ k)
    (join : ∀ {e : Node} {ts : List Word}, Derives (.expr k e) ts → e.Greedy → e.takes k = false →
      ∃ m, Derives (.expr k m) (ts ++ us) ∧ m.Greedy)
    (h : Derives (.expr k e) ts) (hg : e.Greedy) : ∃ m, Derives (.expr k m) (ts ++ us) ∧ m.Greedy := by
  by_cases ht : e.takes k = true
  · exact (h.spine rfl).attach hk join hg (.inl ht)
  · exact join h hg (by simpa using ht)

theorem forall_of_forall₂ {α β : Type} {P : β → Prop} {xs : List α} {ys : List β} (h : xs.Forall₂ (fun _ y => P y) ys) :
    ∀ y ∈ ys, P y := by
  induction h with
  | nil => exact List.forall_mem_nil _
  | cons hy _ ih => exact List.forall_mem_cons.mpr ⟨hy, ih⟩

/-- A list whose parts correspond to those of another is made of what makes the parts. -/
theorem exists_map_of_forall₂ {α β : Type} {R : α → α → Prop} {P : β → Prop} {f : β → α}
    (hf : ∀ x y, R (f x) y → ∃ z, y = f z ∧ P z) {xs : List β} {ys : List α} (h : (xs.map f).Forall₂ R ys) :
    ∃ zs : List β, ys = zs.map f ∧ ∀ z ∈ zs, P z := by
  induction xs generalizing ys with
  | nil =>
    cases h
    exact ⟨[], rfl, List.forall_mem_nil _⟩
  | cons x xs ih =>
    obtain _ | ⟨hy, h⟩ := h
    obtain ⟨z, rfl, hz⟩ := hf _ _ hy
    obtain ⟨zs, rfl, hzs⟩ := ih h
    exact ⟨z :: zs, rfl, List.forall_mem_cons.mpr ⟨hz, hzs⟩⟩

/-- Positional arguments stay in front of the named ones. -/
theorem exists_arguments {ps : List Node} {ns : List (NamedArg Node)} {args : List Argument}
    (h : (ps.map Argument.positional ++ ns.map Argument.named).Forall₂ (fun a a' => a.SameKind a' ∧ a'.Greedy) args) :
    ∃ (ps' : List Node) (ns' : List (NamedArg Node)), args = ps'.map Argument.positional ++ ns'.map Argument.named ∧
      (∀ e ∈ ps', e.Greedy) ∧ ∀ a ∈ ns', a.value.Greedy := by
  have positional (e : Node) : ∀ a, (Argument.positional e).SameKind a ∧ a.Greedy →
      ∃ e', a = .positional e' ∧ e'.Greedy := by
    rintro (e' | a) ⟨hk, hg⟩
    · exact ⟨e', rfl, hg⟩
    · cases hk
  have named (n : NamedArg Node) : ∀ a, (Argument.named n).SameKind a ∧ a.Greedy →
      ∃ n', a = .named n' ∧ n'.value.Greedy := by
    rintro (e' | n') ⟨hk, hg⟩
    · cases hk
    · exact ⟨n', rfl, hg⟩
  obtain ⟨ps', hps, hgp⟩ := exists_map_of_forall₂ positional (List.forall₂_take_append _ _ _ h.flip).flip
  obtain ⟨ns', hns, hgn⟩ := exists_map_of_forall₂ named (List.forall₂_drop_append _ _ _ h.flip).flip
  refine ⟨ps', ns', ?_, hgp, hgn⟩
  rw [← hps, ← hns, List.take_append_drop]

/-- Whether members may stand in a comprehension depends on their sorts only. -/
theorem exists_computedField {ms ms' : List Node} {m : Node}
    (h : ms.Forall₂ (fun m m' => memberSort m' = memberSort m ∧ m'.Greedy) ms')
    (ha : ∀ m ∈ ms, isObjectAssert m = false) (hf : ms.filter isField = [m]) (hc : isComputedField m = true) :
    (∀ m ∈ ms', isObjectAssert m = false) ∧ ∃ m', ms'.filter isField = [m'] ∧ isComputedField m' = true := by
  have hasserts : ms'.map isObjectAssert = ms.map isObjectAssert := by
    clear ha hf
    induction h with
    | nil => rfl
    | @cons m m' _ _ h _ ih =>
      have hassert : isObjectAssert m' = isObjectAssert m := congrArg (·.1) h.1
      rw [List.map_cons, List.map_cons, ih, hassert]
  have hfields : (ms'.filter isField).map isComputedField = (ms.filter isField).map isComputedField := by
    clear ha hf hasserts
    induction h with
    | nil => rfl
    | @cons m m' _ _ h _ ih =>
      have hfield : isField m' = isField m := congrArg (·.2.1) h.1
      have hcomputed : isComputedField m' = isComputedField m := congrArg (·.2.2) h.1
      rw [List.filter_cons, List.filter_cons, hfield]
      split
      · rw [List.map_cons, List.map_cons, ih, hcomputed]
      · exact ih
  rw [hf, List.map_singleton, List.map_eq_singleton_iff, hc] at hfields
  refine ⟨fun m hm => ?_, hfields⟩
  have hmem : isObjectAssert m ∈ ms.map isObjectAssert := hasserts ▸ List.mem_map_of_mem hm
  obtain ⟨m', hm', he⟩ := List.mem_map.mp hmem
  rw [← he, ha m' hm']

end Parts

/-! ### Productions

`HasGreedy` asks for some value of the kind of phrase, so `n` stands for any expression below. -/

namespace HasGreedy

variable {j k l : Nat} {c e i m n : Node} {a b d : Option Node} {ps : List (Param Node)} {ss : List Node} {u : Symbol}
  {w v x y : Word} {ts us vs xs : List Word}

/-- A construct of one part, which stands where it can not take what follows. -/
theorem of_part {f : Node → Node} (h : HasGreedy (.expr k e) ts)
    (make : ∀ {e}, Derives (.expr k e) ts → Derives (.expr l (f e)) us)
    (hhere : ∀ e, (f e).greedyHere = true) (hc : ∀ e, (f e).children = [e]) : HasGreedy (.expr l n) us := by
  obtain ⟨e, hd, he⟩ := h
  refine ⟨f e, make hd, .intro (hhere e) ?_⟩
  rw [hc, List.forall_mem_singleton]
  exact he

theorem of_parts {f : Node → Node → Node} (h : HasGreedy (.expr j c) ts) (h' : HasGreedy (.expr k e) us)
    (make : ∀ {c e}, Derives (.expr j c) ts → Derives (.expr k e) us → Derives (.expr l (f c e)) vs)
    (hhere : ∀ c e, (f c e).greedyHere = true) (hc : ∀ c e, (f c e).children = [c, e]) : HasGreedy (.expr l n) vs := by
  obtain ⟨c, hdc, hgc⟩ := h
  obtain ⟨e, hde, hge⟩ := h'
  refine ⟨f c e, make hdc hde, .intro (hhere c e) ?_⟩
  rw [hc, List.forall_mem_cons, List.forall_mem_singleton]
  exact ⟨hgc, hge⟩

/-! #### Operators and the forms that start with a keyword -/

theorem binary {op : BinaryOp} (ho : BinaryOp.ofSymbol u = some op) (hw : w.Is u) (hl : HasGreedy (.expr op.level c) ts)
    (hr : HasGreedy (.expr (op.level + 1) e) us) : HasGreedy (.expr op.level n) (ts ++ w :: us) := by
  obtain ⟨l, hdl, hl⟩ := hl
  obtain ⟨r, hdr, hr⟩ := hr
  refine exists_attached op.level_pos (fun {e ts} hd he ht => ?_) hdl hl
  exact ⟨_, .binary ho hd hw hdr, .intro (by simp [Node.greedyHere, ht]) (by simp [Node.children, he, hr])⟩

theorem inSuper (hw : w.Is .kwIn) (hv : v.Is .kwSuper) (hl : HasGreedy (.expr Level.inSuper e) ts) :
    HasGreedy (.expr Level.inSuper n) (ts ++ [w, v]) := by
  obtain ⟨l, hdl, hl⟩ := hl
  refine exists_attached (by decide) (fun {e ts} hd he ht => ?_) hdl hl
  exact ⟨_, .inSuper hd hw hv, .intro (by simp [Node.greedyHere, ht]) (by simp [Node.children, he])⟩

theorem localIn {bs : List (Bind Node)} (hw : w.Is .kwLocal) (hv : v.Is .semicolon)
    (hb : SeqOf HasGreedy (bs.map .bind) ts) (he : HasGreedy (.expr 1 e) us) :
    HasGreedy (.expr Level.unary n) (w :: ts ++ v :: us) := by
  obtain ⟨bs, hdb, hbs⟩ := SeqOf.exists_seq (R := fun _ b => b.Greedy) (fun h => h) hb
  obtain ⟨e, hde, he⟩ := he
  exact ⟨_, .localIn hw hdb hv hde, (Node.greedy_localIn _ _ _).mpr ⟨forall_of_forall₂ hbs, he⟩⟩

/-- Where the branch in front of `else` ends with an `if` that has none, the `else` is that one's. -/
theorem ifThenElse (hw : w.Is .kwIf) (hv : v.Is .kwThen) (hx : x.Is .kwElse) (hc : HasGreedy (.expr 1 c) ts)
    (hm : HasGreedy (.expr 1 m) us) (he : HasGreedy (.expr 1 e) vs) :
    HasGreedy (.expr Level.unary n) (w :: ts ++ v :: us ++ x :: vs) := by
  obtain ⟨c, hdc, hc⟩ := hc
  obtain ⟨y, hdy, hy⟩ := hm
  obtain ⟨e, hde, he⟩ := he
  by_cases ho : y.endsOpen
  · obtain ⟨m, hdm, hm⟩ := (hdy.spine rfl).attachElse hx he hde hy ho
    exact ⟨_, (Derives.ifThen hw hdc hv hdm).cast (by simp), .intro rfl (by simp [Node.children, hc, hm])⟩
  · refine ⟨_, .ifThenElse hw hdc hv hdy hx hde, .intro ?_ (by simp [Node.children, hc, hy, he])⟩
    simpa [Node.greedyHere] using ho

theorem function (hw : w.Is .kwFunction) (hp : HasGreedy (.params ps) ts) (he : HasGreedy (.expr 1 e) us) :
    HasGreedy (.expr Level.unary n) (w :: ts ++ us) := by
  obtain ⟨ps, hdp, hps⟩ := hp
  obtain ⟨e, hde, he⟩ := he
  exact ⟨_, .function hw hdp hde, (Node.greedy_function _ _ _).mpr ⟨hps, he⟩⟩

theorem assertionMessage (hw : w.Is .kwAssert) (hv : v.Is .colon) (hx : x.Is .semicolon) (hc : HasGreedy (.expr 1 c) ts)
    (hm : HasGreedy (.expr 1 m) us) (he : HasGreedy (.expr 1 e) vs) :
    HasGreedy (.expr Level.unary n) (w :: ts ++ v :: us ++ x :: vs) := by
  obtain ⟨c, hdc, hc⟩ := hc
  obtain ⟨m, hdm, hm⟩ := hm
  obtain ⟨e, hde, he⟩ := he
  exact ⟨_, .assertionMessage hw hdc hv hdm hx hde, .intro rfl (by simp [Node.children, hc, hm, he])⟩

/-! #### Binds and parameters -/

theorem valueBind {bind : Bind Node} (hw : w.IsName (some .bind)) (hv : v.Is .eq) (he : HasGreedy (.expr 1 e) ts) :
    HasGreedy (.bind bind) (w :: v :: ts) := by
  obtain ⟨e, hd, he⟩ := he
  exact ⟨_, .valueBind hw hv hd, he⟩

theorem functionBind {bind : Bind Node} (hw : w.IsName (some .bind)) (hv : v.Is .eq) (hp : HasGreedy (.params ps) ts)
    (he : HasGreedy (.expr 1 e) us) : HasGreedy (.bind bind) (w :: ts ++ v :: us) := by
  obtain ⟨ps, hdp, hps⟩ := hp
  obtain ⟨e, hde, he⟩ := he
  exact ⟨_, .functionBind hw hdp hv hde, (Node.greedy_function _ _ _).mpr ⟨hps, he⟩⟩

theorem params (hw : w.Is .parenOpen) (hv : v.Is .parenClose) (hp : ItemsOf HasGreedy (ps.map .param) ts) :
    HasGreedy (.params ps) (w :: ts ++ [v]) := by
  obtain ⟨ps, hd, hps⟩ := ItemsOf.exists_items (R := fun _ p => p.Greedy) (fun h => h) hp
  exact ⟨ps, .params hw hd hv, forall_of_forall₂ hps⟩

theorem paramValue {p : Param Node} (hw : w.IsName none) (hv : v.Is .eq) (he : HasGreedy (.expr 1 e) ts) :
    HasGreedy (.param p) (w :: v :: ts) := by
  obtain ⟨e, hd, he⟩ := he
  exact ⟨_, .paramValue hw hv hd, by rintro _ ⟨⟩; exact he⟩

/-! #### Suffixes -/

theorem slice (hw : w.Is .bracketOpen) (hx : x.Is .colon) (hv : v.Is .bracketClose)
    (he : HasGreedy (.expr Level.postfixed e) ts) (ha : HasGreedy (.opt a) us) (hb : HasGreedy (.opt b) vs) :
    HasGreedy (.expr Level.postfixed n) (ts ++ w :: us ++ x :: vs ++ [v]) := by
  obtain ⟨e, hde, he⟩ := he
  obtain ⟨a, hda, ha⟩ := ha
  obtain ⟨b, hdb, hb⟩ := hb
  refine ⟨_, .slice hde hw hda hx hdb hv, .intro rfl ?_⟩
  simpa [Node.children, or_imp, forall_and, he] using ⟨ha, hb⟩

theorem sliceStep (hw : w.Is .bracketOpen) (hx : x.Is .colon) (hy : y.Is .colon) (hv : v.Is .bracketClose)
    (he : HasGreedy (.expr Level.postfixed e) ts) (ha : HasGreedy (.opt a) us) (hb : HasGreedy (.opt b) vs)
    (hd : HasGreedy (.opt d) xs) :
    HasGreedy (.expr Level.postfixed n) (ts ++ w :: us ++ x :: vs ++ y :: xs ++ [v]) := by
  obtain ⟨e, hde, he⟩ := he
  obtain ⟨a, hda, ha⟩ := ha
  obtain ⟨b, hdb, hb⟩ := hb
  obtain ⟨d, hdd, hd⟩ := hd
  refine ⟨_, .sliceStep hde hw hda hx hdb hy hdd hv, .intro rfl ?_⟩
  simpa [Node.children, or_imp, forall_and, he] using ⟨ha, hb, hd⟩

theorem sliceNoStop (hw : w.Is .bracketOpen) (hx : x.Is .colon2) (hv : v.Is .bracketClose)
    (he : HasGreedy (.expr Level.postfixed e) ts) (ha : HasGreedy (.opt a) us) (hd : HasGreedy (.opt d) xs) :
    HasGreedy (.expr Level.postfixed n) (ts ++ w :: us ++ x :: xs ++ [v]) := by
  obtain ⟨e, hde, he⟩ := he
  obtain ⟨a, hda, ha⟩ := ha
  obtain ⟨d, hdd, hd⟩ := hd
  refine ⟨_, .sliceNoStop hde hw hda hx hdd hv, .intro rfl ?_⟩
  simpa [Node.children, or_imp, forall_and, he] using ⟨ha, hd⟩

theorem present (he : HasGreedy (.expr 1 e) ts) : HasGreedy (.opt a) ts := by
  obtain ⟨e, hd, he⟩ := he
  exact ⟨some e, .present hd, by rintro _ ⟨⟩; exact he⟩

theorem call {es : List Node} {ns : List (NamedArg Node)} (hw : w.Is .parenOpen) (hv : v.Is .parenClose)
    (he : HasGreedy (.expr Level.postfixed e) ts)
    (hargs : ItemsOf HasGreedy ((es.map Argument.positional ++ ns.map Argument.named).map .arg) us) :
    HasGreedy (.call n) (ts ++ w :: us ++ [v]) := by
  obtain ⟨e, hde, he⟩ := he
  obtain ⟨args, hda, hargs⟩ := ItemsOf.exists_items (R := fun a a' => a.SameKind a' ∧ a'.Greedy) (fun h => h) hargs
  obtain ⟨es, ns, rfl, hes, hns⟩ := exists_arguments hargs
  refine ⟨_, .call hde hw hda hv, .intro rfl ?_⟩
  simpa [Node.children, or_imp, forall_and, he] using ⟨hes, hns⟩

theorem tailstrict (hw : w.Is .kwTailstrict) (h : HasGreedy (.call e) ts) : HasGreedy (.expr Level.postfixed n) (ts ++ [w]) := by
  obtain ⟨e, hd, he⟩ := h
  cases hd with
  | call hde hv hda hx => exact ⟨_, .tailstrict (.call hde hv hda hx) hw, .intro rfl fun c hc => he.child hc⟩

theorem positional (h : HasGreedy (.expr 1 e) ts) : HasGreedy (.arg (.positional e)) ts := by
  obtain ⟨e, hd, he⟩ := h
  exact ⟨.positional e, .positional hd, trivial, he⟩

theorem named {arg : NamedArg Node} (hw : w.IsName none) (hv : v.Is .eq) (h : HasGreedy (.expr 1 e) ts) :
    HasGreedy (.arg (.named arg)) (w :: v :: ts) := by
  obtain ⟨e, hd, he⟩ := h
  exact ⟨.named ⟨_, e, _⟩, .named hw hv hd, trivial, he⟩

theorem applyBrace (he : HasGreedy (.expr Level.postfixed e) ts) (ho : HasGreedy (.object c) us) :
    HasGreedy (.expr Level.postfixed n) (ts ++ us) := by
  obtain ⟨e, hde, he⟩ := he
  obtain ⟨o, hdo, ho⟩ := ho
  exact ⟨_, .applyBrace hde hdo, .intro rfl (by simp [Node.children, he, ho])⟩

/-! #### Arrays and specs -/

theorem array {es : List Node} (hw : w.Is .bracketOpen) (hv : v.Is .bracketClose)
    (hes : ItemsOf HasGreedy (es.map (.expr 1)) ts) : HasGreedy (.expr Level.postfixed n) (w :: ts ++ [v]) := by
  obtain ⟨es, hd, hes⟩ := ItemsOf.exists_items (R := fun _ e => e.Greedy) (fun h => h) hes
  exact ⟨_, .array hw hd hv, .intro rfl (forall_of_forall₂ hes)⟩

theorem arrayComp (hw : w.Is .bracketOpen) (hv : v.Is .bracketClose) (he : ItemsOf HasGreedy ([e].map (.expr 1)) ts)
    (hs : HasGreedy (.specs ss) us) : HasGreedy (.expr Level.postfixed n) (w :: ts ++ us ++ [v]) := by
  obtain ⟨es, hd, hes⟩ := ItemsOf.exists_items (R := fun _ e => e.Greedy) (fun h => h) he
  obtain ⟨ss, hds, hss⟩ := hs
  obtain _ | ⟨he, ⟨⟩⟩ := hes
  exact ⟨_, .arrayComp hw hd hds hv, .intro rfl (by simpa [Node.children, or_imp, forall_and, he] using hss)⟩

theorem forSpec (hw : w.Is .kwFor) (hx : x.IsName none) (hv : v.Is .kwIn) (he : HasGreedy (.expr 1 e) ts) :
    HasGreedy (.spec n) (w :: x :: v :: ts) := by
  obtain ⟨e, hd, he⟩ := he
  exact ⟨_, .forSpec hw hx hv hd, .intro rfl (by simp [Node.children, he]), fun _ _ _ _ => ⟨_, _, _, rfl⟩⟩

theorem ifSpec {q : Range} (hw : w.Is .kwIf) (he : HasGreedy (.expr 1 e) ts) : HasGreedy (.spec (.ifSpec c q)) (w :: ts) := by
  obtain ⟨e, hd, he⟩ := he
  exact ⟨_, .ifSpec hw hd, .intro rfl (by simp [Node.children, he]), by rintro _ _ _ ⟨⟩⟩

theorem firstSpec {name : Text} {q : Range} (h : HasGreedy (.spec (.forSpec name e q)) ts) : HasGreedy (.specs ss) ts := by
  obtain ⟨s, hd, hs, hfor⟩ := h
  obtain ⟨n, e, r, rfl⟩ := hfor _ _ _ rfl
  exact ⟨_, .firstSpec hd, by simpa using hs⟩

theorem nextSpec (hss : HasGreedy (.specs ss) ts) (hs : HasGreedy (.spec e) us) {rs : List Node} :
    HasGreedy (.specs rs) (ts ++ us) := by
  obtain ⟨ss, hdss, hss⟩ := hss
  obtain ⟨s, hds, hs, -⟩ := hs
  exact ⟨_, .nextSpec hdss hds, by simpa [or_imp, forall_and, hs] using hss⟩

/-! #### Objects -/

theorem object {ms : List Node} (hw : w.Is .braceOpen) (hv : v.Is .braceClose) (hm : ItemsOf HasGreedy (ms.map .member) ts) :
    HasGreedy (.object n) (w :: ts ++ [v]) := by
  obtain ⟨ms, hd, hms⟩ := ItemsOf.exists_items (R := fun m m' => memberSort m' = memberSort m ∧ m'.Greedy) (fun h => h) hm
  exact ⟨_, .object hw hd hv, .intro rfl (forall_of_forall₂ (hms.imp fun _ _ h => h.2))⟩

theorem objectComp {ms : List Node} (hw : w.Is .braceOpen) (hv : v.Is .braceClose) (ha : ∀ m ∈ ms, isObjectAssert m = false)
    (hf : ms.filter isField = [m]) (hc : isComputedField m = true) (hm : ItemsOf HasGreedy (ms.map .member) ts)
    (hs : HasGreedy (.specs ss) us) : HasGreedy (.object n) (w :: ts ++ us ++ [v]) := by
  obtain ⟨ms, hdm, hms⟩ := ItemsOf.exists_items (R := fun m m' => memberSort m' = memberSort m ∧ m'.Greedy) (fun h => h) hm
  obtain ⟨ss, hds, hss⟩ := hs
  obtain ⟨ha', m, hf', hc'⟩ := exists_computedField hms ha hf hc
  refine ⟨_, .objectComp hw hdm hds hv ha' hf' hc', .intro rfl ?_⟩
  simpa [Node.children, or_imp, forall_and] using ⟨hss, forall_of_forall₂ (hms.imp fun _ _ h => h.2)⟩

theorem objectLocal {bind : Bind Node} {q : Range} (hw : w.Is .kwLocal) (hb : HasGreedy (.bind bind) ts) :
    HasGreedy (.member (.objectLocal bind q)) (w :: ts) := by
  obtain ⟨b, hd, hb⟩ := hb
  exact ⟨_, .objectLocal hw hd, rfl, .intro rfl (by simpa [Node.children, Bind.Greedy] using hb)⟩

theorem objectAssert {q : Range} (hw : w.Is .kwAssert) (he : HasGreedy (.expr 1 e) ts) :
    HasGreedy (.member (.objectAssert e a q)) (w :: ts) := by
  obtain ⟨e, hd, he⟩ := he
  exact ⟨_, .objectAssert hw hd, rfl, .intro rfl (by simp [Node.children, he])⟩

theorem objectAssertMessage {q : Range} (hw : w.Is .kwAssert) (hv : v.Is .colon) (he : HasGreedy (.expr 1 e) ts)
    (hm : HasGreedy (.expr 1 m) us) : HasGreedy (.member (.objectAssert e a q)) (w :: ts ++ v :: us) := by
  obtain ⟨e, hde, he⟩ := he
  obtain ⟨m, hdm, hm⟩ := hm
  exact ⟨_, .objectAssertMessage hw hde hv hdm, rfl, .intro rfl (by simp [Node.children, he, hm])⟩

section Fields

variable {kind : NameKind} {vis vis' : Visibility} {plus : Bool} {f : Option Node} {q r : Range}

/-- Fields of one kind of name have one sort. -/
theorem memberSort_field {plus' : Bool} {f' : Option Node} :
    memberSort (.field kind n e vis plus f q) = memberSort (.field kind m c vis' plus' f' r) := by
  cases kind <;> rfl

theorem field (hs : Visibility.ofSymbol u = some vis') (hv : v.Is u) (hn : HasGreedy (.fieldName r kind n) ts)
    (he : HasGreedy (.expr 1 e) us) : HasGreedy (.member (.field kind n e vis plus f q)) (ts ++ v :: us) := by
  obtain ⟨r, n, hdn, hn⟩ := hn
  obtain ⟨e, hde, he⟩ := he
  exact ⟨_, .field hdn hs hv hde, memberSort_field, .intro rfl (by simp [Node.children, hn, he])⟩

theorem fieldPlus (hx : x.Is .plus) (hs : Visibility.ofSymbol u = some vis') (hv : v.Is u)
    (hn : HasGreedy (.fieldName r kind n) ts) (he : HasGreedy (.expr 1 e) us) :
    HasGreedy (.member (.field kind n e vis plus f q)) (ts ++ x :: v :: us) := by
  obtain ⟨r, n, hdn, hn⟩ := hn
  obtain ⟨e, hde, he⟩ := he
  exact ⟨_, .fieldPlus hdn hx hs hv hde, memberSort_field, .intro rfl (by simp [Node.children, hn, he])⟩

theorem method (hs : Visibility.ofSymbol u = some vis') (hv : v.Is u) (hn : HasGreedy (.fieldName r kind n) ts)
    (hp : HasGreedy (.params ps) us) (he : HasGreedy (.expr 1 e) vs) :
    HasGreedy (.member (.field kind n e vis plus f q)) (ts ++ us ++ v :: vs) := by
  obtain ⟨r, n, hdn, hn⟩ := hn
  obtain ⟨ps, hdp, hps⟩ := hp
  obtain ⟨e, hde, he⟩ := he
  have hfun := (Node.greedy_function ps e (r.upTo e.range)).mpr ⟨hps, he⟩
  exact ⟨_, .method hdn hdp hs hv hde, memberSort_field, .intro rfl (by simp [Node.children, hn, hfun])⟩

theorem computedName (hw : w.Is .bracketOpen) (hv : v.Is .bracketClose) (he : HasGreedy (.expr 1 e) ts) :
    HasGreedy (.fieldName q .computed n) (w :: ts ++ [v]) := by
  obtain ⟨e, hd, he⟩ := he
  exact ⟨_, e, .computedName hw hd hv, he⟩

end Fields

end HasGreedy

theorem Derives.hasGreedy {p : Phrase} {ts : List Word} (h : Derives p ts) : Lifted HasGreedy p ts := by
  induction h with
  | looser hl _ ih =>
    obtain ⟨e, hd, he⟩ := ih
    exact ⟨e, hd.looser hl, he⟩
  -- operators and the forms that start with a keyword
  | binary ho _ hw _ ihl ihr => exact HasGreedy.binary ho hw ihl ihr
  | inSuper _ hw hv ih => exact HasGreedy.inSuper hw hv ih
  | unary ho hw _ ih => exact HasGreedy.of_part ih (.unary ho hw) (fun _ => rfl) fun _ => rfl
  | localIn hw _ hv _ ihb ihe => exact HasGreedy.localIn hw hv ihb ihe
  | ifThen hw _ hv _ ihc ihe => exact HasGreedy.of_parts ihc ihe (.ifThen hw · hv ·) (fun _ _ => rfl) fun _ _ => rfl
  | ifThenElse hw _ hv _ hx _ ihc ihm ihe => exact HasGreedy.ifThenElse hw hv hx ihc ihm ihe
  | function hw _ _ ihp ihe => exact HasGreedy.function hw ihp ihe
  | assertion hw _ hv _ ihc ihe => exact HasGreedy.of_parts ihc ihe (.assertion hw · hv ·) (fun _ _ => rfl) fun _ _ => rfl
  | assertionMessage hw _ hv _ hx _ ihc ihm ihe => exact HasGreedy.assertionMessage hw hv hx ihc ihm ihe
  | error hw _ ih => exact HasGreedy.of_part ih (.error hw) (fun _ => rfl) fun _ => rfl
  -- binds and parameters
  | valueBind hw hv _ ih => exact HasGreedy.valueBind hw hv ih
  | functionBind hw _ hv _ ihp ihe => exact HasGreedy.functionBind hw hv ihp ihe
  | params hw _ hv ih => exact HasGreedy.params hw hv ih
  | param hw => exact ⟨_, .param hw, by rintro _ ⟨⟩⟩
  | paramValue hw hv _ ih => exact HasGreedy.paramValue hw hv ih
  -- suffixes
  | fieldAccess _ hw hv ih => exact HasGreedy.of_part ih (.fieldAccess · hw hv) (fun _ => rfl) fun _ => rfl
  | index _ hw _ hv ihe ihi => exact HasGreedy.of_parts ihe ihi (.index · hw · hv) (fun _ _ => rfl) fun _ _ => rfl
  | slice _ hw _ hx _ hv ihe iha ihb => exact HasGreedy.slice hw hx hv ihe iha ihb
  | sliceStep _ hw _ hx _ hy _ hv ihe iha ihb ihd => exact HasGreedy.sliceStep hw hx hy hv ihe iha ihb ihd
  | sliceNoStop _ hw _ hx _ hv ihe iha ihd => exact HasGreedy.sliceNoStop hw hx hv ihe iha ihd
  | absent => exact ⟨none, .absent, by rintro _ ⟨⟩⟩
  | present _ ih => exact HasGreedy.present ih
  | call _ hw _ hv ihe iha => exact HasGreedy.call hw hv ihe iha
  | apply _ ih =>
    obtain ⟨e, hd, he⟩ := ih
    exact ⟨e, .apply hd, he⟩
  | tailstrict _ hw ih => exact HasGreedy.tailstrict hw ih
  | positional _ ih => exact HasGreedy.positional ih
  | named hw hv _ ih => exact HasGreedy.named hw hv ih
  | applyBrace _ _ ihe iho => exact HasGreedy.applyBrace ihe iho
  -- operands
  | null hw => exact ⟨_, .null hw, .leaf rfl rfl⟩
  | true hw => exact ⟨_, .true hw, .leaf rfl rfl⟩
  | false hw => exact ⟨_, .false hw, .leaf rfl rfl⟩
  | self hw => exact ⟨_, .self hw, .leaf rfl rfl⟩
  | dollar hw => exact ⟨_, .dollar hw, .leaf rfl rfl⟩
  | number hw hr => exact ⟨_, .number hw hr, .leaf rfl rfl⟩
  | var hw => exact ⟨_, .var hw, .leaf rfl rfl⟩
  | stringLiteral hk hr hv => exact ⟨.stringLiteral hk hr hv, .leaf rfl rfl⟩
  | string _ ih => exact ⟨_, .string ih.1, ih.2⟩
  | parens hw _ hv ih => exact HasGreedy.of_part ih (.parens hw · hv) (fun _ => rfl) fun _ => rfl
  | superField hw hx hv => exact ⟨_, .superField hw hx hv, .leaf rfl rfl⟩
  | superIndex hw hx _ hv ih => exact HasGreedy.of_part ih (.superIndex hw hx · hv) (fun _ => rfl) fun _ => rfl
  | importFile ho hw _ ih => exact ⟨_, .importFile ho hw ih.1, .intro rfl (by simp [Node.children, ih.2])⟩
  -- arrays
  | array hw _ hv ih => exact HasGreedy.array hw hv ih
  | arrayComp hw _ _ hv ihe ihs => exact HasGreedy.arrayComp hw hv ihe ihs
  | forSpec hw hx hv _ ih => exact HasGreedy.forSpec hw hx hv ih
  | ifSpec hw _ ih => exact HasGreedy.ifSpec hw ih
  | firstSpec _ ih => exact HasGreedy.firstSpec ih
  | nextSpec _ _ ihss ihs => exact HasGreedy.nextSpec ihss ihs
  -- objects
  | objectExpr _ ih =>
    obtain ⟨e, hd, he⟩ := ih
    exact ⟨e, .objectExpr hd, he⟩
  | object hw _ hv ih => exact HasGreedy.object hw hv ih
  | objectComp hw _ _ hv ha hf hc ihm ihs => exact HasGreedy.objectComp hw hv ha hf hc ihm ihs
  | objectLocal hw _ ih => exact HasGreedy.objectLocal hw ih
  | objectAssert hw _ ih => exact HasGreedy.objectAssert hw ih
  | objectAssertMessage hw _ hv _ ihe ihm => exact HasGreedy.objectAssertMessage hw hv ihe ihm
  | field _ hs hv _ ihn ihe => exact HasGreedy.field hs hv ihn ihe
  | fieldPlus _ hx hs hv _ ihn ihe => exact HasGreedy.fieldPlus hx hs hv ihn ihe
  | method _ _ hs hv _ ihn ihp ihe => exact HasGreedy.method hs hv ihn ihp ihe
  | idName hw => exact ⟨_, _, .idName hw, .leaf rfl rfl⟩
  | stringName _ ih => exact ⟨_, _, .stringName ih.1, ih.2⟩
  | computedName hw _ hv ih => exact HasGreedy.computedName hw hv ih
  -- lists
  | one _ ih => exact .one (ih.part (fun _ _ => trivial) fun _ _ => trivial)
  | more _ hw _ ihs ih => exact .more ihs hw (ih.part (fun _ _ => trivial) fun _ _ => trivial)
  | noItems => exact .empty
  | items _ ih => exact .seq ih
  | itemsComma _ hw ih => exact .comma ih hw

/-- Every expression has a greedy derivation from the same words. -/
theorem Derives.exists_greedy {l : Nat} {e : Node} {ts : List Word} (h : Derives (.expr l e) ts) :
    ∃ e', Derives (.expr l e') ts ∧ e'.Greedy := h.hasGreedy

end JsonnetLocals
