/-
  JsonnetLocals.Proofs.Source.Simultaneous — edits are made at once or not at all.

  The loop looks at no more than the start of the edit before: that limit is enough, since a list
  that gets through it stands in order, one edit after another (`inOrder_of_spliceAll`). So edits of
  ranges that are not empty are applied exactly when no two of them cover one byte and all end in the
  buffer. What comes out is what stands between the edits with the new texts in place, and a list in
  another order gives the same (`applyAll_at_once`).
-/

import JsonnetLocals.Proofs.Source.Splice
import Mathlib.Data.Int.ConditionallyCompleteOrder
import Mathlib.Order.CompletePartialOrder
import Mathlib.Order.ConditionallyCompleteLattice.Basic
import Mathlib.Order.Interval.Set.Disjoint

namespace JsonnetLocals

namespace Edit

variable {source buffer out : Bytes} {size : Nat} {es edits : List Edit} {e : Edit}

def covered (e : Edit) : Set Int := Set.Ico e.start e.stop

def Replaces (e : Edit) : Prop := 0 ≤ e.start ∧ e.start < e.stop

instance (e : Edit) : Decidable e.Replaces := inferInstanceAs (Decidable (0 ≤ e.start ∧ e.start < e.stop))

/-- The edits can be made at once in a buffer of `size` bytes: no two cover one byte. -/
structure AtOnce (size : Nat) (edits : List Edit) : Prop where
  disjoint : edits.Pairwise fun a b => Disjoint a.covered b.covered
  inside : ∀ e ∈ edits, e.stop ≤ size

def Encodes (e : Edit) : Prop := ∃ bytes, e.text.encode = .ok bytes

/-! ## Order and disjointness -/

theorem AtOnce.perm {edits' : List Edit} (h : AtOnce size edits) (hp : edits'.Perm edits) : AtOnce size edits' := by
  refine ⟨?_, fun e he => h.inside e (hp.subset he)⟩
  exact (hp.pairwise_iff fun hd => hd.symm).mpr h.disjoint

/-- Of two edits that cover no common byte, the one that starts first also ends first. -/
theorem disjoint_covered_iff {a b : Edit} (hb : b.Replaces) (hab : a.start ≤ b.start) :
    Disjoint a.covered b.covered ↔ a.stop ≤ b.start := by
  unfold covered
  unfold Replaces at hb
  rw [Set.Ico_disjoint_Ico]
  omega

theorem InOrder.replaces (h : InOrder size es) : ∀ e ∈ es, e.Replaces := by
  intro e he
  obtain ⟨h0, hlt, -⟩ := h.inside e he
  exact ⟨h0, hlt⟩

theorem InOrder.atOnce (h : InOrder size es) : AtOnce size es := by
  refine ⟨h.apart.imp_of_mem ?_, fun e he => (h.inside e he).2.2⟩
  intro a b ha hb hab
  have hra : a.start < a.stop := (h.replaces a ha).2
  exact (disjoint_covered_iff (h.replaces b hb) (by omega)).mpr hab

/-- Edits that can be made at once stand in order when they are arranged. -/
theorem AtOnce.inOrder (h : AtOnce size edits) (hr : ∀ e ∈ edits, e.Replaces) : InOrder size (arrange edits).reverse := by
  have hmem {e : Edit} (he : e ∈ (arrange edits).reverse) : e ∈ edits :=
    (arrange_perm edits).subset (List.mem_reverse.mp he)
  constructor
  · intro e he
    obtain ⟨h0, hlt⟩ := hr e (hmem he)
    exact ⟨h0, hlt, h.inside e (hmem he)⟩
  · have hdisjoint := (h.perm ((arrange edits).reverse_perm.trans (arrange_perm edits))).disjoint
    have hsorted := List.pairwise_reverse.mpr (pairwise_arrange edits)
    refine (hsorted.and hdisjoint).imp_of_mem ?_
    intro a b _ hb hab
    exact (disjoint_covered_iff (hr b (hmem hb)) hab.1).mp hab.2

/-! ## The loop -/

theorem InOrder.snoc (h : InOrder e.start.toNat es) (hr : e.Replaces) (he : e.stop ≤ size) : InOrder size (es ++ [e]) := by
  obtain ⟨h0, hlt⟩ := hr
  constructor
  · intro d hd
    rcases List.mem_append.mp hd with hd | hd
    · have := h.inside d hd
      omega
    · obtain rfl := List.mem_singleton.mp hd
      exact ⟨h0, hlt, he⟩
  · rw [List.pairwise_append]
    refine ⟨h.apart, List.pairwise_singleton _ _, fun a ha b hb => ?_⟩
    obtain rfl := List.mem_singleton.mp hb
    have := h.inside a ha
    omega

/-- Edits that get through the loop stand in order, from the last to the first. -/
theorem inOrder_of_spliceAll (hr : ∀ e ∈ es, e.Replaces) (h : spliceAll buffer size es = .ok out) :
    InOrder size es.reverse ∧ ∀ e ∈ es, e.Encodes := by
  induction es generalizing buffer size with
  | nil => exact ⟨⟨List.forall_mem_nil _, .nil⟩, List.forall_mem_nil _⟩
  | cons e rest ih =>
    rw [List.forall_mem_cons] at hr
    unfold spliceAll at h
    split at h
    · rename_i hlimit
      split at h
      · cases h
      · rename_i bytes hbytes
        have hstart : ((e.start.toNat : Nat) : Int) = e.start := Int.toNat_of_nonneg hr.1.1
        rw [← hstart] at h
        obtain ⟨horder, hencodes⟩ := ih hr.2 h
        rw [List.reverse_cons]
        exact ⟨horder.snoc hr.1 hlimit, List.forall_mem_cons.mpr ⟨⟨bytes, hbytes⟩, hencodes⟩⟩
    · cases h

/-- When every new text has bytes, only an overlap ends the loop. -/
theorem overlap_of_spliceAll {limit : Int} {x : EditError} (ht : ∀ e ∈ es, e.Encodes)
    (h : spliceAll buffer limit es = .error x) : ∃ e ∈ es, x = .overlap e.start := by
  induction es generalizing buffer limit with
  | nil => cases h
  | cons e rest ih =>
    rw [List.forall_mem_cons] at ht
    obtain ⟨⟨bytes, hbytes⟩, ht⟩ := ht
    unfold spliceAll at h
    split at h
    · rw [hbytes] at h
      obtain ⟨d, hd, hx⟩ := ih ht h
      exact ⟨d, List.mem_cons_of_mem e hd, hx⟩
    · cases h
      exact ⟨e, List.mem_cons_self, rfl⟩

/-! ## All edits -/

/-- Edits that can be made at once, with texts that have bytes, are. -/
theorem exists_weave (hr : ∀ e ∈ edits, e.Replaces) (h : AtOnce source.length edits) (ht : ∀ e ∈ edits, e.Encodes) :
    ∃ es text, es.Perm edits ∧ InOrder source.length es ∧ (∀ e ∈ es, e.text.encode = .ok (text e)) ∧
      ∀ edits', edits'.Perm edits → applyAll source edits' = .ok (weave source text 0 es) := by
  have hperm : (arrange edits).reverse.Perm edits := (arrange edits).reverse_perm.trans (arrange_perm edits)
  have horder := h.inOrder hr
  choose! text htext using ht
  have htexts : ∀ e ∈ (arrange edits).reverse, e.text.encode = .ok (text e) := fun e he => htext e (hperm.subset he)
  exact ⟨_, text, hperm, horder, htexts, fun edits' hp => applyAll_eq_weave (hp.trans hperm.symm) horder htexts⟩

theorem atOnce_of_applyAll (hr : ∀ e ∈ edits, e.Replaces) (h : applyAll source edits = .ok out) :
    AtOnce source.length edits ∧ ∀ e ∈ edits, e.Encodes := by
  have hperm := arrange_perm edits
  obtain ⟨horder, hencodes⟩ := inOrder_of_spliceAll (fun e he => hr e (hperm.subset he)) h
  exact ⟨horder.atOnce.perm (hperm.symm.trans (arrange edits).reverse_perm.symm), fun e he => hencodes e (hperm.symm.subset he)⟩

theorem exists_applyAll_iff (hr : ∀ e ∈ edits, e.Replaces) :
    (∃ out, applyAll source edits = .ok out) ↔ AtOnce source.length edits ∧ ∀ e ∈ edits, e.Encodes := by
  constructor
  · rintro ⟨out, h⟩
    exact atOnce_of_applyAll hr h
  · rintro ⟨h, ht⟩
    obtain ⟨es, text, -, -, -, happly⟩ := exists_weave hr h ht
    exact ⟨_, happly edits (.refl edits)⟩

/-- Edits of ranges that are not empty are applied exactly when they can be made at once and their texts have bytes; when
    all have bytes, anything else is an overlap. The result is the source with each new text in place of its range, and a
    list in another order comes to the same. -/
theorem applyAll_at_once (source : Bytes) (edits : List Edit) (hr : ∀ e ∈ edits, e.Replaces) :
    ((∃ out, applyAll source edits = .ok out) ↔ AtOnce source.length edits ∧ ∀ e ∈ edits, e.Encodes) ∧
    ((∀ e ∈ edits, e.Encodes) → ¬ AtOnce source.length edits →
      ∃ e ∈ edits, applyAll source edits = .error (.overlap e.start)) ∧
    (∀ out, applyAll source edits = .ok out →
      ∃ es text, es.Perm edits ∧ InOrder source.length es ∧ (∀ e ∈ es, e.text.encode = .ok (text e)) ∧
        out = weave source text 0 es) ∧
    ∀ edits', edits'.Perm edits → ∀ out, applyAll source edits' = .ok out ↔ applyAll source edits = .ok out := by
  refine ⟨exists_applyAll_iff hr, fun ht hno => ?_, fun out h => ?_, fun edits' hp out => ?_⟩
  · cases h : applyAll source edits with
    | ok out => exact absurd (atOnce_of_applyAll hr h).1 hno
    | error x =>
      have hmem {e : Edit} (he : e ∈ arrange edits) : e ∈ edits := (arrange_perm edits).subset he
      obtain ⟨e, he, rfl⟩ := overlap_of_spliceAll (fun e he => ht e (hmem he)) h
      exact ⟨e, hmem he, rfl⟩
  · obtain ⟨hat, ht⟩ := atOnce_of_applyAll hr h
    obtain ⟨es, text, hperm, horder, htexts, happly⟩ := exists_weave hr hat ht
    exact ⟨es, text, hperm, horder, htexts, Except.ok.inj (h.symm.trans (happly edits (.refl edits)))⟩
  · have hsame {xs ys : List Edit} (hxs : ∀ e ∈ xs, e.Replaces) (hxy : ys.Perm xs) (h : applyAll source xs = .ok out) :
        applyAll source ys = .ok out := by
      obtain ⟨hat, ht⟩ := atOnce_of_applyAll hxs h
      obtain ⟨es, text, -, -, -, happly⟩ := exists_weave hxs hat ht
      rw [happly ys hxy, ← happly xs (.refl xs), h]
    exact ⟨hsame (fun e he => hr e (hp.subset he)) hp.symm, hsame hr hp⟩

/-- Two edits, of which the one in front ends where the other begins. -/
def touching : List Edit := [⟨2, 4, "é", by decide⟩, ⟨1, 2, "X", by decide⟩]

theorem applyAll_at_once_touching :
    AtOnce 4 touching ∧ applyAll (Utf8.encode "abcd") touching = .ok (Utf8.encode "aXé") ∧
      applyAll (Utf8.encode "abcd") touching.reverse = .ok (Utf8.encode "aXé") := by
  have harrange : arrange touching = touching := List.mergeSort_of_pairwise (by decide)
  have happly : applyAll (Utf8.encode "abcd") touching = .ok (Utf8.encode "aXé") := by
    rw [applyAll, harrange]
    rfl
  obtain ⟨hiff, -, -, hperm⟩ := applyAll_at_once (Utf8.encode "abcd") touching (by decide)
  exact ⟨(hiff.mp ⟨_, happly⟩).1, happly, (hperm _ touching.reverse_perm _).mpr happly⟩

end Edit

end JsonnetLocals
