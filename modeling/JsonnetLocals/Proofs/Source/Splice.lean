/-
  JsonnetLocals.Proofs.Source.Splice — many edits of one buffer at once.

  Edits that lie in the buffer, one after another, are applied as if all at once, in whatever order
  they were queued: the result is what stands between them, with each new text in its place
  (`applyAll_eq_weave`). The splices go from the last edit to the first, so the front of the buffer
  that they have not reached is that of the source (`spliceAll_reverse`).
-/

import JsonnetLocals.Source.Edit
import Mathlib.Tactic.Common
import Mathlib.Data.List.Induction

namespace JsonnetLocals

namespace Edit

/-- The edits stand in a buffer of `size` bytes, each after the one before it. -/
structure InOrder (size : Nat) (es : List Edit) : Prop where
  inside : ∀ e ∈ es, 0 ≤ e.start ∧ e.start < e.stop ∧ e.stop ≤ size
  apart : es.Pairwise fun a b => a.stop ≤ b.start

/-- The source from the offset `pos` on, with `text e` in place of what each edit covers. -/
def weave (source : Bytes) (text : Edit → Bytes) (pos : Nat) : List Edit → Bytes
  | [] => source.drop pos
  | e :: rest => (source.drop pos).take (e.start.toNat - pos) ++ text e ++ weave source text e.stop.toNat rest

theorem weave_concat {source : Bytes} {text : Edit → Bytes} {pos : Nat} {es : List Edit} {e : Edit}
    (h : ∀ d ∈ es, d.start ≤ e.start) :
    weave source text pos (es ++ [e]) =
      weave (source.take e.start.toNat) text pos es ++ (text e ++ source.drop e.stop.toNat) := by
  induction es generalizing pos with
  | nil => simp [weave, List.drop_take]
  | cons d es ih =>
    have hd : d.start ≤ e.start := h d List.mem_cons_self
    have htake : min (d.start.toNat - pos) (e.start.toNat - pos) = d.start.toNat - pos := by omega
    rw [List.cons_append, weave, weave, ih fun c hc => h c (List.mem_cons_of_mem d hc), List.drop_take, List.take_take,
      htake]
    simp

theorem InOrder.concat {size : Nat} {es : List Edit} {e : Edit} (h : InOrder size (es ++ [e])) :
    InOrder e.start.toNat es ∧ 0 ≤ e.start ∧ e.start < e.stop ∧ e.stop ≤ size := by
  obtain ⟨hin, hap⟩ := h
  rw [List.pairwise_append] at hap
  have he := hin e (by simp)
  refine ⟨⟨fun d hd => ?_, hap.1⟩, he⟩
  have h1 := hin d (by simp [hd])
  have h2 := hap.2.2 d hd e (by simp)
  omega

/-- The splice of an edit whose end lies in the front of the source that is still there. -/
theorem splice_take {source tail bytes : Bytes} {size : Nat} {e : Edit} (hs : size ≤ source.length)
    (h : 0 ≤ e.start ∧ e.start < e.stop ∧ e.stop ≤ size) :
    e.splice bytes (source.take size ++ tail) =
      source.take e.start.toNat ++ (bytes ++ ((source.take size).drop e.stop.toNat ++ tail)) := by
  have hlen : (source.take size).length = size := by rw [List.length_take, Nat.min_eq_left hs]
  have hstart : clampOffset (source.take size ++ tail).length e.start = e.start.toNat := by
    rw [clampOffset, if_neg (by omega), List.length_append]
    omega
  have hstop : clampOffset (source.take size ++ tail).length e.stop = e.stop.toNat := by
    rw [clampOffset, if_neg (by omega), List.length_append]
    omega
  rw [splice, hstart, hstop, List.take_append_of_le_length (by omega), List.drop_append_of_le_length (by omega),
    List.take_take, Nat.min_eq_left (by omega), List.append_assoc]

/-- From the last edit to the first: `tail` is what the splices so far have made of the rest. -/
theorem spliceAll_reverse {source : Bytes} {text : Edit → Bytes} {size : Nat} {es : List Edit} (tail : Bytes)
    (hs : size ≤ source.length) (ho : InOrder size es) (he : ∀ e ∈ es, e.text.encode = .ok (text e)) :
    spliceAll (source.take size ++ tail) size es.reverse = .ok (weave (source.take size) text 0 es ++ tail) := by
  induction es using List.reverseRecOn generalizing size tail with
  | nil => rfl
  | append_singleton es e ih =>
    obtain ⟨ho', hin⟩ := ho.concat
    have hlen : e.start.toNat ≤ source.length := by omega
    have hle : ∀ d ∈ es, d.start ≤ e.start := by
      intro d hd
      have := ho'.inside d hd
      omega
    have hlimit : ((e.start.toNat : Nat) : Int) = e.start := by omega
    have hih := ih (text e ++ ((source.take size).drop e.stop.toNat ++ tail)) hlen ho'
      fun d hd => he d (by simp [hd])
    rw [hlimit] at hih
    rw [List.reverse_concat, spliceAll, if_pos hin.2.2, he e (by simp)]
    dsimp only
    rw [splice_take hs hin, hih, weave_concat hle, List.take_take, Nat.min_eq_left (by omega)]
    simp

/-- Two of the edits that start together are one. -/
theorem InOrder.eq_of_start_eq {size : Nat} {es : List Edit} (ho : InOrder size es) {a b : Edit} (ha : a ∈ es) (hb : b ∈ es)
    (h : a.start = b.start) : a = b := by
  have hlt : es.Pairwise fun a b => a.start < b.start := by
    refine ho.apart.imp_of_mem ?_
    intro a b ha _ hab
    have := ho.inside a ha
    omega
  refine List.Pairwise.forall_of_forall_of_flip (R := fun a b => a.start = b.start → a = b) (fun _ _ _ => rfl) ?_ ?_ ha hb h
  · exact hlt.imp fun h1 h2 => absurd h2 (by omega)
  · exact hlt.imp fun h1 h2 => absurd h2 (by omega)

theorem arrange_perm (edits : List Edit) : (arrange edits).Perm edits := List.mergeSort_perm edits _

theorem pairwise_arrange (edits : List Edit) : (arrange edits).Pairwise fun a b => b.start ≤ a.start := by
  have hsort : (arrange edits).Pairwise fun a b => decide (b.start ≤ a.start) = true :=
    List.pairwise_mergeSort (fun a b c h1 h2 => by simp only [decide_eq_true_eq] at *; omega)
      (fun a b => by simp only [Bool.or_eq_true, decide_eq_true_eq]; omega) edits
  exact hsort.imp of_decide_eq_true

/-- Edits that stand one after another are arranged from the last to the first. -/
theorem arrange_eq_reverse {size : Nat} {queued es : List Edit} (hp : queued.Perm es) (ho : InOrder size es) :
    arrange queued = es.reverse := by
  have hdesc : es.reverse.Pairwise fun a b => b.start ≤ a.start := by
    rw [List.pairwise_reverse]
    refine ho.apart.imp_of_mem ?_
    intro a b ha _ hab
    have := ho.inside a ha
    omega
  have hperm : (arrange queued).Perm es.reverse := (arrange_perm queued).trans (hp.trans es.reverse_perm.symm)
  refine hperm.eq_of_pairwise (fun a b ha hb h1 h2 => ?_) (pairwise_arrange queued) hdesc
  exact ho.eq_of_start_eq (List.mem_reverse.mp (hperm.subset ha)) (List.mem_reverse.mp hb) (by omega)

/-- Edits that stand one after another are applied as if at once, however they were queued. -/
theorem applyAll_eq_weave {source : Bytes} {text : Edit → Bytes} {queued es : List Edit} (hp : queued.Perm es)
    (ho : InOrder source.length es) (he : ∀ e ∈ es, e.text.encode = .ok (text e)) :
    applyAll source queued = .ok (weave source text 0 es) := by
  have h := spliceAll_reverse [] (Nat.le_refl source.length) ho he
  rw [List.take_length, List.append_nil, List.append_nil] at h
  rw [applyAll, arrange_eq_reverse hp ho, h]

end Edit

end JsonnetLocals
