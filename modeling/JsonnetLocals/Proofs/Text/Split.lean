/-
  JsonnetLocals.Proofs.Text.Split — what cutting at a separator gives.

  No piece holds the separator (`Text.notMem_splitFrom`), and pieces without it that are joined come
  apart again (`Text.split_intercalate`).
-/

import JsonnetLocals.Text.Split
import Mathlib.Data.List.Basic
import Mathlib.Tactic.Common

namespace JsonnetLocals.Text

variable {α : Type} [DecidableEq α] {sep : α}

theorem notMem_splitFrom {piece items x : List α} (hp : sep ∉ piece) (hx : x ∈ splitFrom sep piece items) :
    sep ∉ x := by
  induction items generalizing piece with
  | nil =>
    obtain rfl := List.mem_singleton.mp hx
    rwa [List.mem_reverse]
  | cons c rest ih =>
    rw [splitFrom] at hx
    split at hx
    · rcases List.mem_cons.mp hx with rfl | hx
      · rwa [List.mem_reverse]
      · exact ih List.not_mem_nil hx
    · rename_i hc
      refine ih ?_ hx
      rw [List.mem_cons, not_or]
      exact ⟨fun e => hc e.symm, hp⟩

theorem splitFrom_of_notMem {piece items : List α} (h : sep ∉ items) :
    splitFrom sep piece items = [piece.reverse ++ items] := by
  induction items generalizing piece with
  | nil => rw [splitFrom, List.append_nil]
  | cons c rest ih =>
    rw [List.mem_cons, not_or] at h
    rw [splitFrom, if_neg (fun e => h.1 e.symm), ih h.2, List.reverse_cons, List.append_assoc]
    rfl

theorem splitFrom_append {piece x rest : List α} (hx : sep ∉ x) :
    splitFrom sep piece (x ++ sep :: rest) = (piece.reverse ++ x) :: splitFrom sep [] rest := by
  induction x generalizing piece with
  | nil => rw [List.nil_append, splitFrom, if_pos rfl, List.append_nil]
  | cons c x ih =>
    rw [List.mem_cons, not_or] at hx
    rw [List.cons_append, splitFrom, if_neg (Ne.symm hx.1), ih hx.2, List.reverse_cons, List.append_assoc]
    rfl

/-- Pieces that are joined by a separator come apart again. -/
theorem split_intercalate {xs : List (List α)} (hne : xs ≠ []) (h : ∀ x ∈ xs, sep ∉ x) :
    split sep ([sep].intercalate xs) = xs := by
  unfold split
  induction xs with
  | nil => exact absurd rfl hne
  | cons x xs ih =>
    rw [List.forall_mem_cons] at h
    cases xs with
    | nil =>
      rw [List.intercalate_singleton, splitFrom_of_notMem h.1]
      rfl
    | cons y ys =>
      rw [List.intercalate_cons_cons, List.append_assoc, List.singleton_append, splitFrom_append h.1,
        ih (List.cons_ne_nil y ys) h.2]
      rfl

end JsonnetLocals.Text
