/-
  JsonnetLocals.Table — lists of pairs that are looked up by key.

  Keys stay in the order in which they came. `lookup_put` and `lookup_erase` say what a table holds
  after a change, at every key.
-/

namespace JsonnetLocals.Table

variable {κ α : Type} [BEq κ]

/-- The table with `v` at `k`: in place if the key is there, else at the end. -/
def put (k : κ) (v : α) : List (κ × α) → List (κ × α)
  | [] => [(k, v)]
  | (a, b) :: rest => if a == k then (a, v) :: rest else (a, b) :: put k v rest

def erase (k : κ) (t : List (κ × α)) : List (κ × α) := t.filter fun x => x.1 != k

variable [LawfulBEq κ]

theorem lookup_put (k j : κ) (v : α) (t : List (κ × α)) :
    (put k v t).lookup j = if j == k then some v else t.lookup j := by
  induction t with
  | nil => cases h : j == k <;> simp [put, List.lookup_cons, h]
  | cons x rest ih =>
    obtain ⟨a, b⟩ := x
    cases ha : a == k
    · cases h : j == a
      · simp [put, List.lookup_cons, ha, h, ih]
      · have : (j == k) = false := by rw [eq_of_beq h, ha]
        simp [put, List.lookup_cons, ha, h, this]
    · cases h : j == a <;> simp [put, List.lookup_cons, ← eq_of_beq ha, h]

theorem lookup_erase (k j : κ) (t : List (κ × α)) :
    (erase k t).lookup j = if j == k then none else t.lookup j := by
  induction t with
  | nil => simp [erase]
  | cons x rest ih =>
    obtain ⟨a, b⟩ := x
    simp only [erase] at ih ⊢
    cases ha : a == k
    · rw [List.filter_cons_of_pos (by simp [bne, ha])]
      cases h : j == a
      · rw [List.lookup_cons, h, ih, List.lookup_cons, h]
      · have : (j == k) = false := by rw [eq_of_beq h, ha]
        simp [List.lookup_cons, h, this]
    · rw [List.filter_cons_of_neg (by simp [bne, ha]), ih, ← eq_of_beq ha]
      cases h : j == a <;> simp [List.lookup_cons, h]

end JsonnetLocals.Table
