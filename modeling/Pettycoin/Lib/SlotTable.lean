import Mathlib.Logic.Function.Basic

/-!
# Tables with a slot for every record

A table holds one record in each of its slots, and a record may be right for some slots only:
`Placed` says that every record is right for its slot. `Through` compares a table with a copy
of it: the two may differ only in marked slots, and these are empty. Both are kept when a slot
is written to the table and the copy, and when it is emptied in the table and marked.

* `Placed.update` — writing or emptying a slot;
* `Through.write`, `Through.remove` — the same with a copy.
-/

namespace SlotTable

variable {ι α : Type*} {right right' : ι → α → Prop} {table copy : ι → α} {marked : ι → Bool}
  {empty a : α} {i : ι}

/-- Every record is right for its slot. -/
def Placed (right : ι → α → Prop) (table : ι → α) : Prop := ∀ i, right i (table i)

/-- Outside of the marked slots the copy has what the table has; these are empty. -/
structure Through (empty : α) (marked : ι → Bool) (table copy : ι → α) : Prop where
  same : ∀ i, marked i = false → copy i = table i
  removed : ∀ i, marked i = true → table i = empty

theorem Placed.mono (h : Placed right table) (hle : ∀ i a, right i a → right' i a) :
    Placed right' table :=
  fun i => hle i _ (h i)

theorem Through.refl (table : ι → α) : Through empty (fun _ => false) table table :=
  ⟨fun _ _ => rfl, fun _ hm => absurd hm Bool.false_ne_true⟩

variable [DecidableEq ι]

/-- A record that is right for the slot keeps the table right. -/
theorem Placed.update (h : Placed right table) (ha : right i a) :
    Placed right (Function.update table i a) := by
  intro j
  by_cases hj : j = i
  · rw [hj, Function.update_self]
    exact ha
  · rw [Function.update_of_ne hj]
    exact h j

/-- A record that is written to both: the slot need not be marked. -/
theorem Through.write (h : Through empty marked table copy) (i : ι) (a : α) :
    Through empty (Function.update marked i false) (Function.update table i a)
      (Function.update copy i a) := by
  constructor
  · intro j hj
    by_cases hji : j = i
    · rw [hji, Function.update_self, Function.update_self]
    · rw [Function.update_of_ne hji] at hj ⊢
      rw [Function.update_of_ne hji]
      exact h.same j hj
  · intro j hj
    by_cases hji : j = i
    · rw [hji, Function.update_self] at hj
      exact absurd hj Bool.false_ne_true
    · rw [Function.update_of_ne hji] at hj ⊢
      exact h.removed j hj

/-- A slot that is emptied in the table only: it is marked. -/
theorem Through.remove (h : Through empty marked table copy) (i : ι) :
    Through empty (Function.update marked i true) (Function.update table i empty) copy := by
  constructor
  · intro j hj
    by_cases hji : j = i
    · rw [hji, Function.update_self] at hj
      exact absurd hj.symm Bool.false_ne_true
    · rw [Function.update_of_ne hji] at hj ⊢
      exact h.same j hj
  · intro j hj
    by_cases hji : j = i
    · rw [hji, Function.update_self]
    · rw [Function.update_of_ne hji] at hj ⊢
      exact h.removed j hj

end SlotTable
