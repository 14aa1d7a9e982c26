import Mathlib.Data.List.Sort
import Mathlib.Data.List.Rotate

/-!
# Sorting with a comparison function

A comparison function in C tells by the sign of a number how two elements
compare. A sort that is given one puts the elements in order if the function is
a consistent three-way order (`ThreeWay`). If it is not, all that is said of a
sort is that it moves the elements about (`Sorts`): then any of them may end at
any place (`exists_sorts_placing`).

* `ThreeWay.total` — such an order is total;
* `sorts_mergeSorter`, `sorts_insertionSorter` — two sorts;
* `exists_sorts_placing` — what may come of a comparison that is no order.
-/

namespace Sorting

variable {α : Type} {cmp : α → α → Int} {sort : (α → α → Int) → List α → List α}

/-- The signs are those of an order: they change when the elements are swapped, and
not being greater is transitive. -/
structure ThreeWay (cmp : α → α → Int) : Prop where
  swap : ∀ a b, cmp a b < 0 ↔ 0 < cmp b a
  trans : ∀ a b c, cmp a b ≤ 0 → cmp b c ≤ 0 → cmp a c ≤ 0

/-- A sort: it moves the elements about, and orders them where the comparison is an
order. -/
structure Sorts (sort : (α → α → Int) → List α → List α) : Prop where
  perm : ∀ cmp l, (sort cmp l).Perm l
  sorted : ∀ cmp, ThreeWay cmp → ∀ l, (sort cmp l).Pairwise fun a b => cmp a b ≤ 0

theorem ThreeWay.total (h : ThreeWay cmp) (a b : α) : cmp a b ≤ 0 ∨ cmp b a ≤ 0 := by
  have hswap := h.swap b a
  omega

-- ---------------------------------------------------------------------------
-- Two sorts
-- ---------------------------------------------------------------------------

/-- A merge takes the first of two elements unless it is greater. -/
def mergeSorter (cmp : α → α → Int) (l : List α) : List α :=
  l.mergeSort fun a b => cmp a b ≤ 0

theorem sorts_mergeSorter : Sorts (mergeSorter (α := α)) where
  perm cmp l := List.mergeSort_perm l _
  sorted cmp h l := by
    have hpairs : (l.mergeSort fun a b => decide (cmp a b ≤ 0)).Pairwise
        fun a b => decide (cmp a b ≤ 0) = true :=
      List.pairwise_mergeSort (fun a b c hab hbc => by simp at *; exact h.trans a b c hab hbc)
        (fun a b => by simpa using h.total a b) l
    exact hpairs.imp fun hab => by simpa using hab

/-- An insertion moves an element to the front while it is less than the one before. -/
def insertionSorter (cmp : α → α → Int) (l : List α) : List α :=
  (l.reverse.insertionSort fun a b => 0 ≤ cmp a b).reverse

theorem sorts_insertionSorter : Sorts (insertionSorter (α := α)) where
  perm cmp l :=
    (List.reverse_perm _).trans ((List.perm_insertionSort _ _).trans (List.reverse_perm l))
  sorted cmp h l := by
    have htotal : Std.Total fun a b => 0 ≤ cmp a b := ⟨fun a b => by
      have hab := h.swap a b
      omega⟩
    have htrans : IsTrans α fun a b => 0 ≤ cmp a b := ⟨fun a b c hab hbc => by
      have hba := h.trans c b a
      have h₁ := h.swap a b
      have h₂ := h.swap b c
      have h₃ := h.swap a c
      have h₄ := h.swap b a
      have h₅ := h.swap c b
      have h₆ := h.swap c a
      omega⟩
    unfold insertionSorter
    rw [List.pairwise_reverse]
    refine (List.pairwise_insertionSort _ l.reverse).imp fun {a b} hab => ?_
    have hswap := h.swap a b
    have hswap' := h.swap b a
    omega

-- ---------------------------------------------------------------------------
-- Without an order
-- ---------------------------------------------------------------------------

/-- Some arrangement of a list has a given element at a given place. -/
theorem exists_perm_getElem? {l : List α} {x : α} {i : Nat} (hx : x ∈ l) (hi : i < l.length) :
    ∃ l' : List α, l'.Perm l ∧ l'[i]? = some x := by
  obtain ⟨k, hk, rfl⟩ := List.getElem_of_mem hx
  refine ⟨l.rotate (k + (l.length - i)), l.rotate_perm _, ?_⟩
  rw [List.getElem?_eq_getElem (by simpa using hi), List.getElem_rotate]
  congr 2
  rw [show i + (k + (l.length - i)) = k + l.length by omega, Nat.add_mod_right,
    Nat.mod_eq_of_lt hk]

/-- Where the comparison is no order, a sort may put any element anywhere. -/
theorem exists_sorts_placing (hcmp : ¬ ThreeWay cmp) {l : List α} {x : α} {i : Nat} (hx : x ∈ l)
    (hi : i < l.length) :
    ∃ sort : (α → α → Int) → List α → List α, Sorts sort ∧ (sort cmp l)[i]? = some x := by
  classical
  obtain ⟨l', hperm, hl'⟩ := exists_perm_getElem? hx hi
  refine ⟨fun cmp m => if ¬ ThreeWay cmp ∧ m = l then l' else mergeSorter cmp m, ⟨?_, ?_⟩, ?_⟩
  · intro cmp m
    split_ifs with h
    · exact h.2 ▸ hperm
    · exact sorts_mergeSorter.perm cmp m
  · intro cmp h m
    rw [if_neg fun hno => hno.1 h]
    exact sorts_mergeSorter.sorted cmp h m
  · dsimp only
    rw [if_pos ⟨hcmp, rfl⟩]
    exact hl'

end Sorting
