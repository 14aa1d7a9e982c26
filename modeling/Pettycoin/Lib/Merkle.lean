import Mathlib.Data.List.Range
import Mathlib.Data.Nat.Bitwise
import Mathlib.Tactic.Ring

/-!
# Merkle trees over an indexed family of leaves

A complete binary tree of `2 ^ k` leaves is given by its leaf function and the
index of its first leaf; `root` is its root under a node hash. A path climbs
from one leaf to the root of a subtree, taking the bits of the leaf's index,
lowest first, as its turns.

* `climb_root` — a path that takes the true siblings arrives at the root.
* `climb_eq_root_iff` — under an injective node hash, arriving at the root is
  the same as starting from the true leaf and taking the true siblings.
* `root_eq_iff` — under an injective node hash, roots are equal exactly when
  all the leaves are.
-/

namespace MerkleTree

variable {α : Type*} (node : α → α → α) (leaf : ℕ → α)

/-- The root over the leaves `off`, …, `off + 2 ^ k - 1`. -/
def root : ℕ → ℕ → α
  | 0, off => leaf off
  | k + 1, off => node (root k off) (root k (off + 2 ^ k))

/-- Climb `k` levels from `x` at index `pos`: on a set bit the sibling is on the
left, otherwise on the right. -/
def climb (pos : ℕ) (sibling : ℕ → α) (x : α) : ℕ → α
  | 0 => x
  | k + 1 =>
    if pos.testBit k then node (sibling k) (climb pos sibling x k)
    else node (climb pos sibling x k) (sibling k)

/-- The first leaf of the subtree of height `k` that holds `pos`. -/
def subtreeStart (pos k : ℕ) : ℕ := pos / 2 ^ k * 2 ^ k

/-- The first leaf of that subtree's sibling. -/
def siblingStart (pos k : ℕ) : ℕ :=
  if pos.testBit k then (pos / 2 ^ k - 1) * 2 ^ k else (pos / 2 ^ k + 1) * 2 ^ k

@[simp] theorem root_zero (off : ℕ) : root node leaf 0 off = leaf off := rfl

theorem root_succ (k off : ℕ) :
    root node leaf (k + 1) off = node (root node leaf k off) (root node leaf k (off + 2 ^ k)) :=
  rfl

/-- A root depends on its leaves only. -/
theorem root_congr {leaf leaf' : ℕ → α} {k off off' : ℕ}
    (h : ∀ j < 2 ^ k, leaf (off + j) = leaf' (off' + j)) :
    root node leaf k off = root node leaf' k off' := by
  induction k generalizing off off' with
  | zero => simpa using h 0 (by simp)
  | succ k ih =>
    have hright : root node leaf k (off + 2 ^ k) = root node leaf' k (off' + 2 ^ k) := by
      refine ih fun j hj => ?_
      rw [Nat.add_assoc, Nat.add_assoc]
      exact h (2 ^ k + j) (by rw [pow_succ]; omega)
    rw [root_succ, root_succ, ih fun j hj => h j (by rw [pow_succ]; omega), hright]

@[simp] theorem climb_zero (pos : ℕ) (sibling : ℕ → α) (x : α) :
    climb node pos sibling x 0 = x := rfl

@[simp] theorem subtreeStart_zero (pos : ℕ) : subtreeStart pos 0 = pos := by
  simp [subtreeStart]

theorem testBit_iff_div_mod (pos k : ℕ) : pos.testBit k = true ↔ pos / 2 ^ k % 2 = 1 := by
  rw [Nat.testBit_eq_decide_div_mod_eq, decide_eq_true_eq]

/-- On a set bit the parent subtree starts where the sibling does. -/
theorem subtreeStart_succ_of_testBit {pos k : ℕ} (h : pos.testBit k = true) :
    subtreeStart pos (k + 1) = siblingStart pos k ∧
      subtreeStart pos k = siblingStart pos k + 2 ^ k := by
  have hodd : pos / 2 ^ k % 2 = 1 := (testBit_iff_div_mod pos k).mp h
  have hdiv : pos / 2 ^ (k + 1) = pos / 2 ^ k / 2 := by
    rw [Nat.div_div_eq_div_mul, pow_succ]
  have hq : pos / 2 ^ k = 2 * (pos / 2 ^ k / 2) + 1 := by omega
  rw [subtreeStart, subtreeStart, siblingStart, if_pos h, hdiv, pow_succ]
  generalize pos / 2 ^ k / 2 = q at hq
  rw [hq, Nat.add_sub_cancel]
  constructor <;> ring

/-- On a clear bit the parent subtree starts where the subtree does. -/
theorem subtreeStart_succ_of_not_testBit {pos k : ℕ} (h : ¬ pos.testBit k = true) :
    subtreeStart pos (k + 1) = subtreeStart pos k ∧
      siblingStart pos k = subtreeStart pos k + 2 ^ k := by
  have heven : pos / 2 ^ k % 2 = 0 := by
    have := (testBit_iff_div_mod pos k).not.mp h
    omega
  have hdiv : pos / 2 ^ (k + 1) = pos / 2 ^ k / 2 := by
    rw [Nat.div_div_eq_div_mul, pow_succ]
  have hq : pos / 2 ^ k = 2 * (pos / 2 ^ k / 2) := by omega
  rw [subtreeStart, subtreeStart, siblingStart, if_neg h, hdiv, pow_succ]
  generalize pos / 2 ^ k / 2 = q at hq
  rw [hq]
  constructor <;> ring

/-- **Completeness.** A path that takes the true siblings arrives at the root. -/
theorem climb_root (pos : ℕ) {sibling : ℕ → α} {k : ℕ}
    (h : ∀ i < k, sibling i = root node leaf i (siblingStart pos i)) :
    climb node pos sibling (leaf pos) k = root node leaf k (subtreeStart pos k) := by
  induction k with
  | zero => simp
  | succ k ih =>
    have hprev := ih fun i hi => h i (by omega)
    have hsib := h k (by omega)
    rw [climb, hprev, hsib, root_succ]
    by_cases hbit : pos.testBit k = true
    · obtain ⟨hparent, hself⟩ := subtreeStart_succ_of_testBit hbit
      rw [if_pos hbit, hparent, hself]
    · obtain ⟨hparent, hsibling⟩ := subtreeStart_succ_of_not_testBit hbit
      rw [if_neg hbit, hparent, hsibling]

variable {node} (hinj : ∀ a b c d, node a b = node c d → a = c ∧ b = d)
include hinj

/-- **Soundness.** Arriving at the root pins the leaf and every sibling. -/
theorem climb_eq_root_iff (leaf sibling : ℕ → α) (pos : ℕ) {x : α} {k : ℕ} :
    climb node pos sibling x k = root node leaf k (subtreeStart pos k) ↔
      x = leaf pos ∧ ∀ i < k, sibling i = root node leaf i (siblingStart pos i) := by
  constructor
  · induction k with
    | zero => intro h; exact ⟨by simpa using h, by omega⟩
    | succ k ih =>
      intro h
      rw [climb, root_succ] at h
      have hlevel : climb node pos sibling x k = root node leaf k (subtreeStart pos k) ∧
          sibling k = root node leaf k (siblingStart pos k) := by
        by_cases hbit : pos.testBit k = true
        · obtain ⟨hparent, hself⟩ := subtreeStart_succ_of_testBit hbit
          rw [if_pos hbit, hparent, ← hself] at h
          obtain ⟨hs, hx⟩ := hinj _ _ _ _ h
          exact ⟨hx, hs⟩
        · obtain ⟨hparent, hsibling⟩ := subtreeStart_succ_of_not_testBit hbit
          rw [if_neg hbit, hparent, ← hsibling] at h
          exact hinj _ _ _ _ h
      obtain ⟨hx, hsibs⟩ := ih hlevel.1
      refine ⟨hx, fun i hi => ?_⟩
      rcases Nat.lt_succ_iff_lt_or_eq.mp hi with hlt | rfl
      · exact hsibs i hlt
      · exact hlevel.2
  · rintro ⟨rfl, hsibs⟩
    exact climb_root node leaf pos hsibs

/-- Two paths with the same turns that arrive at one place started at one leaf. -/
theorem climb_injective (pos : ℕ) {sibling sibling' : ℕ → α} {x x' : α} {k : ℕ}
    (h : climb node pos sibling x k = climb node pos sibling' x' k) : x = x' := by
  induction k with
  | zero => exact h
  | succ k ih =>
    rw [climb, climb] at h
    by_cases hbit : pos.testBit k = true
    · rw [if_pos hbit, if_pos hbit] at h
      exact ih (hinj _ _ _ _ h).2
    · rw [if_neg hbit, if_neg hbit] at h
      exact ih (hinj _ _ _ _ h).1

/-- Two roots of one height are equal exactly when their leaves are. -/
theorem root_eq_iff {leaf' : ℕ → α} {k off off' : ℕ} :
    root node leaf k off = root node leaf' k off' ↔
      ∀ j < 2 ^ k, leaf (off + j) = leaf' (off' + j) := by
  induction k generalizing off off' with
  | zero => simp
  | succ k ih =>
    rw [root_succ, root_succ]
    constructor
    · intro h j hj
      obtain ⟨hl, hr⟩ := hinj _ _ _ _ h
      by_cases hlow : j < 2 ^ k
      · exact ih.mp hl j hlow
      · have := ih.mp hr (j - 2 ^ k) (by rw [pow_succ] at hj; omega)
        rwa [show off + 2 ^ k + (j - 2 ^ k) = off + j by omega,
          show off' + 2 ^ k + (j - 2 ^ k) = off' + j by omega] at this
    · exact fun h => root_congr node h

end MerkleTree
