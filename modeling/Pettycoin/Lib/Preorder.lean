import Mathlib.Data.List.Basic

/-!
# Trees in preorder

A tree is laid out in an array in preorder, and every place knows only how many children
follow. `Skips arity n i j` says that `n` whole trees lie from `i` to just before `j`. Walking
over a tree by these counts (`next`) ends just after it, and reads no place behind it
(`next_eq_of_skips`).

* `Skips.add`, `Skips.children` — trees one after the other, and below one;
* `Skips.le` — trees take room;
* `next_eq_of_skips` — a walk ends behind the tree.
-/

namespace Preorder

variable {ε : Type*} {arity : Nat → Except ε Nat} {stuck : ε} {n m i j k : Nat}

/-- From `i` to just before `j` there are `n` trees. -/
inductive Skips (arity : Nat → Except ε Nat) : Nat → Nat → Nat → Prop
  | none (i : Nat) : Skips arity 0 i i
  | tree {n m i j k : Nat} : arity i = .ok m → Skips arity m (i + 1) k → Skips arity n k j →
      Skips arity (n + 1) i j

/-- `n` times the next place. -/
def skip (step : Nat → Except ε Nat) : Nat → Nat → Except ε Nat
  | 0, t => .ok t
  | n + 1, t => do
    let t ← step t
    skip step n t

/-- The place after the tree at `i`; `stuck` if it is not reached with the fuel. -/
def next (arity : Nat → Except ε Nat) (stuck : ε) : Nat → Nat → Except ε Nat
  | 0, _ => .error stuck
  | fuel + 1, i => do
    let size ← arity i
    skip (next arity stuck fuel) size (i + 1)

/-- One tree. -/
theorem Skips.one (h : arity i = .ok m) (hs : Skips arity m (i + 1) j) : Skips arity 1 i j :=
  .tree h hs (.none j)

/-- Trees, and trees after them. -/
theorem Skips.add (h : Skips arity n i k) (h' : Skips arity m k j) : Skips arity (n + m) i j := by
  induction h with
  | none i =>
    rw [Nat.zero_add]
    exact h'
  | tree ha hs _ _ ih =>
    rw [Nat.add_right_comm]
    exact .tree ha hs (ih h')

/-- Every tree takes a place. -/
theorem Skips.le (h : Skips arity n i j) : i + n ≤ j := by
  induction h with
  | none i => exact Nat.le_refl i
  | tree _ _ _ ih ih' => omega

/-- The children of a tree lie behind its root. -/
theorem Skips.children (h : Skips arity 1 i j) (ha : arity i = .ok m) : Skips arity m (i + 1) j := by
  cases h with
  | tree ha' hs hrest =>
    obtain rfl := Except.ok.inj (ha.symm.trans ha')
    cases hrest
    exact hs

/-- At every place a tree begins, and ends where the trees do or before. -/
theorem Skips.sub (h : Skips arity n i j) : i ≤ k → k < j → ∃ m ≤ j, Skips arity 1 k m := by
  induction h with
  | none i => exact fun hk hkj => absurd (Nat.lt_of_le_of_lt hk hkj) (Nat.lt_irrefl i)
  | @tree n m i j l ha hs hs' ih ih' =>
    intro hk hkj
    have hle := hs'.le
    by_cases hat : k = i
    · subst hat
      exact ⟨l, by omega, .one ha hs⟩
    by_cases hin : k < l
    · obtain ⟨m', hm', htree⟩ := ih (by omega) hin
      exact ⟨m', by omega, htree⟩
    · exact ih' (by omega) hkj

/-- By the counts one comes to the end of the trees. -/
theorem skip_eq_of_skips (h : Skips arity n i j) :
    ∀ fuel, j - i ≤ fuel → skip (next arity stuck fuel) n i = .ok j := by
  induction h with
  | none i => exact fun fuel _ => rfl
  | @tree n m i j k ha hs hs' ih ih' =>
    intro fuel hfuel
    have hk := hs.le
    have hj := hs'.le
    obtain ⟨fuel, rfl⟩ : ∃ f, fuel = f + 1 := ⟨fuel - 1, by omega⟩
    show (next arity stuck (fuel + 1) i >>= fun t => skip (next arity stuck (fuel + 1)) n t) = _
    -- the fuel of the inner walk is one less, and its places are too
    have hnext : next arity stuck (fuel + 1) i = .ok k := by
      show (arity i >>= fun size => skip (next arity stuck fuel) size (i + 1)) = _
      rw [ha]
      exact ih fuel (by omega)
    rw [hnext]
    exact ih' (fuel + 1) (by omega)

/-- And after one tree one is just behind it. -/
theorem next_eq_of_skips (h : Skips arity 1 i j) {fuel : Nat} (hfuel : j - i ≤ fuel) :
    next arity stuck fuel i = .ok j := by
  have hskip : (next arity stuck fuel i >>= fun t => .ok t) = .ok j :=
    skip_eq_of_skips h fuel hfuel
  cases hn : next arity stuck fuel i with
  | error e =>
    rw [hn] at hskip
    cases hskip
  | ok t =>
    rw [hn] at hskip
    exact hskip

end Preorder
