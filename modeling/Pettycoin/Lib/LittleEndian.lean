import Mathlib.Data.Nat.Digits.Lemmas
import Mathlib.Tactic.Ring

/-!
# Little-endian numbers

The number that the first digits of a sequence stand for, how it compares with a
multiple of a power of the base, and the leading digits of a number.

* `value_succ` — one more digit;
* `value_lt`, `pow_le_value` — how large the number is;
* `add_mul_lt_mul_iff` — comparison by the upper digits.
-/

namespace LittleEndian

variable {base : Nat} {digit : Nat → Nat}

/-- The number with these first `n` digits, the least first. -/
def value (base : Nat) (digit : Nat → Nat) (n : Nat) : Nat :=
  Nat.ofDigits base ((List.range n).map digit)

@[simp] theorem value_zero : value base digit 0 = 0 := rfl

theorem value_succ (n : Nat) :
    value base digit (n + 1) = value base digit n + base ^ n * digit n := by
  unfold value
  rw [List.range_succ, List.map_append, Nat.ofDigits_append]
  simp

/-- Three more digits. -/
theorem value_add_three (n : Nat) :
    value base digit (n + 3) = value base digit n
      + base ^ n * (digit (n + 2) * base ^ 2 + digit (n + 1) * base + digit n) := by
  rw [value_succ, value_succ, value_succ, Nat.pow_succ, Nat.pow_succ]
  ring

theorem value_lt (hbase : 1 < base) (hdigit : ∀ i, digit i < base) (n : Nat) :
    value base digit n < base ^ n := by
  have h := Nat.ofDigits_lt_base_pow_length hbase (l := (List.range n).map digit) fun d hd => by
    obtain ⟨i, -, rfl⟩ := List.mem_map.mp hd
    exact hdigit i
  unfold value
  simpa using h

/-- A digit that is not zero is worth its power of the base. -/
theorem pow_le_value {i n : Nat} (hi : i < n) (hne : digit i ≠ 0) :
    base ^ i ≤ value base digit n := by
  induction n with
  | zero => exact absurd hi (Nat.not_lt_zero i)
  | succ n ih =>
    rw [value_succ]
    rcases Nat.lt_succ_iff_lt_or_eq.mp hi with hlt | rfl
    · exact (ih hlt).trans (Nat.le_add_right _ _)
    · exact (Nat.le_mul_of_pos_right _ (Nat.pos_of_ne_zero hne)).trans (Nat.le_add_left _ _)

/-- Digits that are zero add nothing. -/
theorem value_eq_of_zeros {n m : Nat} (hnm : n ≤ m)
    (hzero : ∀ i, n ≤ i → i < m → digit i = 0) : value base digit m = value base digit n := by
  induction m, hnm using Nat.le_induction with
  | base => rfl
  | succ m hnm ih =>
    rw [value_succ, hzero m hnm (Nat.lt_succ_self m), Nat.mul_zero, Nat.add_zero]
    exact ih fun i hi him => hzero i hi (Nat.lt_succ_of_lt him)

/-- What is below the power does not decide a comparison with a multiple of it. -/
theorem add_mul_lt_mul_iff {p low top m : Nat} (hlow : low < p) :
    low + p * top < m * p ↔ top < m := by
  constructor
  · intro h
    by_contra hge
    rw [not_lt] at hge
    have hle : m * p ≤ p * top := by
      rw [Nat.mul_comm m p]
      exact Nat.mul_le_mul_left p hge
    omega
  · intro h
    calc low + p * top < p + p * top := by omega
      _ = p * (top + 1) := by rw [Nat.mul_add, Nat.mul_one, Nat.add_comm]
      _ ≤ p * m := Nat.mul_le_mul_left p h
      _ = m * p := Nat.mul_comm p m

/-- The power at which a number has leading digits is told by the size of these. -/
theorem pow_eq_of_div_eq {n lead k j : Nat} (hbase : 1 < base) (hlow : base ^ 2 ≤ lead)
    (hhigh : lead < base ^ 3) (hk : n / base ^ k = lead) (hj : base ^ (j + 2) ≤ n)
    (hj' : n < base ^ (j + 3)) : k = j := by
  have hpos : 0 < base := by omega
  have hge : base ^ (k + 2) ≤ n := by
    have h : base ^ 2 * base ^ k ≤ n :=
      (Nat.le_div_iff_mul_le (Nat.pow_pos hpos)).mp (hlow.trans hk.ge)
    rwa [← Nat.pow_add, Nat.add_comm] at h
  have hlt : n < base ^ (k + 3) := by
    have h : n < base ^ 3 * base ^ k :=
      (Nat.div_lt_iff_lt_mul (Nat.pow_pos hpos)).mp (hk.le.trans_lt hhigh)
    rwa [← Nat.pow_add, Nat.add_comm] at h
  have hkj := (Nat.pow_lt_pow_iff_right hbase).mp (hge.trans_lt hj')
  have hjk := (Nat.pow_lt_pow_iff_right hbase).mp (hj.trans_lt hlt)
  omega

end LittleEndian
