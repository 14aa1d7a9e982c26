import Mathlib.Algebra.Order.Ring.Nat
import Mathlib.Data.Nat.Log

/-!
# The leading digits of a number

A number cut down to its first `prec` digits, and numbers written as a mantissa of `prec`
digits and an exponent: cutting is monotone and loses less than half, and the order of the
numbers is that of exponent and mantissa.

* `leading_mono` — cutting is monotone;
* `lt_two_mul_leading` — less than half is lost;
* `mul_pow_lt_iff` — the order of mantissa and exponent.
-/

namespace Leading

variable {base prec : Nat}

/-- How many digits come after the first `prec`. -/
def dropped (base prec n : Nat) : Nat := Nat.log base n + 1 - prec

/-- `n` with zeros for all digits but the first `prec`. -/
def leading (base prec n : Nat) : Nat :=
  n / base ^ dropped base prec n * base ^ dropped base prec n

theorem leading_le (n : Nat) : leading base prec n ≤ n := Nat.div_mul_le_self _ _

/-- The first digit stays. -/
theorem pow_log_le_leading (hprec : 0 < prec) {n : Nat} (hn : n ≠ 0) :
    base ^ Nat.log base n ≤ leading base prec n := by
  obtain ⟨k, hk⟩ : ∃ k, Nat.log base n = dropped base prec n + k :=
    ⟨Nat.log base n - dropped base prec n, by unfold dropped; omega⟩
  have hle : base ^ (dropped base prec n + k) ≤ n := hk ▸ Nat.pow_log_le_self base hn
  unfold leading
  rcases Nat.eq_zero_or_pos (base ^ dropped base prec n) with hzero | hpos
  · rw [hk, Nat.pow_add, hzero, Nat.zero_mul]
    exact Nat.zero_le _
  · rw [hk, Nat.pow_add, Nat.mul_comm]
    refine Nat.mul_le_mul_right _ ((Nat.le_div_iff_mul_le hpos).mpr ?_)
    rwa [Nat.mul_comm, ← Nat.pow_add]

/-- What is cut off is less than what stays. -/
theorem lt_two_mul_leading (hbase : 1 < base) (hprec : 0 < prec) {n : Nat} (hn : n ≠ 0) :
    n < 2 * leading base prec n := by
  have hlog : base ^ Nat.log base n ≤ leading base prec n := pow_log_le_leading hprec hn
  have hpow : base ^ dropped base prec n ≤ base ^ Nat.log base n :=
    Nat.pow_le_pow_right (by omega) (by unfold dropped; omega)
  have hrest : n < leading base prec n + base ^ dropped base prec n :=
    Nat.lt_div_mul_add (Nat.pow_pos (by omega))
  omega

theorem leading_mono (hbase : 1 < base) (hprec : 0 < prec) : Monotone (leading base prec) := by
  intro n m hnm
  rcases Nat.eq_zero_or_pos n with rfl | hn
  · rw [leading, Nat.zero_div, Nat.zero_mul]
    exact Nat.zero_le _
  · rcases (Nat.log_mono_right hnm : Nat.log base n ≤ Nat.log base m).lt_or_eq with hlt | heq
    · -- a number of more digits is larger when it is cut too
      calc leading base prec n ≤ n := leading_le n
        _ ≤ base ^ (Nat.log base n + 1) := (Nat.lt_pow_succ_log_self hbase n).le
        _ ≤ base ^ Nat.log base m := Nat.pow_le_pow_right (by omega) hlt
        _ ≤ leading base prec m := pow_log_le_leading hprec (by omega)
    · unfold leading dropped
      rw [heq]
      exact Nat.mul_le_mul_right _ (Nat.div_le_div_right hnm)

/-- A mantissa of all its digits. -/
def Full (base prec mantissa : Nat) : Prop :=
  base ^ (prec - 1) ≤ mantissa ∧ mantissa < base ^ prec

/-- The exponent tells which number is larger. -/
theorem mul_pow_lt_of_lt (hprec : 0 < prec) {m m' e e' : Nat} (hm : m < base ^ prec)
    (hm' : base ^ (prec - 1) ≤ m') (he : e < e') : m * base ^ e < m' * base ^ e' := by
  have hbase : 0 < base := by
    by_contra h
    rw [Nat.eq_zero_of_not_pos h, Nat.zero_pow hprec] at hm
    exact Nat.not_lt_zero m hm
  calc m * base ^ e < base ^ prec * base ^ e := Nat.mul_lt_mul_of_pos_right hm (Nat.pow_pos hbase)
    _ = base ^ (prec - 1) * base ^ (e + 1) := by
        rw [← Nat.pow_add, ← Nat.pow_add]
        congr 1
        omega
    _ ≤ m' * base ^ e' := Nat.mul_le_mul hm' (Nat.pow_le_pow_right hbase he)

/-- The order of numbers is that of their exponents, then of their mantissas. -/
theorem mul_pow_lt_iff (hbase : 0 < base) (hprec : 0 < prec) {m m' e e' : Nat}
    (hm : Full base prec m) (hm' : Full base prec m') :
    m * base ^ e < m' * base ^ e' ↔ e < e' ∨ e = e' ∧ m < m' := by
  constructor
  · intro h
    rcases Nat.lt_trichotomy e e' with he | rfl | he
    · exact .inl he
    · exact .inr ⟨rfl, Nat.lt_of_mul_lt_mul_right h⟩
    · exact absurd (mul_pow_lt_of_lt hprec hm'.2 hm.1 he) h.asymm
  · rintro (he | ⟨rfl, hlt⟩)
    · exact mul_pow_lt_of_lt hprec hm.2 hm'.1 he
    · exact Nat.mul_lt_mul_of_pos_right hlt (Nat.pow_pos hbase)

end Leading
