import Pettycoin.Difficulty

/-!
# Pettycoin — one sixteenth of the work

`difficulty_one_sixteenth` multiplies a target by 16, in its three bytes of mantissa: the
mantissa is shifted up, or down with the next exponent, or is all ones where there is no
next exponent (`decodeDifficulty_oneSixteenth`). So `seek_predecessor` asks for the parent
of every block that has the whole work (`full_work_is_sought`).

* `decodeDifficulty_oneSixteenth` — the target that comes of it;
* `lt_decodeDifficulty_oneSixteenth` — a number below the target is below this one;
* `beatsTarget_oneSixteenth` — what beats a target beats this one;
* `full_work_is_sought` — a block with the whole work is followed up.
-/

namespace Pettycoin

open ExceptRules

variable {D : Type} [Digest D]

/-- There is no exponent left to take the mantissa. -/
def Saturates (difficulty : UInt32) : Prop :=
  difficultyExp difficulty = 31 ∧ 2 ^ 20 ≤ difficultyMantissa difficulty

/-- A number, with zeros for all but its three leading bytes. -/
def threeLeadingBytes (n : Nat) : Nat :=
  let unit := 256 ^ (numBytes (n.log2 + 1) n - 3)
  n / unit * unit

theorem threeLeadingBytes_le (n : Nat) : threeLeadingBytes n ≤ n := Nat.div_mul_le_self _ _

/-- A number of `k + 4` bytes. -/
theorem threeLeadingBytes_eq {n k : Nat} (hlow : 256 ^ (k + 3) ≤ n) (hhigh : n < 256 ^ (k + 4)) :
    threeLeadingBytes n = n / 256 ^ (k + 1) * 256 ^ (k + 1) := by
  have hfuel : n < 256 ^ (n.log2 + 1) :=
    Nat.lt_log2_self.trans_le (Nat.pow_le_pow_left (by decide) _)
  obtain ⟨hlt, hle⟩ := numBytes_spec _ n hfuel
  have hbytes : numBytes (n.log2 + 1) n = k + 4 := by
    have hmore : k + 3 < numBytes (n.log2 + 1) n :=
      (Nat.pow_lt_pow_iff_right (by decide)).mp (hlow.trans_lt hlt)
    have hless : numBytes (n.log2 + 1) n - 1 < k + 4 :=
      (Nat.pow_lt_pow_iff_right (by decide)).mp ((hle (by omega)).trans_lt hhigh)
    omega
  unfold threeLeadingBytes
  dsimp only
  rw [hbytes]
  rfl

-- ---------------------------------------------------------------------------
-- Its target
-- ---------------------------------------------------------------------------

/-- An exponent and a mantissa in one word. -/
theorem difficultyMantissa_pack {exp mantissa : UInt32} (hmantissa : mantissa.toNat < 2 ^ 24) :
    difficultyMantissa (exp <<< 24 ||| mantissa) = mantissa.toNat := by
  unfold difficultyMantissa
  rw [UInt32.toNat_and, UInt32.toNat_or, UInt32.toNat_shiftLeft, Nat.shiftLeft_eq]
  show (exp.toNat * 2 ^ 24 % 2 ^ 32 ||| mantissa.toNat) &&& (2 ^ 24 - 1) = mantissa.toNat
  rw [Nat.and_or_distrib_right, Nat.and_two_pow_sub_one_eq_mod, Nat.and_two_pow_sub_one_eq_mod,
    Nat.mod_eq_of_lt hmantissa]
  have hzero : exp.toNat * 2 ^ 24 % 2 ^ 32 % 2 ^ 24 = 0 := by omega
  rw [hzero, Nat.zero_or]

/-- The top byte is not zero. -/
theorem le_toNat_of_and_ne_zero {x : UInt32} (h : x &&& 0xFF000000 ≠ 0) : 2 ^ 24 ≤ x.toNat := by
  by_contra hlt
  rw [not_le] at hlt
  refine h (UInt32.toNat_inj.mp ?_)
  rw [UInt32.toNat_and]
  refine Nat.eq_of_testBit_eq fun i => ?_
  have hmask : ∀ i, (4278190080 : Nat).testBit i = (decide (24 ≤ i) && decide (i < 32)) := by
    intro i
    rw [show (4278190080 : Nat) = (2 ^ 8 - 1) <<< 24 from rfl, Nat.testBit_shiftLeft,
      Nat.testBit_two_pow_sub_one]
    by_cases hi : 24 ≤ i
    · simp only [ge_iff_le, hi, decide_true, Bool.true_and, decide_eq_decide]
      omega
    · simp [hi]
  show (x.toNat &&& 4278190080).testBit i = (0 : Nat).testBit i
  rw [Nat.testBit_and, hmask, Nat.zero_testBit]
  by_cases hi : 24 ≤ i
  · rw [Nat.testBit_lt_two_pow (hlt.trans_le (Nat.pow_le_pow_right (by decide) hi)),
      Bool.false_and]
  · simp [hi]

/-- The mantissa four bits up, in 32 bits. -/
theorem toNat_mantissa_shiftLeft (difficulty : UInt32) :
    ((difficulty &&& 0x00FFFFFF) <<< 4).toNat = 16 * difficultyMantissa difficulty := by
  have hmantissa := difficultyMantissa_lt difficulty
  rw [UInt32.toNat_shiftLeft, Nat.shiftLeft_eq]
  show difficultyMantissa difficulty * 2 ^ 4 % 2 ^ 32 = 16 * difficultyMantissa difficulty
  omega

/-- **The target of a sixteenth of the work**, by what becomes of the mantissa. -/
theorem decodeDifficulty_oneSixteenth {difficulty : UInt32} (hlow : 3 ≤ difficultyExp difficulty)
    (hhigh : difficultyExp difficulty ≤ 31) :
    decodeDifficulty (difficultyOneSixteenth difficulty) =
      if difficultyMantissa difficulty < 2 ^ 20 then 16 * decodeDifficulty difficulty
      else if difficultyExp difficulty = 31 then 0x00FFFFFF * 256 ^ 28
      else difficultyMantissa difficulty / 16 * 256 ^ (difficultyExp difficulty - 2) := by
  have hexp : (difficulty >>> 24).toNat = difficultyExp difficulty := rfl
  have hmantissa := difficultyMantissa_lt difficulty
  have hshift := toNat_mantissa_shiftLeft difficulty
  have hover : ((difficulty &&& 0x00FFFFFF) <<< 4) &&& 0xFF000000 ≠ 0
      ↔ ¬ difficultyMantissa difficulty < 2 ^ 20 := by
    constructor
    · intro h
      have := le_toNat_of_and_ne_zero h
      omega
    · intro h hzero
      have := toNat_lt_of_and_eq_zero hzero
      omega
  rw [decodeDifficulty_eq, decodeDifficulty_eq]
  unfold difficultyOneSixteenth
  dsimp only
  by_cases hsmall : difficultyMantissa difficulty < 2 ^ 20
  · rw [if_neg (fun h => hover.mp h hsmall), if_pos hsmall]
    have hless : ((difficulty &&& 0x00FFFFFF) <<< 4).toNat < 2 ^ 24 := by omega
    rw [difficultyExp_pack (by omega) hless, difficultyMantissa_pack hless, hexp, hshift,
      Nat.mul_assoc]
  · rw [if_pos (hover.mpr hsmall), if_neg hsmall]
    by_cases hlast : difficultyExp difficulty = 31
    · have hword : difficulty >>> 24 = 31 := UInt32.toNat_inj.mp (hexp.trans hlast)
      rw [if_pos hword, if_pos hlast, difficultyExp_pack (by omega) (by decide),
        difficultyMantissa_pack (by decide), hexp, hlast]
      rfl
    · have hword : difficulty >>> 24 ≠ 31 := by
        intro h
        rw [h] at hexp
        exact hlast hexp.symm
      have hnext : (difficulty >>> 24 + 1).toNat = difficultyExp difficulty + 1 := by
        rw [UInt32.toNat_add, hexp]
        show (_ + 1) % 2 ^ 32 = _
        omega
      have hdown : ((difficulty &&& 0x00FFFFFF) >>> 4).toNat
          = difficultyMantissa difficulty / 16 := by
        rw [UInt32.toNat_shiftRight, Nat.shiftRight_eq_div_pow]
        rfl
      have hless : ((difficulty &&& 0x00FFFFFF) >>> 4).toNat < 2 ^ 24 := by omega
      rw [if_neg hword, if_neg hlast, difficultyExp_pack (by omega) hless,
        difficultyMantissa_pack hless, hnext, hdown]
      rfl

section

variable {difficulty : UInt32} (hlow : 3 ≤ difficultyExp difficulty)
  (hhigh : difficultyExp difficulty ≤ 31)

include hlow hhigh

/-- It is no more than 16 times the target. -/
theorem decodeDifficulty_oneSixteenth_le :
    decodeDifficulty (difficultyOneSixteenth difficulty) ≤ 16 * decodeDifficulty difficulty := by
  rw [decodeDifficulty_oneSixteenth hlow hhigh]
  split_ifs with hsmall hlast
  · exact le_refl _
  · rw [decodeDifficulty_eq, hlast, ← Nat.mul_assoc]
    exact Nat.mul_le_mul_right _ (by omega)
  · obtain ⟨k, hk⟩ : ∃ k, difficultyExp difficulty = k + 3 := ⟨_, (Nat.sub_add_cancel hlow).symm⟩
    rw [decodeDifficulty_eq, hk, ← Nat.mul_assoc]
    show difficultyMantissa difficulty / 16 * 256 ^ (k + 1) ≤ _ * 256 ^ k
    rw [Nat.pow_succ', ← Nat.mul_assoc]
    exact Nat.mul_le_mul_right _ (by omega)

/-- And no less, as far as three bytes go. -/
theorem le_decodeDifficulty_oneSixteenth (hfits : ¬ Saturates difficulty) :
    threeLeadingBytes (16 * decodeDifficulty difficulty)
      ≤ decodeDifficulty (difficultyOneSixteenth difficulty) := by
  have hmantissa := difficultyMantissa_lt difficulty
  rw [decodeDifficulty_oneSixteenth hlow hhigh]
  split_ifs with hsmall hlast
  · exact threeLeadingBytes_le _
  · exact absurd ⟨hlast, not_lt.mp hsmall⟩ hfits
  · obtain ⟨k, hk⟩ : ∃ k, difficultyExp difficulty = k + 3 := ⟨_, (Nat.sub_add_cancel hlow).symm⟩
    have htarget : 16 * decodeDifficulty difficulty
        = 16 * difficultyMantissa difficulty * 256 ^ k := by
      rw [decodeDifficulty_eq, hk, Nat.mul_assoc]
      rfl
    have hlow' : 256 ^ (k + 3) ≤ 16 * difficultyMantissa difficulty * 256 ^ k := by
      rw [Nat.pow_add, Nat.mul_comm]
      exact Nat.mul_le_mul_right _ (by omega)
    have hhigh' : 16 * difficultyMantissa difficulty * 256 ^ k < 256 ^ (k + 4) := by
      rw [Nat.pow_add, Nat.mul_comm (256 ^ k)]
      exact Nat.mul_lt_mul_of_pos_right (by omega) (Nat.pow_pos (by decide))
    rw [htarget, threeLeadingBytes_eq hlow' hhigh', hk]
    show _ ≤ difficultyMantissa difficulty / 16 * 256 ^ (k + 1)
    refine Nat.mul_le_mul_right _ (le_of_eq ?_)
    rw [Nat.pow_succ', Nat.mul_div_mul_right _ _ (Nat.pow_pos (by decide))]
    omega

/-- A hash that beats the target beats the target of a sixteenth of the work. -/
theorem lt_decodeDifficulty_oneSixteenth {n : Nat} (h : n < decodeDifficulty difficulty) :
    n < decodeDifficulty (difficultyOneSixteenth difficulty) := by
  have hmantissa := difficultyMantissa_lt difficulty
  refine h.trans_le ?_
  rw [decodeDifficulty_oneSixteenth hlow hhigh]
  split_ifs with hsmall hlast
  · omega
  · rw [decodeDifficulty_eq, hlast]
    exact Nat.mul_le_mul_right _ (by omega)
  · obtain ⟨k, hk⟩ : ∃ k, difficultyExp difficulty = k + 3 := ⟨_, (Nat.sub_add_cancel hlow).symm⟩
    rw [decodeDifficulty_eq, hk]
    show difficultyMantissa difficulty * 256 ^ k ≤ _ * 256 ^ (k + 1)
    rw [Nat.pow_succ', ← Nat.mul_assoc]
    exact Nat.mul_le_mul_right _ (by omega)

end

-- ---------------------------------------------------------------------------
-- The parent is asked for
-- ---------------------------------------------------------------------------

/-- A block with the work of this difficulty has a sixteenth of it. -/
theorem beatsTarget_oneSixteenth {sha : D} {difficulty : UInt32}
    (hlow : 3 ≤ difficultyExp difficulty) (hhigh : difficultyExp difficulty ≤ 31)
    (h : beatsTarget sha difficulty = .ok true) :
    beatsTarget sha (difficultyOneSixteenth difficulty) = .ok true := by
  obtain ⟨hlow', hhigh'⟩ := difficultyExp_oneSixteenth hlow hhigh
  rw [beatsTarget_eq sha hlow (by omega)] at h
  have hlt : shaNat sha < decodeDifficulty difficulty := of_decide_eq_true (Except.ok.inj h)
  rw [beatsTarget_eq sha hlow' (by omega),
    decide_eq_true (lt_decodeDifficulty_oneSixteenth hlow hhigh hlt)]

/-- **A block with the full work is not ignored.** Dividing the work by 16 multiplies the
target by 16, as far as three bytes of mantissa go and there is an exponent for it; whatever
beats the target before beats it after; so a block of unknown parent that meets the
difficulty of the preferred chain makes the node ask for the parent. -/
theorem full_work_is_sought :
    (∀ (sha : D) (difficulty : UInt32), 3 ≤ difficultyExp difficulty →
      difficultyExp difficulty ≤ 31 →
      (beatsTarget sha difficulty = .ok true →
        beatsTarget sha (difficultyOneSixteenth difficulty) = .ok true) ∧
      decodeDifficulty (difficultyOneSixteenth difficulty) ≤ 16 * decodeDifficulty difficulty ∧
      (¬ Saturates difficulty → threeLeadingBytes (16 * decodeDifficulty difficulty)
        ≤ decodeDifficulty (difficultyOneSixteenth difficulty))) ∧
    ∀ (s : State D) (sha prev : D),
      3 ≤ difficultyExp (s.blk s.preferredChain).tailer.difficulty →
      difficultyExp (s.blk s.preferredChain).tailer.difficulty ≤ 31 →
      beatsTarget sha (s.blk s.preferredChain).tailer.difficulty = .ok true →
      seekPredecessor s sha prev = .ok (s.emit (.todoAddGetBlock prev)) := by
  constructor
  · intro sha difficulty hlow hhigh
    exact ⟨beatsTarget_oneSixteenth hlow hhigh, decodeDifficulty_oneSixteenth_le hlow hhigh,
      le_decodeDifficulty_oneSixteenth hlow hhigh⟩
  · intro s sha prev hlow hhigh h
    unfold seekPredecessor
    rw [beatsTarget_oneSixteenth hlow hhigh h, ok_bind, if_pos rfl]

/-- The parent of a block whose hash is all zeros is asked for. -/
theorem full_work_is_sought_zero :
    beatsTarget IdealDigest.zero (difficultyOneSixteenth 0x1d3bffc4) = .ok true ∧
      seekPredecessor sampleNode .zero .zero = .ok (sampleNode.emit (.todoAddGetBlock .zero)) := by
  have hbeats : beatsTarget IdealDigest.zero 0x1d3bffc4 = .ok true := by
    rw [beatsTarget_eq _ (by decide) (by decide), decide_eq_true (by decide)]
  have hgenesis : beatsTarget IdealDigest.zero
      (sampleNode.blk sampleNode.preferredChain).tailer.difficulty = .ok true := by
    rw [beatsTarget_eq _ (by decide) (by decide), decide_eq_true (by decide)]
  obtain ⟨hall, hseek⟩ := full_work_is_sought (D := IdealDigest)
  exact ⟨(hall .zero 0x1d3bffc4 (by decide) (by decide)).1 hbeats,
    hseek sampleNode .zero .zero (by decide) (by decide) hgenesis⟩

end Pettycoin
