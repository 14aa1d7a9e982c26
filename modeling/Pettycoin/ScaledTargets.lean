import Pettycoin.Retarget

/-!
# Pettycoin — writing the scaled target

`encode_difficulty` fails for a target of less than four bytes, and asserts that the three
leading bytes are less than `0x00FFFFFF`. They may be equal to it, in a chain of accepted
blocks too: when a period takes as long as it is meant to and the target before was
`0xFFFFFF` and zeros (`retarget_stopped`). Any other target that can be written is written
as exactly as three bytes allow (`retargetWritten_iff`).

* `written_iff` — which targets are written as they should;
* `le_scaledTarget` — how small a scaled target can be;
* `retarget_stopped` — a chain that brings the node down;
* `retargetWritten_iff` — which ones do.
-/

namespace Pettycoin

open ExceptRules

/-- The target is written, cut off below its third byte. -/
def Written (target : Nat) : Prop :=
  ∃ exp base, encodeDifficulty target = .ok (exp, base) ∧
    base * 256 ^ (exp - 3) ≤ target ∧ target < (base + 1) * 256 ^ (exp - 3)

theorem mantissa_of_encodeDifficulty {target exp base : Nat}
    (h : encodeDifficulty target = .ok (exp, base)) : base = target / 256 ^ (exp - 3) := by
  unfold encodeDifficulty at h
  obtain ⟨_, -, h⟩ := of_bind_eq_ok h
  obtain ⟨_, -, h⟩ := of_bind_eq_ok h
  injection h with h
  injection h with hexp hbase
  rw [← hbase, ← hexp, Nat.pow_mul]

/-- What is written is as exact as it can be. -/
theorem written_iff (target : Nat) : Written target ↔ Encodable target := by
  rw [← encodeDifficulty_iff]
  constructor
  · rintro ⟨exp, base, h, -⟩
    exact ⟨_, h⟩
  · rintro ⟨⟨exp, base⟩, h⟩
    obtain rfl := mantissa_of_encodeDifficulty h
    have hpos : 0 < 256 ^ (exp - 3) := Nat.pow_pos (by decide)
    refine ⟨_, _, h, Nat.div_mul_le_self _ _, ?_⟩
    rw [Nat.add_mul, Nat.one_mul]
    exact Nat.lt_div_mul_add hpos

section

variable {D : Type} [Digest D] [DecidableEq D] {E : Env D} {s : State D} {prev start : BlockId}

/-- Where a period begins after `prev`, the scaled target is written and `get_difficulty`
returns. -/
def RetargetWritten (s : State D) (prev : BlockId) : Prop :=
  BeginsPeriod s prev → ∃ start, periodStart s prev = some start ∧ Written (scaledTarget s prev start) ∧
    ∃ difficulty, getDifficulty s prev = .ok difficulty

omit [Digest D] [DecidableEq D] in
/-- A target is scaled to no less than a quarter. -/
theorem le_scaledTarget (s : State D) (prev start : BlockId) :
    decodeDifficulty (s.blk prev).tailer.difficulty / 4 ≤ scaledTarget s prev start := by
  have htime : 5040 ≤ (periodTime idealPeriod (s.blk prev).tailer.timestamp
      (s.blk start).tailer.timestamp).toNat := by
    rw [toNat_periodTime]
    split_ifs <;> omega
  unfold scaledTarget
  rw [toNat_idealPeriod, Nat.le_div_iff_mul_le (by decide)]
  calc decodeDifficulty (s.blk prev).tailer.difficulty / 4 * 20160
      = decodeDifficulty (s.blk prev).tailer.difficulty / 4 * 4 * 5040 := by omega
    _ ≤ decodeDifficulty (s.blk prev).tailer.difficulty * 5040 :=
      Nat.mul_le_mul_right _ (Nat.div_mul_le_self _ _)
    _ ≤ _ := Nat.mul_le_mul_left _ htime

/-- **Retargeting brings the node down** exactly where the scaled target is of less than four
bytes or begins with three bytes of all ones. The first takes a block of a target below
`2 ^ 26`. -/
theorem retargetWritten_iff (hreach : NodeReach E s) (hprev : prev < s.numBlocks) :
    (RetargetWritten s prev ↔ (BeginsPeriod s prev → ∀ start, periodStart s prev = some start →
      Encodable (scaledTarget s prev start))) ∧
    (2 ^ 26 ≤ decodeDifficulty (s.blk prev).tailer.difficulty →
      ∀ start, 2 ^ 24 ≤ scaledTarget s prev start) := by
  have hok := headersOk_of_nodeReach hreach
  refine ⟨⟨fun h hbegins start hstart => ?_, fun h hbegins => ?_⟩, fun hlarge start => ?_⟩
  · obtain ⟨start', hstart', hwritten, -⟩ := h hbegins
    obtain rfl := Option.some.inj (hstart.symm.trans hstart')
    exact (written_iff _).mp hwritten
  · obtain ⟨start, hstart⟩ := hok.periodStart hprev hbegins
    exact ⟨start, hstart, (written_iff _).mpr (h hbegins start hstart),
      (hok.getDifficulty_iff hprev).mpr h⟩
  · have hquarter := le_scaledTarget s prev start
    omega

end

/-- The target of the first block is written again, after a period of less than no time. -/
theorem retargetWritten_iff_ticking : ∃ s : State IdealDigest, NodeReach idealEnv s ∧
    BeginsPeriod s 2015 ∧ scaledTarget s 2015 0 = 4 * decodeDifficulty 0x1effffff ∧
    RetargetWritten s 2015 := by
  obtain ⟨s, h⟩ := exists_ticking 2015 (Nat.le_refl _) (by decide)
  obtain ⟨hbegins, hstart, hspan⟩ := h.first_period
  have hlast : (s.blk 2015).tailer.difficulty = 0x1effffff := h.difficulty 2015 (Nat.le_refl _)
  have htarget : scaledTarget s 2015 0 = 4 * decodeDifficulty 0x1effffff := by
    rw [scaledTarget_of_neg (by rw [hspan]; decide), hlast]
  refine ⟨s, h.reach, hbegins, htarget, (retargetWritten_iff h.reach ?_).1.mpr fun _ start hstart' => ?_⟩
  · rw [h.numBlocks]
    exact Nat.lt_succ_self _
  · obtain rfl := Option.some.inj (hstart.symm.trans hstart')
    rw [htarget]
    refine (encodeDifficulty_iff _).mp ⟨(31, 0x03ffff), ?_⟩
    decide

-- ---------------------------------------------------------------------------
-- A period that takes as long as it is meant to
-- ---------------------------------------------------------------------------

variable {s : State IdealDigest} {first now : UInt32}

/-- The second period takes as long as it is meant to. -/
theorem Ticking.second_period (h : Ticking first now s 4031) :
    BeginsPeriod s 4031 ∧ periodStart s 4031 = some 2015 ∧
      scaledTarget s 4031 2015 = 0xffffff * 256 ^ 27 := by
  have hdepth : (s.blk 4031).hdr.depth = 4031 := h.depth 4031 (Nat.le_refl _)
  have hlast : (s.blk 4031).tailer.difficulty = 0x1effffff := h.difficulty 4031 (Nat.le_refl _)
  refine ⟨(h.beginsPeriod_iff (by decide)).mpr (by decide), ?_, ?_⟩
  · unfold periodStart
    rw [hdepth, if_neg (by decide)]
    exact h.blockAncestor (Nat.le_refl _) (show 2015 + 2016 ≤ 4031 from Nat.le_refl _)
  · unfold scaledTarget
    rw [hlast, h.times 4031 (by decide) (Nat.le_refl _), h.times 2015 (by decide) (by decide)]
    decide

/-- The target before was `0xFFFFFF` and zeros, and is so again: the assertion fails. -/
theorem retarget_stopped : ∃ s : State IdealDigest, NodeReach idealEnv s ∧ 4031 < s.numBlocks ∧
    BeginsPeriod s 4031 ∧ periodStart s 4031 = some 2015 ∧
    scaledTarget s 4031 2015 = 0xffffff * 256 ^ 27 ∧
    encodeDifficulty (scaledTarget s 4031 2015) = .error .encodeDifficulty ∧
    getDifficulty s 4031 = .error .encodeDifficulty ∧ ¬ RetargetWritten s 4031 := by
  obtain ⟨s, h⟩ := exists_ticking 4031 (by decide) (Nat.le_refl _)
  obtain ⟨hbegins, hstart, htarget⟩ := h.second_period
  have hencode : encodeDifficulty (scaledTarget s 4031 2015) = .error .encodeDifficulty := by
    rw [htarget]
    decide
  have hstops : getDifficulty s 4031 = .error .encodeDifficulty := by
    rw [getDifficulty_begins hbegins hstart, hencode]
    rfl
  refine ⟨s, h.reach, by rw [h.numBlocks]; decide, hbegins, hstart, htarget, hencode, hstops, ?_⟩
  intro hwritten
  obtain ⟨start, -, -, difficulty, hok⟩ := hwritten hbegins
  exact absurd (hstops.symm.trans hok) (by simp)

end Pettycoin
