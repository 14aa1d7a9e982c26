import Pettycoin.Unmarshal
import Pettycoin.Registry
import Pettycoin.Lib.LittleEndian

/-!
# Pettycoin — difficulties

`beats_target` compares a hash with the target of a difficulty by its last
bytes; `beatsTarget_eq` says that this is the comparison of the two numbers. It
asserts that the exponent is one that makes sense, and `encode_difficulty` that
the mantissa is, and neither has been checked when a header comes in
(`checkHeader_total_iff`).

* `beatsTarget_eq` — a hash beats a target exactly if it is the smaller number;
* `encodeDifficulty_iff` — which targets can be written;
* `headersOk_of_nodeReach` — the difficulties in every reachable state make sense;
* `checkHeader_total_iff` — for which headers the check returns.
-/

namespace Pettycoin

open ExceptRules

variable {D : Type} [Digest D] [DecidableEq D] {E : Env D} {s s' : State D} {b prev : Nat}

-- ---------------------------------------------------------------------------
-- The target
-- ---------------------------------------------------------------------------

/-- The hash as a number: its bytes are little-endian. -/
def shaNat (sha : D) : Nat := LittleEndian.value 256 (fun i => (Digest.sha sha i).toNat) 32

theorem difficultyMantissa_lt (difficulty : UInt32) : difficultyMantissa difficulty < 2 ^ 24 := by
  unfold difficultyMantissa
  rw [UInt32.toNat_and]
  exact Nat.lt_of_le_of_lt Nat.and_le_right (by decide)

theorem decodeDifficulty_eq (difficulty : UInt32) :
    decodeDifficulty difficulty
      = difficultyMantissa difficulty * 256 ^ (difficultyExp difficulty - 3) := by
  rw [show (256 : Nat) = 2 ^ 8 from rfl, ← Nat.pow_mul, Nat.mul_comm 8]
  rfl

/-- A difficulty of an exponent that makes sense is of some work. -/
theorem blockWork_pos {difficulty : UInt32} (h : difficultyExp difficulty ≤ 32) :
    0 < blockWork difficulty := by
  have hmantissa := difficultyMantissa_lt difficulty
  have hpow : 256 ^ (difficultyExp difficulty - 3) ≤ 256 ^ 29 :=
    Nat.pow_le_pow_right (by decide) (by omega)
  unfold blockWork
  rw [decodeDifficulty_eq]
  refine Nat.div_pos ?_ (Nat.succ_pos _)
  calc _ ≤ (2 ^ 24 - 1) * 256 ^ 29 + 1 := by gcongr; omega
    _ ≤ 2 ^ 256 := by decide

omit [DecidableEq D] in
/-- **The hash and the target.** The last bytes tell which is the larger number. -/
theorem beatsTarget_eq (sha : D) {difficulty : UInt32} (hlow : 3 ≤ difficultyExp difficulty)
    (hhigh : difficultyExp difficulty ≤ 32) :
    beatsTarget sha difficulty = .ok (decide (shaNat sha < decodeDifficulty difficulty)) := by
  have hbyte : ∀ i, (Digest.sha sha i).toNat < 256 := fun i => UInt8.toNat_lt _
  obtain ⟨k, hk⟩ : ∃ k, difficultyExp difficulty = k + 3 :=
    ⟨difficultyExp difficulty - 3, by omega⟩
  have htarget : decodeDifficulty difficulty = difficultyMantissa difficulty * 256 ^ k := by
    rw [decodeDifficulty_eq, hk, Nat.add_sub_cancel]
  unfold beatsTarget
  dsimp only
  rw [show assert _ Fault.beatsTarget = .ok () by simp [assert, hlow, hhigh], ok_bind]
  split_ifs with hany
  · -- a byte above the exponent makes the hash too large for any mantissa
    refine congrArg Except.ok ?_
    symm
    rw [decide_eq_false_iff_not, not_lt]
    simp only [List.any_eq_true, List.mem_range'_1, bne_iff_ne] at hany
    obtain ⟨i, ⟨hi, hi'⟩, hne⟩ := hany
    have hne' : (Digest.sha sha i).toNat ≠ 0 := fun h => hne (UInt8.toNat_inj.mp h)
    calc decodeDifficulty difficulty ≤ 256 ^ 3 * 256 ^ k := by
          rw [htarget]
          exact Nat.mul_le_mul_right _ (difficultyMantissa_lt difficulty).le
      _ = 256 ^ (k + 3) := by rw [Nat.mul_comm, ← Nat.pow_add]
      _ ≤ 256 ^ i := Nat.pow_le_pow_right (by decide) (by omega)
      _ ≤ shaNat sha := LittleEndian.pow_le_value (by omega) hne'
  · -- the bytes above are zero, and those below count for less than one
    refine congrArg Except.ok ?_
    simp only [List.any_eq_true, List.mem_range'_1, bne_iff_ne, not_exists, not_and, not_not]
      at hany
    have hzeros : ∀ i, k + 3 ≤ i → i < 32 → (Digest.sha sha i).toNat = 0 := by
      intro i hi hi'
      rw [hany i ⟨by omega, by omega⟩]
      rfl
    have hvalue : shaNat sha = LittleEndian.value 256 (fun i => (Digest.sha sha i).toNat) k
        + 256 ^ k * ((Digest.sha sha (k + 2)).toNat * 2 ^ 16
          + (Digest.sha sha (k + 1)).toNat * 2 ^ 8 + (Digest.sha sha k).toNat) := by
      unfold shaNat
      rw [LittleEndian.value_eq_of_zeros (show k + 3 ≤ 32 by omega) hzeros,
        LittleEndian.value_add_three]
      rfl
    rw [hvalue, htarget, decide_eq_decide,
      LittleEndian.add_mul_lt_mul_iff (LittleEndian.value_lt (by decide) hbyte k), hk]
    rfl

omit [DecidableEq D] in
/-- Any other exponent stops the node. -/
theorem beatsTarget_stops (sha : D) {difficulty : UInt32}
    (h : ¬ (3 ≤ difficultyExp difficulty ∧ difficultyExp difficulty ≤ 32)) :
    beatsTarget sha difficulty = .error .beatsTarget := by
  unfold beatsTarget
  dsimp only
  have hfalse : (decide (difficultyExp difficulty ≤ 32) && decide (3 ≤ difficultyExp difficulty))
      = false := by
    rw [Bool.and_eq_false_iff, decide_eq_false_iff_not, decide_eq_false_iff_not]
    omega
  rw [hfalse]
  rfl

-- ---------------------------------------------------------------------------
-- Writing a target
-- ---------------------------------------------------------------------------

theorem numBytes_spec (fuel n : Nat) (hn : n < 256 ^ fuel) :
    n < 256 ^ numBytes fuel n ∧ (numBytes fuel n ≠ 0 → 256 ^ (numBytes fuel n - 1) ≤ n) := by
  induction fuel generalizing n with
  | zero => exact ⟨hn, fun h => absurd rfl h⟩
  | succ fuel ih =>
    unfold numBytes
    split_ifs with hzero
    · exact ⟨by rw [hzero]; decide, fun h => absurd rfl h⟩
    · have hdiv : n / 256 < 256 ^ fuel := by
        rw [Nat.div_lt_iff_lt_mul (by decide), ← Nat.pow_succ]
        exact hn
      obtain ⟨hlt, hle⟩ := ih (n / 256) hdiv
      refine ⟨?_, fun _ => ?_⟩
      · rw [Nat.pow_succ, ← Nat.div_lt_iff_lt_mul (by decide)]
        exact hlt
      · rw [Nat.add_sub_cancel]
        generalize numBytes fuel (n / 256) = m at hle
        cases m with
        | zero => exact Nat.one_le_iff_ne_zero.mpr hzero
        | succ m =>
          rw [Nat.pow_succ]
          exact (Nat.le_div_iff_mul_le (by decide)).mp (hle (Nat.succ_ne_zero m))

/-- A target that `encode_difficulty` can write: not too small, and the three leading
bytes are not all ones. -/
def Encodable (target : Nat) : Prop := 2 ^ 24 ≤ target ∧ ∀ k, target / 256 ^ k ≠ 0x00FFFFFF

theorem encodeDifficulty_iff (target : Nat) :
    (∃ r, encodeDifficulty target = .ok r) ↔ Encodable target := by
  have hfuel : target < 256 ^ (target.log2 + 1) :=
    Nat.lt_log2_self.trans_le (Nat.pow_le_pow_left (by decide) _)
  obtain ⟨hlt, hle⟩ := numBytes_spec _ target hfuel
  unfold encodeDifficulty
  dsimp only
  generalize numBytes (target.log2 + 1) target = n at hlt hle
  by_cases hn : 3 < n
  · obtain ⟨k, rfl⟩ : ∃ k, n = k + 3 := ⟨n - 3, by omega⟩
    have hle' : 256 ^ (k + 2) ≤ target := hle (Nat.succ_ne_zero _)
    have hlarge : 2 ^ 24 ≤ target :=
      (Nat.pow_le_pow_right (by decide) (by omega : 3 ≤ k + 2)).trans hle'
    have hmantissa : target / 256 ^ k < 2 ^ 24 := by
      rw [Nat.div_lt_iff_lt_mul (Nat.pow_pos (by decide)), show (2 : Nat) ^ 24 = 256 ^ 3 from rfl,
        ← Nat.pow_add, Nat.add_comm]
      exact hlt
    rw [assert, if_pos (by simpa using hn), ok_bind, Nat.add_sub_cancel, Nat.pow_mul]
    show (∃ r, (assert (decide (target / 256 ^ k < 0x00FFFFFF)) _ >>= fun _ => _) = _) ↔ _
    unfold assert
    split_ifs with hless
    · rw [decide_eq_true_eq] at hless
      refine ⟨fun _ => ⟨hlarge, fun j hj => ?_⟩, fun _ => ⟨_, rfl⟩⟩
      obtain rfl := LittleEndian.pow_eq_of_div_eq (by decide) (by decide) (by decide) hj hle' hlt
      omega
    · rw [decide_eq_true_eq] at hless
      refine ⟨?_, fun h => absurd (by omega) (h.2 k)⟩
      rintro ⟨_, h⟩
      exact absurd h (by simp)
  · have hsmall : target < 2 ^ 24 :=
      hlt.trans_le (Nat.pow_le_pow_right (by decide) (by omega : n ≤ 3))
    rw [assert, if_neg (by simpa using hn)]
    refine ⟨?_, fun h => absurd h.1 (by omega)⟩
    rintro ⟨_, h⟩
    exact absurd h (by simp)

/-- What is written, taken apart again. -/
theorem difficultyExp_ofNat {exp base : Nat} (hexp : exp < 2 ^ 8) (hbase : base < 2 ^ 24) :
    difficultyExp (UInt32.ofNat (exp * 2 ^ 24 + base)) = exp := by
  unfold difficultyExp
  rw [UInt32.toNat_shiftRight, UInt32.toNat_ofNat_of_lt' (by simp [UInt32.size]; omega)]
  show (exp * 2 ^ 24 + base) >>> 24 = exp
  rw [Nat.shiftRight_eq_div_pow]
  omega

theorem encodeDifficulty_lt {target exp base : Nat}
    (h : encodeDifficulty target = .ok (exp, base)) : 3 < exp ∧ base < 2 ^ 24 := by
  unfold encodeDifficulty at h
  obtain ⟨_, h1, h⟩ := of_bind_eq_ok h
  obtain ⟨_, h2, h⟩ := of_bind_eq_ok h
  injection h with h
  injection h with hexp hbase
  unfold assert at h1 h2
  split_ifs at h1 h2 with hc1 hc2
  simp only [decide_eq_true_eq] at hc1 hc2
  omega

-- ---------------------------------------------------------------------------
-- The headers of the blocks
-- ---------------------------------------------------------------------------

/-- The exponent of a block. -/
def expOf (s : State D) (b : Nat) : Nat := difficultyExp (s.blk b).tailer.difficulty

/-- Every block but the first follows another one, and none is easier than the first. -/
structure HeadersOk (s : State D) : Prop where
  genesis : 0 < s.numBlocks ∧ (s.blk 0).hdr.depth = 0
  has_prev : ∀ b : Nat, 0 < b → b < s.numBlocks → ∃ p : Nat, (s.blk b).prev = some p ∧ p < b ∧
    (s.blk b).hdr.depth = (s.blk p).hdr.depth + 1
  exps : ∀ b : Nat, expOf s b = expOf s 0 ∨ 3 ≤ expOf s b ∧ expOf s b ≤ expOf s 0

omit [Digest D] [DecidableEq D] in
/-- Changing headers only by adding a block keeps this up. -/
theorem HeadersOk.congr (h : HeadersOk s) (hn : s'.numBlocks = s.numBlocks)
    (hheader : ∀ x : Nat, (s'.blk x).header = (s.blk x).header) : HeadersOk s' := by
  have hhdr : ∀ x : Nat, (s'.blk x).hdr = (s.blk x).hdr := by
    intro x
    show (s'.blk x).header.hdr = _
    rw [hheader]
    rfl
  have hprev : ∀ x : Nat, (s'.blk x).prev = (s.blk x).prev := by
    intro x
    show (s'.blk x).header.prev = _
    rw [hheader]
    rfl
  have hexp : ∀ x : Nat, expOf s' x = expOf s x := by
    intro x
    show difficultyExp (s'.blk x).header.tailer.difficulty = _
    rw [hheader]
    rfl
  refine ⟨?_, fun b hb hlt => ?_, fun b => ?_⟩
  · rw [hn, hhdr]
    exact h.genesis
  · obtain ⟨p, hp, hpb, hdepth⟩ := h.has_prev b hb (hn ▸ hlt)
    exact ⟨p, (hprev b).trans hp, hpb, by rw [hhdr, hhdr, hdepth]⟩
  · rw [hexp, hexp]
    exact h.exps b

-- ---------------------------------------------------------------------------
-- The difficulty of the next block
-- ---------------------------------------------------------------------------

/-- The block after `prev` begins a period. -/
def BeginsPeriod (s : State D) (prev : BlockId) : Prop :=
  ((s.blk prev).hdr.depth + 1) % protocolDifficultyUpdateBlocks = 0

/-- The block the last period is measured from. -/
def periodStart (s : State D) (prev : BlockId) : Option BlockId :=
  if (s.blk prev).hdr.depth = protocolDifficultyUpdateBlocks - 1 then some 0
  else blockAncestor s prev protocolDifficultyUpdateBlocks.toNat

/-- How long a period is meant to take. -/
def idealPeriod : UInt64 :=
  (protocolBlockTargetTime true).toUInt64 * protocolDifficultyUpdateBlocks.toUInt64

/-- The target of `prev`, scaled by the time that the last period took. -/
def scaledTarget (s : State D) (prev start : BlockId) : Nat :=
  decodeDifficulty (s.blk prev).tailer.difficulty
    * (periodTime idealPeriod (s.blk prev).tailer.timestamp (s.blk start).tailer.timestamp).toNat
    / idealPeriod.toNat

/-- An encoded target, or the first block's where that is less. -/
def limitedDifficulty (s : State D) (r : Nat × Nat) : UInt32 :=
  let genesis := (s.blk 0).tailer.difficulty
  if r.1 > difficultyExp genesis || (r.1 = difficultyExp genesis && r.2 > difficultyMantissa genesis)
  then genesis else UInt32.ofNat (r.1 * 2 ^ 24 + r.2)

omit [Digest D] [DecidableEq D] in
theorem getDifficulty_eq (s : State D) (prev : BlockId) :
    getDifficulty s prev =
      if ((s.blk prev).hdr.depth + 1) % protocolDifficultyUpdateBlocks ≠ 0 then
        .ok (s.blk prev).tailer.difficulty
      else
        match periodStart s prev with
        | none => .error .nullPointer
        | some start => encodeDifficulty (scaledTarget s prev start) >>= fun r =>
            .ok (limitedDifficulty s r) := by
  unfold getDifficulty
  dsimp only
  split_ifs with hperiod hfirst
  · rfl
  · simp only [periodStart, hfirst, if_pos]
    refine bind_congr fun r => ?_
    unfold limitedDifficulty
    dsimp only
    split_ifs <;> rfl
  · simp only [periodStart, hfirst, if_neg, not_false_eq_true]
    cases blockAncestor s prev protocolDifficultyUpdateBlocks.toNat with
    | none => rfl
    | some start =>
      refine bind_congr fun r => ?_
      unfold limitedDifficulty
      dsimp only
      split_ifs <;> rfl

omit [Digest D] [DecidableEq D] in
/-- The difficulty that `get_difficulty` gives is that of the block before, or no less
than the first block's. -/
theorem exp_of_getDifficulty {difficulty : UInt32} (h : getDifficulty s prev = .ok difficulty) :
    difficultyExp difficulty = expOf s prev ∨ difficultyExp difficulty ≤ expOf s 0 := by
  rw [getDifficulty_eq] at h
  split_ifs at h with hperiod
  · injection h with h
    exact .inl (by rw [← h]; rfl)
  · right
    cases hstart : periodStart s prev with
    | none =>
      rw [hstart] at h
      exact absurd h (by simp)
    | some start =>
      rw [hstart] at h
      obtain ⟨⟨exp, base⟩, hencode, h⟩ := of_bind_eq_ok h
      injection h with h
      subst h
      obtain ⟨-, hbase⟩ := encodeDifficulty_lt hencode
      unfold limitedDifficulty
      dsimp only
      split_ifs with hlimit
      · exact Nat.le_refl _
      · simp only [Bool.or_eq_true, decide_eq_true_eq, not_or, not_lt] at hlimit
        have hsmall : difficultyExp (s.blk 0).tailer.difficulty < 2 ^ 8 := by
          unfold difficultyExp
          rw [UInt32.toNat_shiftRight, Nat.shiftRight_eq_div_pow]
          have := (s.blk 0).tailer.difficulty.toNat_lt
          show _ / 2 ^ 24 < _
          omega
        rw [difficultyExp_ofNat (by omega) hbase]
        exact hlimit.1

omit [Digest D] in
/-- A block that is added fits in. -/
theorem HeadersOk.sew (h : HeadersOk s) {nb : NewBlock D} (hadd : Addable s prev nb) :
    HeadersOk (sewBlock s prev nb) := by
  obtain ⟨features, hblk⟩ := blk_sewBlock nb hadd.prev_lt
  have hn := (sewBlock_same s prev nb).1
  have hold : ∀ x : Nat, x ≠ s.numBlocks → (sewBlock s prev nb).blk x = s.blk x := fun x hx =>
    blk_sewBlock_old hadd.prev_lt hx
  have hzero : (0 : Nat) ≠ s.numBlocks := Nat.ne_of_lt h.genesis.1
  have hexpOld : ∀ x : Nat, x ≠ s.numBlocks → expOf (sewBlock s prev nb) x = expOf s x :=
    fun x hx => by rw [expOf, hold x hx, expOf]
  refine ⟨?_, fun b hb hlt => ?_, fun b => ?_⟩
  · rw [hn, hold 0 hzero]
    exact ⟨Nat.succ_pos _, h.genesis.2⟩
  · rw [hn] at hlt
    by_cases hnew : b = s.numBlocks
    · refine ⟨prev, ?_, hnew ▸ hadd.prev_lt, ?_⟩
      · rw [hnew, hblk, Function.update_self]
        rfl
      · rw [hold prev (Nat.ne_of_lt hadd.prev_lt), hnew, hblk, Function.update_self]
        exact hadd.depth
    · obtain ⟨p, hp, hpb, hdepth⟩ := h.has_prev b hb (by omega)
      refine ⟨p, by rw [hold b hnew, hp], hpb, ?_⟩
      rw [hold b hnew, hold p (by omega), hdepth]
  · rw [hexpOld 0 hzero]
    by_cases hnew : b = s.numBlocks
    · have hexp : expOf (sewBlock s prev nb) b = difficultyExp nb.tailer.difficulty := by
        rw [expOf, hnew, hblk, Function.update_self]
        rfl
      rw [hexp]
      have hlow := hadd.expLow
      rcases exp_of_getDifficulty hadd.difficulty with heq | hle
      · rcases h.exps prev with hp | ⟨hp, hp'⟩
        · exact .inl (heq.trans hp)
        · exact .inr ⟨hlow, heq ▸ hp'⟩
      · exact .inr ⟨hlow, hle⟩
    · rw [hexpOld b hnew]
      exact h.exps b

theorem headersOk_of_nodeReach (h : NodeReach E s) : HeadersOk s := by
  refine h.preserves (fun sha merkle nonce2 tailer now opts => ?_) fun s s' hr hstep hok => ?_
  · exact ⟨⟨Nat.one_pos, rfl⟩, fun b hb hlt => absurd hlt (by
      show ¬ b < 1
      omega), fun _ => .inl rfl⟩
  · rcases hstep.blocks hr with ⟨hn, hheader⟩ | ⟨prev, nb, hadd, rfl⟩
    · exact hok.congr hn hheader
    · exact hok.sew hadd

omit [Digest D] [DecidableEq D] in
/-- There are as many blocks before one as its depth says. -/
theorem exists_blockAncestor (hgenesis : (s.blk 0).hdr.depth = 0)
    (hprev : ∀ b : Nat, 0 < b → b < s.numBlocks → ∃ p : Nat, (s.blk b).prev = some p ∧ p < b ∧
      (s.blk b).hdr.depth = (s.blk p).hdr.depth + 1)
    {n : Nat} (hb : b < s.numBlocks) (hn : n ≤ (s.blk b).hdr.depth.toNat) :
    ∃ a, blockAncestor s b n = some a := by
  induction n generalizing b with
  | zero => exact ⟨b, rfl⟩
  | succ n ih =>
    have hpos : 0 < b := by
      rcases Nat.eq_zero_or_pos b with rfl | hpos
      · rw [hgenesis] at hn
        exact absurd hn (Nat.not_succ_le_zero n)
      · exact hpos
    obtain ⟨p, hp, hpb, hdepth⟩ := hprev b hpos hb
    unfold blockAncestor
    rw [hp]
    refine ih (hpb.trans hb) ?_
    rw [hdepth, UInt32.toNat_add] at hn
    have hone : (1 : UInt32).toNat = 1 := rfl
    have := (s.blk p).hdr.depth.toNat_lt
    omega

omit [Digest D] [DecidableEq D] in
theorem HeadersOk.blockAncestor (h : HeadersOk s) {n : Nat} (hb : b < s.numBlocks)
    (hn : n ≤ (s.blk b).hdr.depth.toNat) : ∃ a, blockAncestor s b n = some a :=
  exists_blockAncestor h.genesis.2 h.has_prev hb hn

omit [Digest D] [DecidableEq D] in
theorem HeadersOk.periodStart (h : HeadersOk s) (hprev : prev < s.numBlocks)
    (hperiod : BeginsPeriod s prev) : ∃ start, periodStart s prev = some start := by
  unfold Pettycoin.periodStart
  split_ifs with hfirst
  · exact ⟨0, rfl⟩
  · refine h.blockAncestor hprev ?_
    unfold BeginsPeriod at hperiod
    have hmod := congrArg UInt32.toNat hperiod
    have hne : (s.blk prev).hdr.depth.toNat ≠ 2015 := fun heq =>
      hfirst (UInt32.toNat_inj.mp heq)
    rw [UInt32.toNat_mod, UInt32.toNat_add] at hmod
    have hinterval : protocolDifficultyUpdateBlocks.toNat = 2016 := rfl
    have hone : (1 : UInt32).toNat = 1 := rfl
    have hzero : (0 : UInt32).toNat = 0 := rfl
    rw [hinterval, hone, hzero] at hmod
    rw [hinterval]
    by_contra hsmall
    rw [Nat.mod_eq_of_lt (show (s.blk prev).hdr.depth.toNat + 1 < 2 ^ 32 by omega)] at hmod
    omega

omit [Digest D] [DecidableEq D] in
/-- `get_difficulty` returns, unless the scaled target cannot be written. -/
theorem HeadersOk.getDifficulty_iff (h : HeadersOk s) (hprev : prev < s.numBlocks) :
    (∃ difficulty, getDifficulty s prev = .ok difficulty) ↔
      (BeginsPeriod s prev → ∀ start, Pettycoin.periodStart s prev = some start →
        Encodable (scaledTarget s prev start)) := by
  rw [getDifficulty_eq]
  split_ifs with hperiod
  · exact ⟨fun _ hbegins => absurd hbegins hperiod, fun _ => ⟨_, rfl⟩⟩
  · rw [not_not] at hperiod
    obtain ⟨start, hstart⟩ := h.periodStart hprev hperiod
    simp only [hstart, Option.some.injEq]
    constructor
    · rintro ⟨difficulty, hok⟩ - start' rfl
      obtain ⟨r, hencode, -⟩ := of_bind_eq_ok hok
      exact (encodeDifficulty_iff _).mp ⟨r, hencode⟩
    · intro hencodable
      obtain ⟨r, hencode⟩ := (encodeDifficulty_iff _).mpr (hencodable hperiod start rfl)
      exact ⟨_, by rw [hencode]; rfl⟩

-- ---------------------------------------------------------------------------
-- The header
-- ---------------------------------------------------------------------------

/-- The checks that come before the difficulty is worked out are passed. -/
structure ReachesDifficulty (C : Crypto D) (s : State D) (p : BlockParts D) (prev : BlockId) :
    Prop where
  enough : shaNat (hashBlock C p) < decodeDifficulty p.tailer.difficulty
  found : blockFindAny s p.hdr.prevBlock = some prev
  shardOrder : p.hdr.shardOrder = nextShardOrder prev
  depth : p.hdr.depth = (s.blk prev).hdr.depth + 1
  timestamp : checkTimestamp s p.tailer.timestamp prev = true

/-- A header that the checks can deal with: the exponent makes sense, and where it ends a
period, the scaled target can be written. -/
structure HeaderChecks (C : Crypto D) (s : State D) (p : BlockParts D) : Prop where
  expLow : 3 ≤ difficultyExp p.tailer.difficulty
  expHigh : difficultyExp p.tailer.difficulty ≤ 32
  encodable : ∀ prev start, ReachesDifficulty C s p prev → BeginsPeriod s prev →
    periodStart s prev = some start → Encodable (scaledTarget s prev start)

/-- `check_block_header` returns a code, and `seek_predecessor` after it returns. -/
def HeaderTotal (C : Crypto D) (s : State D) (p : BlockParts D) : Prop :=
  ∃ e prev, checkBlockHeader C s p = .ok (e, prev) ∧
    (e = .privUnknownPrev → ∃ s', seekPredecessor s (hashBlock C p) p.hdr.prevBlock = .ok s')

/-- An exponent and a mantissa in one word. -/
theorem difficultyExp_pack {exp mantissa : UInt32} (hexp : exp.toNat < 2 ^ 8)
    (hmantissa : mantissa.toNat < 2 ^ 24) :
    difficultyExp (exp <<< 24 ||| mantissa) = exp.toNat := by
  unfold difficultyExp
  rw [UInt32.toNat_shiftRight, UInt32.toNat_or, UInt32.toNat_shiftLeft, Nat.shiftLeft_eq]
  show (exp.toNat * 2 ^ 24 % 2 ^ 32 ||| mantissa.toNat) >>> 24 = exp.toNat
  rw [Nat.mod_eq_of_lt (by omega), Nat.shiftRight_or_distrib, Nat.shiftRight_eq_div_pow,
    Nat.shiftRight_eq_div_pow, Nat.mul_div_cancel _ (by decide), Nat.div_eq_of_lt hmantissa,
    Nat.or_zero]

/-- The top byte is zero. -/
theorem toNat_lt_of_and_eq_zero {x : UInt32} (h : x &&& 0xFF000000 = 0) : x.toNat < 2 ^ 24 := by
  have hnat : (x &&& 0xFF000000).toNat >>> 24 = 0 := by
    rw [h]
    rfl
  rw [UInt32.toNat_and, Nat.shiftRight_and_distrib] at hnat
  change x.toNat >>> 24 &&& (2 ^ 8 - 1) = 0 at hnat
  rw [Nat.and_two_pow_sub_one_eq_mod, Nat.shiftRight_eq_div_pow] at hnat
  have := x.toNat_lt
  omega

/-- The sixteenth of a difficulty has its exponent or the next one, but never 32. -/
theorem difficultyExp_oneSixteenth {difficulty : UInt32} (hlow : 3 ≤ difficultyExp difficulty)
    (hhigh : difficultyExp difficulty ≤ 31) :
    3 ≤ difficultyExp (difficultyOneSixteenth difficulty) ∧
      difficultyExp (difficultyOneSixteenth difficulty) ≤ 31 := by
  have hexp : (difficulty >>> 24).toNat = difficultyExp difficulty := rfl
  have hmantissa : (difficulty &&& 0x00FFFFFF).toNat < 2 ^ 24 := difficultyMantissa_lt difficulty
  unfold difficultyOneSixteenth
  dsimp only
  split_ifs with hover hlast
  · rw [difficultyExp_pack (by omega) (by decide)]
    omega
  · have hne : difficultyExp difficulty ≠ 31 := fun h => hlast (UInt32.toNat_inj.mp (hexp.trans h))
    have hnext : (difficulty >>> 24 + 1).toNat = difficultyExp difficulty + 1 := by
      rw [UInt32.toNat_add, hexp]
      show (_ + 1) % 2 ^ 32 = _
      omega
    have hless : ((difficulty &&& 0x00FFFFFF) >>> 4).toNat < 2 ^ 24 := by
      rw [UInt32.toNat_shiftRight, Nat.shiftRight_eq_div_pow]
      exact (Nat.div_le_self _ _).trans_lt hmantissa
    rw [difficultyExp_pack (by omega) hless]
    omega
  · rw [not_not] at hover
    rw [difficultyExp_pack (by omega) (toNat_lt_of_and_eq_zero hover)]
    omega

omit [DecidableEq D] in
/-- `seek_predecessor` returns, whichever block is preferred. -/
theorem HeadersOk.seekPredecessor (h : HeadersOk s) (hlow : 3 ≤ expOf s 0)
    (hhigh : expOf s 0 ≤ 31) (sha prevSha : D) :
    ∃ s', seekPredecessor s sha prevSha = .ok s' := by
  have hexp : 3 ≤ expOf s s.preferredChain ∧ expOf s s.preferredChain ≤ 31 := by
    rcases h.exps s.preferredChain with heq | ⟨hl, hh⟩
    · omega
    · omega
  obtain ⟨hl, hh⟩ := difficultyExp_oneSixteenth hexp.1 hexp.2
  unfold Pettycoin.seekPredecessor
  rw [beatsTarget_eq sha hl (by omega), ok_bind]
  exact ⟨_, rfl⟩

omit [Digest D] [DecidableEq D] in
/-- The checks against the block before stop the node where `get_difficulty` does. -/
theorem HeadersOk.checkAgainstPrev_iff (h : HeadersOk s) {p : BlockParts D}
    (hprev : prev < s.numBlocks) :
    (∃ e, checkAgainstPrev s p prev = .ok e) ↔
      (p.hdr.shardOrder = nextShardOrder prev → p.hdr.depth = (s.blk prev).hdr.depth + 1 →
        checkTimestamp s p.tailer.timestamp prev = true → BeginsPeriod s prev →
          ∀ start, Pettycoin.periodStart s prev = some start →
            Encodable (scaledTarget s prev start)) := by
  unfold checkAgainstPrev
  split_ifs with horder hdepth htime
  · exact ⟨fun _ h => absurd h horder, fun _ => ⟨_, rfl⟩⟩
  · exact ⟨fun _ _ h => absurd h hdepth, fun _ => ⟨_, rfl⟩⟩
  · refine ⟨fun _ _ _ h => ?_, fun _ => ⟨_, rfl⟩⟩
    rw [h] at htime
    exact absurd htime (by simp)
  · rw [not_not] at horder hdepth
    have htime' : checkTimestamp s p.tailer.timestamp prev = true := by simpa using htime
    have hdifficulty := h.getDifficulty_iff hprev
    constructor
    · rintro ⟨e, hok⟩ - - -
      obtain ⟨difficulty, hget, -⟩ := of_bind_eq_ok hok
      exact hdifficulty.mp ⟨difficulty, hget⟩
    · intro hencodable
      obtain ⟨difficulty, hget⟩ := hdifficulty.mpr (hencodable horder hdepth htime')
      rw [hget, ok_bind]
      split_ifs <;> exact ⟨_, rfl⟩

theorem HeadersOk.headerTotal_iff (h : HeadersOk s) (hlow : 3 ≤ expOf s 0)
    (hhigh : expOf s 0 ≤ 31) {C : Crypto D} {p : BlockParts D}
    (hversion : versionOk p.hdr.version = true) : HeaderTotal C s p ↔ HeaderChecks C s p := by
  by_cases hexp : 3 ≤ difficultyExp p.tailer.difficulty ∧ difficultyExp p.tailer.difficulty ≤ 32
  · have hheader : checkBlockHeader C s p =
        if shaNat (hashBlock C p) < decodeDifficulty p.tailer.difficulty then
          match blockFindAny s p.hdr.prevBlock with
          | none => .ok (.privUnknownPrev, none)
          | some prev => checkAgainstPrev s p prev >>= fun e => .ok (e, some prev)
        else .ok (.insufficientWork, none) := by
      unfold checkBlockHeader
      rw [beatsTarget_eq _ hexp.1 hexp.2, ok_bind, hversion]
      by_cases henough : shaNat (hashBlock C p) < decodeDifficulty p.tailer.difficulty
      · rw [decide_eq_true henough, if_pos henough]
        rfl
      · rw [decide_eq_false henough, if_neg henough]
        rfl
    have hseek := h.seekPredecessor hlow hhigh (hashBlock C p) p.hdr.prevBlock
    unfold HeaderTotal
    rw [hheader]
    by_cases henough : shaNat (hashBlock C p) < decodeDifficulty p.tailer.difficulty
    · rw [if_pos henough]
      cases hfind : blockFindAny s p.hdr.prevBlock with
      | none =>
        refine ⟨fun _ => ⟨hexp.1, hexp.2, fun prev start hr => ?_⟩,
          fun _ => ⟨_, _, rfl, fun _ => hseek⟩⟩
        rw [hr.found] at hfind
        exact absurd hfind (by simp)
      | some prev =>
        dsimp only
        have hagainst := h.checkAgainstPrev_iff (p := p) (blockFindAny_spec hfind).1
        constructor
        · rintro ⟨e, found, hok, -⟩
          obtain ⟨e', hok', -⟩ := of_bind_eq_ok hok
          refine ⟨hexp.1, hexp.2, fun prev' start hr hbegins hstart => ?_⟩
          rw [hr.found] at hfind
          injection hfind with hfind
          subst hfind
          exact hagainst.mp ⟨e', hok'⟩ hr.shardOrder hr.depth hr.timestamp hbegins start hstart
        · intro hchecks
          obtain ⟨e, hok⟩ := hagainst.mpr fun horder hdepth htime hbegins start hstart =>
            hchecks.encodable prev start ⟨henough, hfind, horder, hdepth, htime⟩ hbegins hstart
          exact ⟨e, some prev, by rw [hok]; rfl, fun _ => hseek⟩
    · rw [if_neg henough]
      exact ⟨fun _ => ⟨hexp.1, hexp.2, fun prev start hr => absurd hr.enough henough⟩,
        fun _ => ⟨_, _, rfl, fun _ => hseek⟩⟩
  · have hstops : checkBlockHeader C s p = .error .beatsTarget := by
      unfold checkBlockHeader
      rw [beatsTarget_stops _ hexp, hversion]
      rfl
    constructor
    · rintro ⟨e, prev, hok, -⟩
      rw [hstops] at hok
      exact absurd hok (by simp)
    · exact fun hchecks => absurd ⟨hchecks.expLow, hchecks.expHigh⟩ hexp

/-- **Headers.** `check_block_header` returns a code for a block that was unmarshalled
exactly if the exponent of the difficulty is one that makes sense, and a target that
it has to write can be written; `seek_predecessor` then returns too. And where the
exponent makes sense, `beats_target` compares the hash with the target. -/
theorem checkHeader_total_iff (hreach : NodeReach E s)
    (hgenesis : 3 ≤ expOf s 0 ∧ expOf s 0 ≤ 31) (view : List UInt8 → D) {len : UInt32}
    (contents : Bytes len.toNat) {p : BlockParts D}
    (h : unmarshalBlock view contents = .ok p) :
    (HeaderTotal E.crypto s p ↔ HeaderChecks E.crypto s p) ∧
    ∀ (sha : D) (difficulty : UInt32) (enough : Bool),
      beatsTarget sha difficulty = .ok enough →
        (enough = true ↔ shaNat sha < decodeDifficulty difficulty) := by
  refine ⟨(headersOk_of_nodeReach hreach).headerTotal_iff hgenesis.1 hgenesis.2
    (version_of_unmarshalBlock h), fun sha difficulty enough henough => ?_⟩
  obtain ⟨hlow, hhigh⟩ := difficultyExp_of_beatsTarget henough
  rw [beatsTarget_eq sha hlow hhigh] at henough
  injection henough with henough
  rw [← henough, decide_eq_true_eq]

/-- A packet with the header and the tailer of a block with one empty shard, all zero
but for the version and the difficulty. -/
def samplePktBlock (difficulty : UInt32) : Bytes (121 : UInt32).toNat :=
  ⟨1 :: List.replicate 112 0 ++ le32 difficulty ++ List.replicate 4 0, rfl⟩

/-- The block in it. -/
def sampleParts (difficulty : UInt32) : BlockParts IdealDigest :=
  partsAt (fun _ => .zero) (samplePktBlock difficulty) ⟨76, 77, 109, 109⟩

/-- A difficulty that a node may ask for is checked without harm. -/
theorem checkHeader_total_iff_sample :
    unmarshalBlock (fun _ => IdealDigest.zero) (samplePktBlock 0x1effffff)
        = .ok (sampleParts 0x1effffff) ∧
      HeaderTotal idealCrypto sampleNode (sampleParts 0x1effffff) := by
  have hunmarshal : unmarshalBlock (fun _ => IdealDigest.zero) (samplePktBlock 0x1effffff)
      = .ok (sampleParts 0x1effffff) := rfl
  refine ⟨hunmarshal, (checkHeader_total_iff nodeReach_sampleNode (by decide)
    (fun _ => IdealDigest.zero) (samplePktBlock 0x1effffff) hunmarshal).1.mpr
      ⟨by decide, by decide, fun prev start hr hbegins => ?_⟩⟩
  have hzero : prev = 0 := Nat.lt_one_iff.mp (blockFindAny_spec hr.found).1
  subst hzero
  exact absurd hbegins (by unfold BeginsPeriod; decide)

/-- An exponent of zero stops the node. -/
theorem checkHeader_stopped :
    unmarshalBlock (fun _ => IdealDigest.zero) (samplePktBlock 0) = .ok (sampleParts 0) ∧
      NodeReach idealEnv sampleNode ∧
      checkBlockHeader idealCrypto sampleNode (sampleParts 0) = .error .beatsTarget ∧
      ¬ HeaderTotal idealCrypto sampleNode (sampleParts 0) := by
  have hstops : checkBlockHeader idealCrypto sampleNode (sampleParts 0) = .error .beatsTarget := rfl
  refine ⟨rfl, nodeReach_sampleNode, hstops, ?_⟩
  rintro ⟨e, prev, hok, -⟩
  rw [hstops] at hok
  exact absurd hok (by simp)

end Pettycoin
