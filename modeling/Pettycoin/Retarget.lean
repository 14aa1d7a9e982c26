import Pettycoin.BlockIdentity
import Pettycoin.Difficulty
import Pettycoin.Doublespends
import Pettycoin.PrevTxhashes
import Pettycoin.Welcome
import Pettycoin.Lib.Leading
import Mathlib.Data.Int.ConditionallyCompleteOrder

/-!
# Pettycoin — retargeting

Once in 2016 blocks `get_difficulty` scales the target by the time the last period took,
within a factor of 4. The time is a signed number and the ideal time an unsigned one, so
that they are compared as unsigned numbers: a period that took less than no time counts
as the longest (`periodTime_of_neg`), and the target grows where it should shrink
(`retarget_iff`).

* `encodeDifficulty_spec` — a target as it is written;
* `getDifficulty_begins` — the difficulty at the beginning of a period;
* `nextTarget_lt_of_neg` — the target after a period of negative time;
* `exists_ticking` — chains of any length up to two periods;
* `retarget_iff` — when retargeting is right.
-/

namespace Pettycoin

open ExceptRules Leading

variable {D : Type} [Digest D] [DecidableEq D] {E : Env D} {s : State D} {prev start : BlockId}

-- ---------------------------------------------------------------------------
-- Difficulties as numbers
-- ---------------------------------------------------------------------------

/-- A difficulty that `encode_difficulty` could have written: no leading zeros, and no
bits lost below. -/
def Normal (difficulty : UInt32) : Prop :=
  3 ≤ difficultyExp difficulty ∧ 2 ^ 16 ≤ difficultyMantissa difficulty

theorem Normal.full {difficulty : UInt32} (h : Normal difficulty) :
    Full 256 3 (difficultyMantissa difficulty) :=
  ⟨h.2, difficultyMantissa_lt difficulty⟩

theorem difficultyExp_lt (difficulty : UInt32) : difficultyExp difficulty < 2 ^ 8 := by
  unfold difficultyExp
  rw [UInt32.toNat_shiftRight, Nat.shiftRight_eq_div_pow]
  have := difficulty.toNat_lt
  show _ / 2 ^ 24 < _
  omega

theorem difficultyMantissa_ofNat {exp base : Nat} (hexp : exp < 2 ^ 8) (hbase : base < 2 ^ 24) :
    difficultyMantissa (UInt32.ofNat (exp * 2 ^ 24 + base)) = base := by
  unfold difficultyMantissa
  rw [UInt32.toNat_and, UInt32.toNat_ofNat_of_lt' (by simp [UInt32.size]; omega)]
  show (exp * 2 ^ 24 + base) &&& (2 ^ 24 - 1) = base
  rw [Nat.and_two_pow_sub_one_eq_mod]
  omega

theorem numBytes_eq_log {n : Nat} (hn : n ≠ 0) :
    numBytes (n.log2 + 1) n = Nat.log 256 n + 1 := by
  have hfuel : n < 256 ^ (n.log2 + 1) :=
    Nat.lt_log2_self.trans_le (Nat.pow_le_pow_left (by decide) _)
  obtain ⟨hlt, hle⟩ := numBytes_spec _ n hfuel
  have hne : numBytes (n.log2 + 1) n ≠ 0 := by
    intro hzero
    rw [hzero] at hlt
    exact hn (Nat.lt_one_iff.mp hlt)
  have hlog : Nat.log 256 n = numBytes (n.log2 + 1) n - 1 := by
    rw [Nat.log_eq_iff (.inr ⟨by decide, hn⟩), Nat.sub_add_cancel (by omega)]
    exact ⟨hle hne, hlt⟩
  omega

/-- What `encode_difficulty` writes is the target cut down to its top three bytes. -/
theorem encodeDifficulty_spec {target exp base : Nat}
    (h : encodeDifficulty target = .ok (exp, base)) :
    3 < exp ∧ Full 256 3 base ∧ base * 256 ^ (exp - 3) = leading 256 3 target := by
  obtain ⟨hexp, hbase⟩ := encodeDifficulty_lt h
  unfold encodeDifficulty at h
  obtain ⟨_, -, h⟩ := of_bind_eq_ok h
  obtain ⟨_, -, h⟩ := of_bind_eq_ok h
  injection h with h
  injection h with hbytes hmantissa
  have hne : target ≠ 0 := by
    rintro rfl
    rw [show numBytes ((0 : Nat).log2 + 1) 0 = 0 from rfl] at hbytes
    omega
  rw [numBytes_eq_log hne] at hbytes hmantissa
  have hdropped : dropped 256 3 target = exp - 3 := by
    unfold dropped
    omega
  rw [hbytes, Nat.pow_mul, show (2 : Nat) ^ 8 = 256 from rfl] at hmantissa
  have hvalue : base * 256 ^ (exp - 3) = leading 256 3 target := by
    unfold leading
    rw [hdropped, hmantissa]
  refine ⟨hexp, ⟨?_, hbase⟩, hvalue⟩
  -- the first of the three bytes is not zero
  have hlog : 256 ^ Nat.log 256 target ≤ leading 256 3 target :=
    pow_log_le_leading (by decide) hne
  rw [← hvalue, show Nat.log 256 target = 2 + (exp - 3) by omega, Nat.pow_add] at hlog
  exact Nat.le_of_mul_le_mul_right hlog (Nat.pow_pos (by decide))

omit [Digest D] [DecidableEq D] in
/-- The smaller target of the two. -/
theorem decodeDifficulty_limited (hgenesis : Normal (s.blk 0).tailer.difficulty) {exp base : Nat}
    (hexp : 3 < exp) (hbase : Full 256 3 base) :
    decodeDifficulty (limitedDifficulty s (exp, base))
      = min (decodeDifficulty (s.blk 0).tailer.difficulty) (base * 256 ^ (exp - 3)) := by
  have horder : difficultyMantissa (s.blk 0).tailer.difficulty
        * 256 ^ (difficultyExp (s.blk 0).tailer.difficulty - 3) < base * 256 ^ (exp - 3) ↔ _ :=
    mul_pow_lt_iff (by decide) (show 0 < 3 by decide) hgenesis.full hbase
  rw [← decodeDifficulty_eq] at horder
  have hlow := hgenesis.1
  unfold limitedDifficulty
  dsimp only
  split_ifs with hlimit
  · simp only [Bool.or_eq_true, Bool.and_eq_true, decide_eq_true_eq] at hlimit
    refine (min_eq_left (horder.mpr ?_).le).symm
    omega
  · simp only [Bool.or_eq_true, Bool.and_eq_true, decide_eq_true_eq, not_or, not_and] at hlimit
    have hsmall := difficultyExp_lt (s.blk 0).tailer.difficulty
    rw [min_eq_right (not_lt.mp fun h => ?_), decodeDifficulty_eq,
      difficultyExp_ofNat (by omega) hbase.2, difficultyMantissa_ofNat (by omega) hbase.2]
    have := horder.mp h
    omega

-- ---------------------------------------------------------------------------
-- What the next target is meant to be
-- ---------------------------------------------------------------------------

/-- How long the last period took, by the clocks of its miners. -/
def timeSpan (s : State D) (prev start : BlockId) : Int :=
  (s.blk prev).tailer.timestamp.toNat - (s.blk start).tailer.timestamp.toNat

/-- Within a factor of 4 of the ideal. -/
def clampSpan (span : Int) : Nat :=
  (max (idealPeriod.toNat / 4 : Int) (min span (4 * idealPeriod.toNat))).toNat

/-- The target scaled by a time span. -/
def scaleTarget (old : Nat) (span : Int) : Nat := old * clampSpan span / idealPeriod.toNat

/-- The next target, no larger than the first block's. -/
def nextTarget (genesis old : Nat) (span : Int) : Nat :=
  min genesis (leading 256 3 (scaleTarget old span))

theorem clampSpan_mono : Monotone clampSpan := by
  intro a b hab
  unfold clampSpan
  omega

/-- A period that took longer makes the target no smaller. -/
theorem nextTarget_mono (genesis old : Nat) : Monotone (nextTarget genesis old) := by
  intro a b hab
  refine min_le_min (Nat.le_refl _) (leading_mono (by decide) (by decide) ?_)
  exact Nat.div_le_div_right (Nat.mul_le_mul_left _ (clampSpan_mono hab))

/-- `get_difficulty` gives what it is meant to: the difficulty of `prev`, and the next
target where a period begins. -/
def Retargets (s : State D) (prev : BlockId) : Prop :=
  ∃ difficulty, getDifficulty s prev = .ok difficulty ∧
    (¬ BeginsPeriod s prev → difficulty = (s.blk prev).tailer.difficulty) ∧
    (BeginsPeriod s prev → ∃ start, periodStart s prev = some start ∧
      decodeDifficulty difficulty = nextTarget (decodeDifficulty (s.blk 0).tailer.difficulty)
        (decodeDifficulty (s.blk prev).tailer.difficulty) (timeSpan s prev start))

-- ---------------------------------------------------------------------------
-- Signed and unsigned time
-- ---------------------------------------------------------------------------

theorem toNat_idealPeriod : idealPeriod.toNat = 20160 := rfl

/-- The difference of two timestamps, in 64 bits without a sign. -/
theorem toNat_sub_timestamps (last first : UInt32) :
    (last.toUInt64 - first.toUInt64).toNat
      = if first.toNat ≤ last.toNat then last.toNat - first.toNat
        else 2 ^ 64 - (first.toNat - last.toNat) := by
  have hlast := last.toNat_lt
  have hfirst := first.toNat_lt
  rw [UInt64.toNat_sub, UInt32.toNat_toUInt64, UInt32.toNat_toUInt64]
  split_ifs <;> omega

theorem toNat_periodTime (last first : UInt32) :
    (periodTime idealPeriod last first).toNat
      = if first.toNat ≤ last.toNat then max 5040 (min (last.toNat - first.toNat) 80640)
        else 80640 := by
  have hspan := toNat_sub_timestamps last first
  have hlast := last.toNat_lt
  have hfirst := first.toNat_lt
  unfold periodTime
  dsimp only
  generalize last.toUInt64 - first.toUInt64 = actual at hspan
  have hquarter : (idealPeriod / 4).toNat = 5040 := rfl
  have hfour : (idealPeriod * 4).toNat = 80640 := rfl
  have hlow : (if actual < idealPeriod / 4 then idealPeriod / 4 else actual).toNat
      = max 5040 actual.toNat := by
    simp only [UInt64.lt_iff_toNat_lt, hquarter]
    split_ifs <;> omega
  generalize (if actual < idealPeriod / 4 then idealPeriod / 4 else actual) = raised at hlow
  have hhigh : (if raised > idealPeriod * 4 then idealPeriod * 4 else raised).toNat
      = min raised.toNat 80640 := by
    simp only [gt_iff_lt, UInt64.lt_iff_toNat_lt, hfour]
    split_ifs <;> omega
  rw [hhigh, hlow, hspan]
  split_ifs <;> omega

omit [Digest D] [DecidableEq D] in
/-- A time span that is not negative is taken as it is meant. -/
theorem scaledTarget_of_nonneg (h : 0 ≤ timeSpan s prev start) :
    scaledTarget s prev start
      = scaleTarget (decodeDifficulty (s.blk prev).tailer.difficulty) (timeSpan s prev start) := by
  unfold timeSpan at h
  have hclamp : (periodTime idealPeriod (s.blk prev).tailer.timestamp
      (s.blk start).tailer.timestamp).toNat = clampSpan (timeSpan s prev start) := by
    rw [toNat_periodTime, if_pos (by omega)]
    unfold clampSpan timeSpan
    rw [toNat_idealPeriod]
    omega
  unfold scaledTarget scaleTarget
  rw [hclamp]

omit [Digest D] [DecidableEq D] in
/-- A negative one counts as the longest. -/
theorem scaledTarget_of_neg (h : timeSpan s prev start < 0) :
    scaledTarget s prev start = 4 * decodeDifficulty (s.blk prev).tailer.difficulty := by
  unfold timeSpan at h
  unfold scaledTarget
  rw [toNat_periodTime, if_neg (by omega), toNat_idealPeriod]
  omega

/-- Where it should count as the shortest. -/
theorem scaleTarget_of_neg (old : Nat) {span : Int} (h : span < 0) :
    scaleTarget old span = old / 4 := by
  have hclamp : clampSpan span = 5040 := by
    unfold clampSpan
    rw [toNat_idealPeriod]
    omega
  unfold scaleTarget
  rw [hclamp, toNat_idealPeriod]
  omega

-- ---------------------------------------------------------------------------
-- Targets along the chain
-- ---------------------------------------------------------------------------

omit [Digest D] [DecidableEq D] in
theorem getDifficulty_same (h : ¬ BeginsPeriod s prev) :
    getDifficulty s prev = .ok (s.blk prev).tailer.difficulty := by
  unfold BeginsPeriod at h
  rw [getDifficulty_eq, if_pos h]

omit [Digest D] [DecidableEq D] in
theorem getDifficulty_begins (h : BeginsPeriod s prev) (hstart : periodStart s prev = some start) :
    getDifficulty s prev = encodeDifficulty (scaledTarget s prev start) >>= fun r =>
      .ok (limitedDifficulty s r) := by
  unfold BeginsPeriod at h
  rw [getDifficulty_eq, if_neg (not_not.mpr h), hstart]

omit [Digest D] [DecidableEq D] in
theorem decodeDifficulty_of_getDifficulty (hgenesis : Normal (s.blk 0).tailer.difficulty)
    {difficulty : UInt32} (h : getDifficulty s prev = .ok difficulty)
    (hstart : periodStart s prev = some start) (hbegins : BeginsPeriod s prev) :
    decodeDifficulty difficulty = min (decodeDifficulty (s.blk 0).tailer.difficulty)
      (leading 256 3 (scaledTarget s prev start)) := by
  rw [getDifficulty_begins hbegins hstart] at h
  obtain ⟨⟨exp, base⟩, hencode, h⟩ := of_bind_eq_ok h
  injection h with h
  obtain ⟨hexp, hbase, hvalue⟩ := encodeDifficulty_spec hencode
  rw [← h, decodeDifficulty_limited hgenesis hexp hbase, hvalue]

/-- No block is easier than the first. -/
def NoneEasier (s : State D) : Prop :=
  Normal (s.blk 0).tailer.difficulty → ∀ b : Nat, b < s.numBlocks →
    decodeDifficulty (s.blk b).tailer.difficulty
      ≤ decodeDifficulty (s.blk 0).tailer.difficulty

omit [Digest D] in
theorem NoneEasier.sew (h : NoneEasier s) (hok : HeadersOk s) {nb : NewBlock D}
    (hadd : Addable s prev nb) : NoneEasier (sewBlock s prev nb) := by
  obtain ⟨features, hblk⟩ := blk_sewBlock nb hadd.prev_lt
  have hn := (sewBlock_same s prev nb).1
  have hold : ∀ x : Nat, x ≠ s.numBlocks → (sewBlock s prev nb).blk x = s.blk x := fun x hx =>
    blk_sewBlock_old hadd.prev_lt hx
  have hzero : (0 : Nat) ≠ s.numBlocks := Nat.ne_of_lt hok.genesis.1
  unfold NoneEasier
  rw [hold 0 hzero, hn]
  intro hgenesis b hb
  by_cases hnew : b = s.numBlocks
  · have hdifficulty : ((sewBlock s prev nb).blk b).tailer.difficulty = nb.tailer.difficulty := by
      rw [hnew, hblk, Function.update_self]
      rfl
    rw [hdifficulty]
    by_cases hbegins : BeginsPeriod s prev
    · obtain ⟨start, hstart⟩ := hok.periodStart hadd.prev_lt hbegins
      rw [decodeDifficulty_of_getDifficulty hgenesis hadd.difficulty hstart hbegins]
      exact min_le_left _ _
    · have hsame := hadd.difficulty
      rw [getDifficulty_same hbegins] at hsame
      injection hsame with hsame
      rw [← hsame]
      exact h hgenesis prev hadd.prev_lt
  · rw [hold b hnew]
    exact h hgenesis b (by omega)

theorem noneEasier_of_nodeReach (h : NodeReach E s) : NoneEasier s := by
  suffices hboth : HeadersOk s ∧ NoneEasier s from hboth.2
  refine h.preserves (P := fun s => HeadersOk s ∧ NoneEasier s)
    (fun sha merkle nonce2 tailer now opts => ?_) fun s s' hr hstep hok => ?_
  · refine ⟨headersOk_of_nodeReach (E := E) (.start _ _ _ _ _ _), fun _ b hb => ?_⟩
    obtain rfl : b = 0 := Nat.lt_one_iff.mp hb
    exact Nat.le_refl _
  · rcases hstep.blocks hr with ⟨hn, hheader⟩ | ⟨prev, nb, hadd, rfl⟩
    · refine ⟨hok.1.congr hn hheader, ?_⟩
      have htailer : ∀ x : Nat, (s'.blk x).tailer = (s.blk x).tailer := by
        intro x
        show (s'.blk x).header.tailer = _
        rw [hheader]
        rfl
      unfold NoneEasier
      simp only [htailer, hn]
      exact hok.2
    · exact ⟨hok.1.sew hadd, hok.2.sew hok.1 hadd⟩

-- ---------------------------------------------------------------------------
-- When the law holds
-- ---------------------------------------------------------------------------

omit [Digest D] [DecidableEq D] in
/-- After a period of less than no time the target is larger than it should be. -/
theorem nextTarget_lt_of_neg (hgenesis : Normal (s.blk 0).tailer.difficulty)
    (heasier : decodeDifficulty (s.blk prev).tailer.difficulty
      ≤ decodeDifficulty (s.blk 0).tailer.difficulty) {difficulty : UInt32}
    (h : getDifficulty s prev = .ok difficulty) (hstart : periodStart s prev = some start)
    (hbegins : BeginsPeriod s prev) (hneg : timeSpan s prev start < 0) :
    nextTarget (decodeDifficulty (s.blk 0).tailer.difficulty)
        (decodeDifficulty (s.blk prev).tailer.difficulty) (timeSpan s prev start)
      < decodeDifficulty difficulty := by
  have hlarge : 2 ^ 24 ≤ scaledTarget s prev start := by
    rw [getDifficulty_begins hbegins hstart] at h
    obtain ⟨r, hencode, -⟩ := of_bind_eq_ok h
    exact ((encodeDifficulty_iff _).mp ⟨r, hencode⟩).1
  rw [decodeDifficulty_of_getDifficulty hgenesis h hstart hbegins]
  rw [scaledTarget_of_neg hneg] at hlarge ⊢
  unfold nextTarget
  rw [scaleTarget_of_neg _ hneg]
  generalize decodeDifficulty (s.blk prev).tailer.difficulty = old at heasier hlarge
  generalize decodeDifficulty (s.blk 0).tailer.difficulty = genesis at heasier
  have hless : leading 256 3 (old / 4) ≤ old / 4 := leading_le _
  have hmore : 4 * old < 2 * leading 256 3 (4 * old) :=
    lt_two_mul_leading (by decide) (by decide) (by omega)
  omega

omit [Digest D] [DecidableEq D] in
/-- Every chain can be walked back far enough, and `get_difficulty` follows the law exactly
where the period that ends took no negative time and the new target can be written. -/
theorem HeadersOk.retargets_iff (hok : HeadersOk s) (hnone : NoneEasier s)
    (hgenesis : Normal (s.blk 0).tailer.difficulty) (hprev : prev < s.numBlocks) :
    Retargets s prev ↔ (BeginsPeriod s prev → ∀ start, Pettycoin.periodStart s prev = some start →
      0 ≤ timeSpan s prev start ∧
      Encodable (scaleTarget (decodeDifficulty (s.blk prev).tailer.difficulty)
        (timeSpan s prev start))) := by
  by_cases hbegins : BeginsPeriod s prev
  · obtain ⟨start, hstart⟩ := hok.periodStart hprev hbegins
    simp only [hbegins, hstart, Option.some.injEq, true_imp_iff, forall_eq']
    constructor
    · rintro ⟨difficulty, hget, -, hlaw⟩
      obtain ⟨start', hstart', hvalue⟩ := hlaw hbegins
      obtain rfl : start = start' := Option.some.inj (hstart.symm.trans hstart')
      have hnonneg : 0 ≤ timeSpan s prev start := not_lt.mp fun hneg =>
        (nextTarget_lt_of_neg hgenesis (hnone hgenesis prev hprev) hget hstart hbegins hneg).ne
          hvalue.symm
      refine ⟨hnonneg, ?_⟩
      rw [← scaledTarget_of_nonneg hnonneg]
      exact (hok.getDifficulty_iff hprev).mp ⟨_, hget⟩ hbegins start hstart
    · rintro ⟨hnonneg, hencodable⟩
      rw [← scaledTarget_of_nonneg hnonneg] at hencodable
      obtain ⟨r, hencode⟩ := (encodeDifficulty_iff _).mpr hencodable
      have hget : getDifficulty s prev = .ok (limitedDifficulty s r) := by
        rw [getDifficulty_begins hbegins hstart, hencode]
        rfl
      refine ⟨_, hget, fun h => absurd hbegins h, fun _ => ⟨start, hstart, ?_⟩⟩
      rw [decodeDifficulty_of_getDifficulty hgenesis hget hstart hbegins,
        scaledTarget_of_nonneg hnonneg]
      rfl
  · exact ⟨fun _ h => absurd h hbegins, fun _ => ⟨_, getDifficulty_same hbegins, fun _ => rfl,
      fun h => absurd h hbegins⟩⟩

-- ---------------------------------------------------------------------------
-- Headers only
-- ---------------------------------------------------------------------------

omit [Digest D] [DecidableEq D] in
/-- `check_chains` passes where all heads are the genesis block. -/
theorem checkChains_home (hchains : s.longestChains = [0, 0]) (hknowns : s.longestKnowns = [0, 0])
    (hpreferred : s.preferredChain = 0) (hclean : (s.blk 0).complaint = none) :
    checkChains s = .ok () := by
  have hback : ∀ n, unknownBackTo s 0 n 0 = true := by
    intro n
    cases n <;> rfl
  have hsame : cmpWork s 0 0 = .eq := compare_eq_iff_eq.mpr rfl
  unfold checkChains assert
  simp [hchains, hknowns, hpreferred, hback, hsame, hclean]

/-- A state in which only the log has changed. -/
def OnlyLogs (s s' : State D) : Prop := ∃ events, s' = { s with events := events }

omit [Digest D] [DecidableEq D] in
theorem OnlyLogs.emit {s' : State D} (h : OnlyLogs s s') (e : Event D) : OnlyLogs s (s'.emit e) := by
  obtain ⟨events, rfl⟩ := h
  exact ⟨events ++ [e], rfl⟩

omit [Digest D] [DecidableEq D] in
theorem onlyLogs_askBlockContents {s' : State D} (h : OnlyLogs s s') (b : BlockId) :
    OnlyLogs s (askBlockContents s' b) := by
  unfold askBlockContents
  generalize List.range (s'.blk b).numShards = shards
  generalize hfixed : s' = fixed at h ⊢
  clear hfixed
  induction shards generalizing fixed with
  | nil => exact h
  | cons shard shards ih =>
    rw [List.foldl_cons]
    apply ih
    split_ifs
    · exact h
    · exact h.emit _
    · exact h

omit [DecidableEq D] in
theorem checkPrevTxhashesFrom_ok (C : Crypto D) (block : BlockId) (blocks : List BlockId)
    (off : Nat) (h : off + offAfter s blocks = (s.blk block).hdr.numPrevTxhashes.toNat) :
    ∃ good, checkPrevTxhashesFrom C s block blocks off = .ok good := by
  induction blocks generalizing off with
  | nil =>
    unfold checkPrevTxhashesFrom assert
    rw [if_pos (by rw [beq_iff_eq]; exact h)]
    exact ⟨true, rfl⟩
  | cons b blocks ih =>
    unfold checkPrevTxhashesFrom
    split_ifs
    · exact ⟨false, rfl⟩
    · refine ih _ ?_
      rw [← h, Nat.add_assoc]
      rfl

omit [Digest D] [DecidableEq D] in
/-- The blocks that were there are still the same. -/
theorem sameChains_sew (ht : TreeOk s) {nb : NewBlock D} (hprev : prev < s.numBlocks) :
    SameChains (fun b' b => b' = b ∧ b < s.numBlocks) (sewBlock s prev nb) s := by
  have hold : ∀ {b : BlockId}, b < s.numBlocks → (sewBlock s prev nb).blk b = s.blk b :=
    fun hb => blk_sewBlock_old hprev (Nat.ne_of_lt hb)
  constructor
  · rintro b' b p' ⟨rfl, hb⟩ hp
    rw [hold hb] at hp
    exact ⟨p', hp, rfl, (ht.prev_lt _ _ hp).trans hb⟩
  · rintro b' b ⟨rfl, hb⟩ hp
    rwa [hold hb] at hp
  · rintro b' b ⟨rfl, hb⟩
    rw [hold hb]
  · rintro b' b ⟨rfl, hb⟩ j
    unfold State.shardOf
    rw [hold hb]
    exact ⟨rfl, fun _ _ _ => id⟩

omit [Digest D] [DecidableEq D] in
theorem mem_recentTimes (ht : TreeOk s) {n : Nat} {b : BlockId} {time : UInt32}
    (h : time ∈ recentTimes s n b) :
    ∃ c : Nat, 0 < c ∧ c ≤ b ∧ time = (s.blk c).tailer.timestamp := by
  induction n generalizing b with
  | zero => exact absurd h List.not_mem_nil
  | succ n ih =>
    unfold recentTimes at h
    split at h
    · exact absurd h List.not_mem_nil
    · rename_i p hp
      have hpb := ht.prev_lt b p hp
      rcases List.mem_cons.mp h with rfl | h
      · exact ⟨b, Nat.zero_lt_of_lt hpb, Nat.le_refl b, rfl⟩
      · obtain ⟨c, hpos, hle, htime⟩ := ih h
        exact ⟨c, hpos, hle.trans hpb.le, htime⟩

omit [Digest D] [DecidableEq D] in
/-- A timestamp after all that came before, and not ahead, is fine. -/
theorem checkTimestamp_after (ht : TreeOk s) {time : UInt32}
    (hafter : ∀ c : Nat, 0 < c → c ≤ prev → (s.blk c).tailer.timestamp < time)
    (hnow : time.toNat ≤ s.now.toNat) : checkTimestamp s time prev = true := by
  unfold checkTimestamp
  dsimp only
  split
  · rename_i median hmedian
    have hmem := List.mem_mergeSort.mp (List.mem_of_getElem? hmedian)
    obtain ⟨c, hpos, hle, rfl⟩ := mem_recentTimes ht hmem
    rw [Bool.and_eq_true, decide_eq_true_eq, decide_eq_true_eq]
    exact ⟨hafter c hpos hle, by omega⟩
  · rw [decide_eq_true_eq]
    omega

-- ---------------------------------------------------------------------------
-- A chain of two periods
-- ---------------------------------------------------------------------------

/-- A node whose genesis block has this time. -/
def genesisAt (first : UInt32) : State IdealDigest :=
  startNode (genesisBlock .zero .zero (Bytes.zero 13) ⟨first, 0x1effffff, 0⟩) 30000 ⟨false, false⟩

/-- A chain of `n` blocks, ten seconds apart, all but the first of which vote for a feature.
There is a complaint about the first, so that the node keeps its heads where they are. -/
structure Ticking (first now : UInt32) (s : State IdealDigest) (n : Nat) : Prop where
  reach : NodeReach idealEnv s
  numBlocks : s.numBlocks = n + 1
  chains : s.longestChains = [0, 0]
  knowns : s.longestKnowns = [0, 0]
  preferred : s.preferredChain = 0
  now : s.now = now
  settled : s.pending.needsRecheck = false
  tip : (s.blk n).complaint.isSome
  sha : (s.blk 0).sha = .zero
  genesis : (s.blk 0).tailer = ⟨first, 0x1effffff, 0⟩
  depth : ∀ b : Nat, b ≤ n → (s.blk b).hdr.depth = UInt32.ofNat b
  difficulty : ∀ b : Nat, b ≤ n → (s.blk b).tailer.difficulty = 0x1effffff
  times : ∀ b : Nat, 0 < b → b ≤ n → (s.blk b).tailer.timestamp = UInt32.ofNat (b * 10)
  votes : ∀ b : Nat, 1 < b → b ≤ n → (s.blk b).hdr.featuresVote = 1

/-- What is asked of a node that has the first block, and the complaint about it. -/
def firstTick (first : UInt32) (s : State IdealDigest) : Bool :=
  decide (s.numBlocks = 2) && decide (s.longestChains = [0, 0]) &&
    decide (s.longestKnowns = [0, 0]) && decide (s.preferredChain = 0) &&
    decide (s.now = 30000) && !s.pending.needsRecheck && (s.blk 1).complaint.isSome &&
    decide ((s.blk 0).sha = .zero) && decide ((s.blk 0).tailer = ⟨first, 0x1effffff, 0⟩) &&
    decide ((s.blk 0).hdr.depth = 0) && decide ((s.blk 1).hdr.depth = 1) &&
    decide ((s.blk 1).tailer.difficulty = 0x1effffff) && decide ((s.blk 1).tailer.timestamp = 10)

/-- The first block, and the complaint about it. -/
theorem exists_firstTick {first : UInt32} (hrun : (nodeRun idealEnv (genesisAt first)
    (sampleAccusation ++ [sampleHeader (sampleBlock .zero 1 4 sampleAlone)])).toOption.any
      (firstTick first) = true) : ∃ s, Ticking first 30000 s 1 := by
  obtain ⟨s, hs, hchecks⟩ := (Option.any_eq_true _ _).mp hrun
  unfold firstTick at hchecks
  simp only [Bool.and_eq_true, decide_eq_true_eq, Bool.not_eq_true'] at hchecks
  obtain ⟨⟨⟨⟨⟨⟨⟨⟨⟨⟨⟨⟨hnum, hchains⟩, hknowns⟩, hpreferred⟩, hnow⟩, hsettled⟩, htip⟩, hsha⟩,
    hgenesis⟩, hdepth0⟩, hdepth1⟩, hdiff1⟩, htime1⟩ := hchecks
  have hreach : NodeReach idealEnv (genesisAt first) := .start _ _ _ _ _ _
  refine ⟨s, hreach.run (eq_ok_of_toOption hs), hnum, hchains, hknowns, hpreferred, hnow, hsettled,
    htip, hsha, hgenesis, fun b hb => ?_, fun b hb => ?_, fun b hpos hb => ?_, fun b hpos hb => ?_⟩
  · interval_cases b
    · exact hdepth0
    · exact hdepth1
  · interval_cases b
    · rw [hgenesis]
    · exact hdiff1
  · interval_cases b
    exact htime1
  · omega

/-- The next block of the chain. -/
def nextTick (s : State IdealDigest) (n : Nat) : BlockParts IdealDigest :=
  let block := sampleBlock (s.blk n).sha (UInt32.ofNat (n + 1)) (UInt32.ofNat (numPrevTxhashes s n)) []
  { block with
    hdr := { block.hdr with featuresVote := 1 }
    shardNums_length := rfl
    merkles_length := rfl
    prevTxhashes_length := List.length_replicate }

section Ticking

variable {s : State IdealDigest} {n : Nat} {first now : UInt32}

/-- The clock is set. -/
theorem Ticking.clock (h : Ticking first now s n) (now' : UInt32) : Ticking first now'
    { s with now := now' } n :=
  { h with
    reach := h.reach.step (.clock now') rfl
    now := rfl }

theorem Ticking.tree (h : Ticking first now s n) (hn : n < 2 ^ 16) : BlockTree s := by
  refine h.reach.blockTree ?_
  rw [h.numBlocks]
  unfold depthLimit
  omega

/-- Nobody has the next block yet. -/
theorem Ticking.fresh (h : Ticking first now s n) (hn : n < 2 ^ 16) :
    blockFindAny s (hashBlock idealCrypto (nextTick s n)) = none := by
  cases hfind : blockFindAny s (hashBlock idealCrypto (nextTick s n)) with
  | none => rfl
  | some b =>
    obtain ⟨hb, hsha⟩ := blockFindAny_spec hfind
    rw [h.numBlocks] at hb
    rcases Nat.eq_zero_or_pos b with rfl | hpos
    · rw [h.sha] at hsha
      exact absurd hsha.symm (idealCrypto_ne_zero _)
    · have hof := (blocksHashed_of_nodeReach h.reach b hpos (h.numBlocks ▸ hb)).isOf
        idealCrypto_injective hsha
      have hdepth : UInt32.ofNat b = UInt32.ofNat (n + 1) :=
        (h.depth b (by omega)).symm.trans (congrArg BlockHeader.depth hof.hdr)
      have hnat := congrArg UInt32.toNat hdepth
      rw [UInt32.toNat_ofNat_of_lt' (by simp [UInt32.size]; omega),
        UInt32.toNat_ofNat_of_lt' (by simp [UInt32.size]; omega)] at hnat
      omega

theorem numPrevTxhashes_le (h : NodeReach idealEnv s) (b : BlockId) : numPrevTxhashes s b ≤ 40 := by
  have hlen := prevTxhashBlocks_length_le s protocolPrevBlockTxhashes (some b)
  have hsum := List.sum_le_card_nsmul
    ((prevTxhashBlocks s protocolPrevBlockTxhashes (some b)).map fun b => (s.blk b).numShards) 4
    (fun m hm => by
      obtain ⟨c, -, rfl⟩ := List.mem_map.mp hm
      unfold Block.numShards
      rw [(ledgerOk_of_nodeReach h).shardOrder c]
      decide)
  rw [List.length_map] at hsum
  change numPrevTxhashes s b ≤ _ * 4 at hsum
  have hcount : protocolPrevBlockTxhashes = 10 := rfl
  omega

theorem beatsTarget_sample (sha : IdealDigest) : beatsTarget sha 0x1effffff = .ok true := by
  have hzero : ∀ i, Digest.sha sha i = 0 := fun _ => rfl
  unfold beatsTarget
  simp only [hzero]
  decide

theorem Ticking.beginsPeriod_iff (h : Ticking first now s n) (hn : n < 2 ^ 31) :
    BeginsPeriod s n ↔ 2016 ∣ n + 1 := by
  unfold BeginsPeriod
  rw [h.depth n (Nat.le_refl n), ← UInt32.toNat_inj, UInt32.toNat_mod, UInt32.toNat_add,
    UInt32.toNat_ofNat_of_lt' (by simp [UInt32.size]; omega)]
  change (n + 1) % 2 ^ 32 % 2016 = 0 ↔ _
  rw [Nat.mod_eq_of_lt (show n + 1 < 2 ^ 32 by omega), Nat.dvd_iff_mod_eq_zero]

/-- How long the first period takes. -/
theorem Ticking.first_period (h : Ticking first now s 2015) :
    BeginsPeriod s 2015 ∧ periodStart s 2015 = some 0 ∧ timeSpan s 2015 0 = 20150 - first.toNat := by
  have hdepth : (s.blk 2015).hdr.depth = 2015 := h.depth 2015 (Nat.le_refl _)
  refine ⟨(h.beginsPeriod_iff (by decide)).mpr (by decide), ?_, ?_⟩
  · unfold periodStart
    rw [hdepth]
    rfl
  · unfold timeSpan
    rw [h.genesis, h.times 2015 (by decide) (Nat.le_refl _)]
    rfl

/-- Up to the end of the second period the difficulty is that of the first block. -/
theorem Ticking.getDifficulty (h : Ticking first now s n) (hn : n < 4031)
    (hlate : n = 2015 → 20150 < first.toNat) : getDifficulty s n = .ok 0x1effffff := by
  have hlast : (s.blk n).tailer.difficulty = 0x1effffff := h.difficulty n (Nat.le_refl n)
  by_cases hfirst : n = 2015
  · subst hfirst
    obtain ⟨hbegins, hstart, hspan⟩ := h.first_period
    have hneg : timeSpan s 2015 0 < 0 := by
      have := hlate rfl
      omega
    have hencode : encodeDifficulty (4 * decodeDifficulty 0x1effffff) = .ok (31, 0x03ffff) := by
      decide
    rw [getDifficulty_begins hbegins hstart, scaledTarget_of_neg hneg, hlast, hencode, ok_bind]
    have hgenesis : (s.blk 0).tailer.difficulty = 0x1effffff := by rw [h.genesis]
    unfold limitedDifficulty
    rw [hgenesis]
    rfl
  · have hsame : ¬ BeginsPeriod s n := by
      rw [h.beginsPeriod_iff (by omega)]
      omega
    rw [getDifficulty_same hsame, hlast]

/-- Its header passes the checks. -/
theorem Ticking.checkBlockHeader (h : Ticking first now s n) (hpos : 0 < n) (hn : n < 4031)
    (hlate : n = 2015 → 20150 < first.toNat) (hnow : (n + 1) * 10 ≤ now.toNat) :
    checkBlockHeader idealCrypto s (nextTick s n) = .ok (.none, some n) := by
  have ht := h.tree (by omega)
  have hlt : n < s.numBlocks := by
    rw [h.numBlocks]
    exact Nat.lt_succ_self n
  have hfind : blockFindAny s (nextTick s n).hdr.prevBlock = some n := ht.blockFindAny hlt
  have hdepth : (nextTick s n).hdr.depth = (s.blk n).hdr.depth + 1 := by
    rw [h.depth n (Nat.le_refl n)]
    show UInt32.ofNat (n + 1) = _
    rw [UInt32.ofNat_add]
    rfl
  have htime : (nextTick s n).tailer.timestamp = UInt32.ofNat ((n + 1) * 10) := by
    show UInt32.ofNat (n + 1) * 10 = _
    rw [UInt32.ofNat_mul]
    rfl
  have hnat : ∀ b : Nat, b ≤ 4031 → (UInt32.ofNat (b * 10)).toNat = b * 10 := fun b hb =>
    UInt32.toNat_ofNat_of_lt' (by simp [UInt32.size]; omega)
  have hcheck : checkTimestamp s (nextTick s n).tailer.timestamp n = true := by
    rw [htime]
    refine checkTimestamp_after ht.tree (fun c hc hcn => ?_) ?_
    · rw [h.times c hc hcn, UInt32.lt_iff_toNat_lt, hnat c (by omega), hnat (n + 1) (by omega)]
      omega
    · rw [hnat (n + 1) (by omega), h.now]
      exact hnow
  have hagainst : checkAgainstPrev s (nextTick s n) n = .ok .none := by
    unfold checkAgainstPrev
    rw [show (nextTick s n).hdr.shardOrder = nextShardOrder n from rfl, hdepth, hcheck,
      h.getDifficulty hn hlate]
    simp
    rfl
  have henough : beatsTarget (hashBlock idealCrypto (nextTick s n))
      (nextTick s n).tailer.difficulty = .ok true := beatsTarget_sample _
  unfold Pettycoin.checkBlockHeader
  rw [show versionOk (nextTick s n).hdr.version = true from rfl, henough, ok_bind, hfind]
  dsimp only
  rw [hagainst]
  rfl

/-- `recv_block_from_peer` of a block below one with a complaint. -/
theorem Ticking.recv (h : Ticking first now s n) (hpos : 0 < n) (hn : n < 4031)
    (hlate : n = 2015 → 20150 < first.toNat) (hnow : (n + 1) * 10 ≤ now.toNat) :
    ∃ s', nodeStep idealEnv s (sampleHeader (nextTick s n)) = .ok s' ∧
      OnlyLogs (sewBlock s n ((nextTick s n).toNewBlock idealCrypto)) s' := by
  have ht := h.tree (by omega)
  have hlt : n < s.numBlocks := by
    rw [h.numBlocks]
    exact Nat.lt_succ_self n
  have hnum : (nextTick s n).hdr.numPrevTxhashes.toNat = numPrevTxhashes s n := by
    have hle := numPrevTxhashes_le h.reach n
    exact UInt32.toNat_ofNat_of_lt' (by simp [UInt32.size]; omega)
  obtain ⟨features, hblk⟩ := blk_sewBlock ((nextTick s n).toNewBlock idealCrypto) hlt
  have hsame : SameChains _ (sewBlock s n ((nextTick s n).toNewBlock idealCrypto)) s :=
    sameChains_sew ht.tree hlt
  have hzero : (sewBlock s n ((nextTick s n).toNewBlock idealCrypto)).blk 0 = s.blk 0 :=
    blk_sewBlock_old hlt (Nat.ne_of_lt ht.tree.genesis_lt)
  have hheads :
      (sewBlock s n ((nextTick s n).toNewBlock idealCrypto)).longestChains = [0, 0] ∧
      (sewBlock s n ((nextTick s n).toNewBlock idealCrypto)).longestKnowns = [0, 0] ∧
      (sewBlock s n ((nextTick s n).toNewBlock idealCrypto)).preferredChain = 0 := by
    unfold sewBlock
    dsimp only
    split_ifs <;> exact ⟨h.chains, h.knowns, h.preferred⟩
  have hadd : blockAdd s n ((nextTick s n).toNewBlock idealCrypto)
      = .ok (sewBlock s n ((nextTick s n).toNewBlock idealCrypto), s.numBlocks) := by
    have hcomplaint : ((sewBlock s n ((nextTick s n).toNewBlock idealCrypto)).blk
        s.numBlocks).complaint.isSome := by
      rw [hblk, Function.update_self]
      exact h.tip
    unfold blockAdd blockAddHeads
    dsimp only
    rw [if_pos hcomplaint, checkChains_home hheads.1 hheads.2.1 hheads.2.2]
    · rfl
    · rw [hzero]
      exact ht.tree.complaint_genesis
  have hpending := (sewBlock_same s n ((nextTick s n).toNewBlock idealCrypto)).2.2.1
  have hnew := congrFun hblk s.numBlocks
  rw [Function.update_self] at hnew
  generalize sewBlock s n ((nextTick s n).toNewBlock idealCrypto) = sewn
    at hsame hadd hpending hnew
  have hannounce : ∃ s₂, announceBlock idealCrypto sewn (some ⟨0, false⟩) s.numBlocks = .ok s₂ ∧
      OnlyLogs sewn s₂ := by
    obtain ⟨good, hgood⟩ := checkPrevTxhashesFrom_ok idealCrypto s.numBlocks
      (prevTxhashBlocks sewn protocolPrevBlockTxhashes (some n)) 0 (s := sewn) (by
        rw [Nat.zero_add, hsame.offAfter_eq (hsame.visits ⟨rfl, hlt⟩ protocolPrevBlockTxhashes), hnew]
        exact hnum.symm)
    have hprev : (sewn.blk s.numBlocks).prev = some n := by
      rw [hnew]
      rfl
    unfold announceBlock checkPrevTxhashes
    rw [hprev, hgood]
    cases good with
    | false => exact ⟨sewn, rfl, sewn.events, rfl⟩
    | true => exact ⟨_, rfl, onlyLogs_askBlockContents ⟨_, rfl⟩ _⟩
  obtain ⟨s₂, hok, hlogs⟩ := hannounce
  have htell : OnlyLogs sewn (tellComplaint s₂ (some ⟨0, false⟩) s.numBlocks) := by
    unfold tellComplaint
    split
    · exact hlogs.emit _
    · exact hlogs
  have hrecv : recvPacket idealEnv s ⟨0, false⟩ (.block (nextTick s n))
      = .ok (tellComplaint s₂ (some ⟨0, false⟩) s.numBlocks, .none) := by
    show recvBlockFromPeer idealCrypto s ⟨0, false⟩ (nextTick s n) = _
    unfold recvBlockFromPeer recvBlock
    rw [h.checkBlockHeader hpos hn hlate hnow]
    show (recvGoodBlock idealCrypto s _ _ n >>= _) = _
    unfold recvGoodBlock
    rw [if_neg (not_not.mpr hnum), h.fresh (by omega)]
    dsimp only
    rw [hadd]
    show ((announceBlock idealCrypto sewn _ s.numBlocks >>= _) >>= _) = _
    rw [hok]
    rfl
  refine ⟨_, ?_, htell⟩
  generalize tellComplaint s₂ (some ⟨0, false⟩) s.numBlocks = s₃ at htell hrecv
  have hsettled : s₃.pending.needsRecheck = false := by
    obtain ⟨events, rfl⟩ := htell
    show sewn.pending.needsRecheck = false
    rw [hpending]
    exact h.settled
  show (pktIn idealEnv s ⟨0, false⟩ (.block (nextTick s n)) >>= _) = _
  unfold pktIn
  rw [hrecv]
  show ((recheckPendingTxs idealEnv s₃ >>= _) >>= _) = _
  unfold recheckPendingTxs
  rw [hsettled]
  rfl

/-- It is added, and the heads stay where they are. -/
theorem Ticking.step (h : Ticking first now s n) (hpos : 0 < n) (hn : n < 4031)
    (hlate : n = 2015 → 20150 < first.toNat) (hnow : (n + 1) * 10 ≤ now.toNat) :
    ∃ s', Ticking first now s' (n + 1) := by
  obtain ⟨s', hstep, events, rfl⟩ := h.recv hpos hn hlate hnow
  have hlt : n < s.numBlocks := by
    rw [h.numBlocks]
    exact Nat.lt_succ_self n
  obtain ⟨features, hblk⟩ := blk_sewBlock ((nextTick s n).toNewBlock idealCrypto) hlt
  have hnew := congrFun hblk s.numBlocks
  rw [Function.update_self] at hnew
  have hold : ∀ b : Nat, b ≤ n →
      (sewBlock s n ((nextTick s n).toNewBlock idealCrypto)).blk b = s.blk b := fun b hb =>
    blk_sewBlock_old hlt (by rw [h.numBlocks]; exact Nat.ne_of_lt (Nat.lt_succ_of_le hb))
  have hlast : ∀ {b : Nat}, b ≤ n + 1 → ¬ b ≤ n → b = s.numBlocks := fun hb hne => by
    rw [h.numBlocks]
    omega
  have hkept := sewBlock_same s n ((nextTick s n).toNewBlock idealCrypto)
  have hheads :
      (sewBlock s n ((nextTick s n).toNewBlock idealCrypto)).longestChains = [0, 0] ∧
      (sewBlock s n ((nextTick s n).toNewBlock idealCrypto)).longestKnowns = [0, 0] ∧
      (sewBlock s n ((nextTick s n).toNewBlock idealCrypto)).preferredChain = 0 ∧
      (sewBlock s n ((nextTick s n).toNewBlock idealCrypto)).now = now := by
    unfold sewBlock
    dsimp only
    split_ifs <;> exact ⟨h.chains, h.knowns, h.preferred, h.now⟩
  refine ⟨_, h.reach.step _ hstep, ?_, hheads.1, hheads.2.1, hheads.2.2.1, hheads.2.2.2, ?_, ?_, ?_, ?_,
    fun b hb => ?_, fun b hb => ?_, fun b hbpos hb => ?_, fun b hbpos hb => ?_⟩
  · show (sewBlock s n _).numBlocks = _
    rw [hkept.1, h.numBlocks]
  · show (sewBlock s n _).pending.needsRecheck = _
    rw [hkept.2.2.1]
    exact h.settled
  · show ((sewBlock s n _).blk (n + 1)).complaint.isSome
    rw [← h.numBlocks, hnew]
    exact h.tip
  · show ((sewBlock s n _).blk 0).sha = _
    rw [hold 0 (Nat.zero_le n)]
    exact h.sha
  · show ((sewBlock s n _).blk 0).tailer = _
    rw [hold 0 (Nat.zero_le n)]
    exact h.genesis
  · show ((sewBlock s n _).blk b).hdr.depth = _
    by_cases hbn : b ≤ n
    · rw [hold b hbn]
      exact h.depth b hbn
    · rw [hlast hb hbn, hnew, h.numBlocks]
      rfl
  · show ((sewBlock s n _).blk b).tailer.difficulty = _
    by_cases hbn : b ≤ n
    · rw [hold b hbn]
      exact h.difficulty b hbn
    · rw [hlast hb hbn, hnew]
      rfl
  · show ((sewBlock s n _).blk b).tailer.timestamp = _
    by_cases hbn : b ≤ n
    · rw [hold b hbn]
      exact h.times b hbpos hbn
    · rw [hlast hb hbn, hnew, h.numBlocks, UInt32.ofNat_mul]
      rfl
  · show ((sewBlock s n _).blk b).hdr.featuresVote = _
    by_cases hbn : b ≤ n
    · rw [hold b hbn]
      exact h.votes b hbpos hbn
    · rw [hlast hb hbn, hnew]
      rfl

theorem exists_ticking_first (first : UInt32) (hfirst : first = 0 ∨ first = 30000) (n : Nat)
    (hpos : 0 < n) (hn : n ≤ 2015) : ∃ s, Ticking first 30000 s n := by
  induction n, hpos using Nat.le_induction with
  | base =>
    refine exists_firstTick ?_
    rcases hfirst with rfl | rfl
    · decide +kernel
    · decide +kernel
  | succ n hpos ih =>
    obtain ⟨s, hs⟩ := ih (by omega)
    refine hs.step hpos (by omega) (by omega) ?_
    show _ ≤ 30000
    omega

/-- The clock of the node is set on, and the chain goes on for two periods. -/
theorem exists_ticking (n : Nat) (hlow : 2015 ≤ n) (hhigh : n ≤ 4031) :
    ∃ s, Ticking 30000 50000 s n := by
  induction n, hlow using Nat.le_induction with
  | base =>
    obtain ⟨s, hs⟩ := exists_ticking_first 30000 (.inr rfl) 2015 (by decide) (Nat.le_refl _)
    exact ⟨_, hs.clock 50000⟩
  | succ n hlow ih =>
    obtain ⟨s, hs⟩ := ih (by omega)
    refine hs.step (by omega) (by omega) (fun _ => by decide) ?_
    show _ ≤ 50000
    omega

/-- The blocks are numbered along the chain. -/
theorem Ticking.has_prev (h : Ticking first now s n) {b : Nat} (hb : b + 1 ≤ n) (hn : n ≤ 4031) :
    (s.blk (b + 1)).prev = some b := by
  obtain ⟨p, hp, hlt, hdepth⟩ := (headersOk_of_nodeReach h.reach).has_prev (b + 1) (Nat.succ_pos b)
    (by rw [h.numBlocks]; omega)
  rw [h.depth (b + 1) hb, h.depth p (by omega)] at hdepth
  have hnat := congrArg UInt32.toNat hdepth
  rw [UInt32.toNat_add, UInt32.toNat_ofNat_of_lt' (by simp [UInt32.size]; omega),
    UInt32.toNat_ofNat_of_lt' (by simp [UInt32.size]; omega)] at hnat
  change b + 1 = (p + 1) % 2 ^ 32 at hnat
  rw [hp]
  refine congrArg some ?_
  omega

theorem Ticking.blockAncestor (h : Ticking first now s n) (hn : n ≤ 4031) {b m : Nat} (hb : b + m ≤ n) :
    blockAncestor s (b + m) m = some b := by
  induction m with
  | zero => rfl
  | succ m ih =>
    have hprev : (s.blk (b + (m + 1))).prev = some (b + m) := h.has_prev hb hn
    unfold Pettycoin.blockAncestor
    rw [hprev]
    exact ih (Nat.le_of_succ_le hb)

end Ticking

-- ---------------------------------------------------------------------------
-- The result
-- ---------------------------------------------------------------------------

omit [Digest D] [DecidableEq D] in
/-- The depth is a number of 32 bits, and so is the next one. -/
theorem beginsPeriod_iff {s : State D} {prev : BlockId}
    (h : (s.blk prev).hdr.depth.toNat + 1 < 2 ^ 32) :
    BeginsPeriod s prev ↔ 2016 ∣ (s.blk prev).hdr.depth.toNat + 1 := by
  unfold BeginsPeriod
  rw [← UInt32.toNat_inj, UInt32.toNat_mod, UInt32.toNat_add]
  change ((s.blk prev).hdr.depth.toNat + 1) % 2 ^ 32 % 2016 = 0 ↔ _
  rw [Nat.mod_eq_of_lt h, Nat.dvd_iff_mod_eq_zero]

/-- **Retargeting.** `get_difficulty` gives the difficulty of the block before, and once a
period the target scaled by the time the period took, exactly where that is no negative time
and the scaled target can be written. There is a block to measure from on every chain, and
the law is monotone in the time. -/
theorem retarget_iff {s : State D} {prev : BlockId} (hreach : NodeReach E s)
    (hgenesis : Normal (s.blk 0).tailer.difficulty) (hprev : prev < s.numBlocks) :
    (Retargets s prev ↔ (BeginsPeriod s prev → ∀ start, periodStart s prev = some start →
      0 ≤ timeSpan s prev start ∧
      Encodable (scaleTarget (decodeDifficulty (s.blk prev).tailer.difficulty)
        (timeSpan s prev start)))) ∧
    (BeginsPeriod s prev → ∃ start, periodStart s prev = some start) ∧
    ∀ genesis old : Nat, Monotone (nextTarget genesis old) :=
  ⟨(headersOk_of_nodeReach hreach).retargets_iff (noneEasier_of_nodeReach hreach) hgenesis hprev,
    (headersOk_of_nodeReach hreach).periodStart hprev, nextTarget_mono⟩

/-- A period that takes ten seconds less than it is meant to. -/
theorem retarget_iff_ticking : ∃ s : State IdealDigest, NodeReach idealEnv s ∧ BeginsPeriod s 2015 ∧
    timeSpan s 2015 0 = 20150 ∧ Retargets s 2015 := by
  obtain ⟨s, h⟩ := exists_ticking_first 0 (.inl rfl) 2015 (by decide) (Nat.le_refl _)
  have hlt : 2015 < s.numBlocks := by
    rw [h.numBlocks]
    exact Nat.lt_succ_self _
  have hnormal : Normal (s.blk 0).tailer.difficulty := by
    rw [h.genesis]
    exact ⟨by decide, by decide⟩
  obtain ⟨hbegins, hstart, hspan⟩ := h.first_period
  refine ⟨s, h.reach, hbegins, hspan, (retarget_iff h.reach hnormal hlt).1.mpr fun _ start hstart' => ?_⟩
  obtain rfl := Option.some.inj (hstart.symm.trans hstart')
  have hlast : (s.blk 2015).tailer.difficulty = 0x1effffff := h.difficulty 2015 (Nat.le_refl _)
  rw [hspan, hlast]
  refine ⟨by decide, (encodeDifficulty_iff _).mp ⟨(30, 0xffdf7c), ?_⟩⟩
  decide

/-- The first period ends before it began, and the target is not made smaller. -/
theorem retarget_backdated : ∃ s : State IdealDigest, NodeReach idealEnv s ∧ 2015 < s.numBlocks ∧
    Normal (s.blk 0).tailer.difficulty ∧ BeginsPeriod s 2015 ∧ timeSpan s 2015 0 < 0 ∧
    getDifficulty s 2015 = .ok (s.blk 2015).tailer.difficulty ∧
    decodeDifficulty (s.blk 2015).tailer.difficulty
      ≠ nextTarget (decodeDifficulty (s.blk 0).tailer.difficulty)
        (decodeDifficulty (s.blk 2015).tailer.difficulty) (timeSpan s 2015 0) ∧
    ¬ Retargets s 2015 := by
  obtain ⟨s, h⟩ := exists_ticking_first 30000 (.inr rfl) 2015 (by decide) (Nat.le_refl _)
  have hlt : 2015 < s.numBlocks := by
    rw [h.numBlocks]
    exact Nat.lt_succ_self _
  have hfirst : (s.blk 0).tailer.difficulty = 0x1effffff := by rw [h.genesis]
  have hlast : (s.blk 2015).tailer.difficulty = 0x1effffff := h.difficulty 2015 (Nat.le_refl _)
  have hnormal : Normal (s.blk 0).tailer.difficulty := by
    rw [hfirst]
    exact ⟨by decide, by decide⟩
  obtain ⟨hbegins, hstart, hspan⟩ := h.first_period
  have hneg : timeSpan s 2015 0 < 0 := by
    rw [hspan]
    decide
  have hget : getDifficulty s 2015 = .ok (s.blk 2015).tailer.difficulty := by
    rw [hlast]
    exact h.getDifficulty (by decide) fun _ => by decide
  have heasier := noneEasier_of_nodeReach h.reach hnormal 2015 hlt
  have hless := nextTarget_lt_of_neg hnormal heasier hget hstart hbegins hneg
  refine ⟨s, h.reach, hlt, hnormal, hbegins, hneg, hget, hless.ne', fun hlaw => ?_⟩
  have hcond := ((headersOk_of_nodeReach h.reach).retargets_iff (noneEasier_of_nodeReach h.reach)
    hnormal hlt).mp hlaw hbegins 0 hstart
  exact absurd hcond.1 (not_le.mpr hneg)

end Pettycoin
