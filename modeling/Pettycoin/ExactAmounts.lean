import Pettycoin.Accusations
import Pettycoin.Claims
import Pettycoin.NoTrace

/-!
# Pettycoin — amounts, fees and rewards as numbers

The amounts of a transaction are added up in 32 bits. The limits of `check_tx` keep these
sums exact but for the outputs of a gateway transaction, whose number and total nobody
limits, and for what `find_output` reads behind them (`exact_amounts_iff`). The reward of a
block is worked out from the amount without the fee and from the number of shards, and is
the fee of the block's transaction for very small amounts only (`reward_is_fee_iff`).

* `txAmountSent_exact_iff` — the amount sent;
* `inputTotal_exact_iff` — the total of the inputs;
* `exact_amounts_iff` — the transactions all amounts of which are exact;
* `reward_is_fee_iff` — the amounts for which the reward is the fee.
-/

namespace Pettycoin

open ExceptRules

variable {D : Type} [Digest D] [DecidableEq D] {E : Env D} {s : State D} {b : Nat}

-- ---------------------------------------------------------------------------
-- Sums in 32 bits
-- ---------------------------------------------------------------------------

/-- A sum in 32 bits is the sum modulo `2 ^ 32`. -/
theorem toNat_foldl_add_mod (amounts : List UInt32) (total : UInt32) :
    (amounts.foldl (· + ·) total).toNat
      = (total.toNat + (amounts.map UInt32.toNat).sum) % 2 ^ 32 := by
  induction amounts generalizing total with
  | nil => exact (Nat.mod_eq_of_lt total.toNat_lt).symm
  | cons a rest ih =>
    rw [List.foldl_cons, ih, UInt32.toNat_add, List.map_cons, List.sum_cons, ← Nat.add_assoc,
      Nat.mod_add_mod]

omit [Digest D] [DecidableEq D] in
theorem toNat_txAmountSent_mod (tx : Tx D) : (txAmountSent tx).toNat = sentAmount tx % 2 ^ 32 := by
  cases tx with
  | normal t => exact UInt32.toNat_add _ _
  | toGateway t => exact UInt32.toNat_add _ _
  | claim t => exact (Nat.mod_eq_of_lt t.amount.toNat_lt).symm
  | fromGateway t =>
    have hsum := toNat_foldl_add_mod (t.outputs.map GatewayPayment.sendAmount) 0
    rw [List.foldl_map, List.map_map] at hsum
    rw [txAmountSent, hsum]
    show (0 + _) % _ = _
    rw [Nat.zero_add]
    rfl

/-- `PROTOCOL_FEE` where the product fits in 32 bits. -/
theorem toNat_protocolFee_of_lt {x : UInt32} (h : 3 * x.toNat < 2 ^ 32) :
    (protocolFee x).toNat = x.toNat * 3 / 1024 + 1 := by
  unfold protocolFee
  rw [UInt32.toNat_add, UInt32.toNat_div, UInt32.toNat_mul]
  simp only [UInt32.reduceToNat]
  rw [Nat.mod_eq_of_lt (show x.toNat * 3 < 2 ^ 32 by omega)]
  exact Nat.mod_eq_of_lt (by omega)

/-- Where it does not, the fee is too small. -/
theorem toNat_protocolFee_le (x : UInt32) : (protocolFee x).toNat ≤ 2 ^ 22 := by
  unfold protocolFee
  rw [UInt32.toNat_add, UInt32.toNat_div, UInt32.toNat_mul]
  simp only [UInt32.reduceToNat]
  have hproduct : x.toNat * 3 % 2 ^ 32 < 2 ^ 32 := Nat.mod_lt _ (by decide)
  generalize x.toNat * 3 % 2 ^ 32 = product at hproduct
  exact (Nat.mod_le _ _).trans (by omega)

/-- `PROTOCOL_REWARD` for four shards. -/
theorem toNat_protocolReward_four (x : UInt32) :
    (protocolReward x 4).toNat = (x.toNat * 4 * 3 + 1024) / 1027 := by
  have hx := x.toNat_lt
  unfold protocolReward
  rw [UInt64.toNat_toUInt32, UInt64.toNat_div, UInt64.toNat_add, UInt64.toNat_mul, UInt64.toNat_mul,
    UInt32.toNat_toUInt64, UInt32.toNat_toUInt64]
  simp only [UInt32.reduceToNat, UInt64.reduceToNat]
  rw [Nat.mod_eq_of_lt (show x.toNat * 4 < 2 ^ 64 by omega),
    Nat.mod_eq_of_lt (show x.toNat * 4 * 3 < 2 ^ 64 by omega),
    Nat.mod_eq_of_lt (show x.toNat * 4 * 3 + 1024 < 2 ^ 64 by omega)]
  exact Nat.mod_eq_of_lt (by omega)

-- ---------------------------------------------------------------------------
-- What is added up
-- ---------------------------------------------------------------------------

/-- The `fee` of `correct_amount`. -/
def correctFee (tx : Tx D) : UInt32 := if txPaysFee tx then protocolFee (txAmountSent tx) else 0

/-- The inputs pass one by one, and these are their amounts. -/
def InputAmounts (E : Env D) (s : State D) (b : Nat) (me : Option (BlockId × Nat × Nat)) (tx : Tx D)
    (amounts : List UInt32) : Prop :=
  ∃ addr, getTxInputAddress E.crypto tx = some addr ∧
    List.Forall₂ (fun inp amount =>
      checkOneInput E s b me inp addr (txType tx = .claim) = .ok (.ok, amount)) (txInputs tx) amounts

/-- The `input_total` of `check_tx_inputs`. -/
def inputTotal (amounts : List UInt32) : UInt32 := amounts.foldl (· + ·) 0

/-- The value of `PROTOCOL_REWARD`. -/
def rewardValue (blk : Block D) (tx : Tx D) : Nat :=
  if txPaysFee tx then (sentAmount tx * numTxs blk * 3 + 1024) / 1027 else 0

/-- All that the node works out about the amounts of a transaction is exact. -/
structure ExactAmounts (E : Env D) (s : State D) (tx : Tx D) : Prop where
  sent : (txAmountSent tx).toNat = sentAmount tx
  fee : (correctFee tx).toNat = feeAmount tx
  total : ∀ (b : Nat) (me : Option (BlockId × Nat × Nat)) (bad : Nat) (amounts : List UInt32),
    checkTxInputs E s b me tx = .ok (.ok, bad) → InputAmounts E s b me tx amounts →
      (inputTotal amounts).toNat = (amounts.map UInt32.toNat).sum
  reward : ∀ b : Nat, b < s.numBlocks →
    (rewardAmount (s.blk b) tx).toNat = rewardValue (s.blk b) tx

/-- The sums that nobody limits fit in 32 bits. -/
structure AmountsFit (E : Env D) (s : State D) (tx : Tx D) : Prop where
  outputs : ∀ t, tx = .fromGateway t →
    sentAmount tx < 2 ^ 32 ∧ (t.paysFee = true → 3 * sentAmount tx < 2 ^ 32)
  inputs : ∀ (b : Nat) (me : Option (BlockId × Nat × Nat)) (bad : Nat) (amounts : List UInt32),
    checkTxInputs E s b me tx = .ok (.ok, bad) → InputAmounts E s b me tx amounts →
      (amounts.map UInt32.toNat).sum < 2 ^ 32

/-- The limits of `check_tx` for all types but gateway transactions. -/
theorem sentAmount_le {C : Crypto D} {inside : Option BlockId} {tx : Tx D}
    (hcheck : checkTx C s tx inside = .none) (hgateway : ∀ t, tx ≠ .fromGateway t) :
    sentAmount tx ≤ 2 * protocolMaxSatoshi.toNat := by
  cases tx with
  | normal t => exact (toNat_txAmountSent (Or.inl rfl) hcheck).2.1
  | toGateway t => exact (toNat_txAmountSent (Or.inr rfl) hcheck).2.1
  | fromGateway t => exact absurd rfl (hgateway t)
  | claim t =>
    have hclaim : checkTxClaim C t = .none := hcheck
    unfold checkTxClaim at hclaim
    split_ifs at hclaim with hversion hlarge hsign
    have hle := UInt32.le_iff_toNat_le.mp (UInt32.not_lt.mp hlarge)
    show t.amount.toNat ≤ _
    omega

/-- The outputs of an accepted transaction fit, unless it is one of a gateway. -/
theorem sentAmount_lt {C : Crypto D} {inside : Option BlockId} {tx : Tx D}
    (hcheck : checkTx C s tx inside = .none)
    (houtputs : ∀ t, tx = .fromGateway t →
      sentAmount tx < 2 ^ 32 ∧ (t.paysFee = true → 3 * sentAmount tx < 2 ^ 32)) :
    sentAmount tx < 2 ^ 32 ∧ (txPaysFee tx = true → 3 * sentAmount tx < 2 ^ 32) := by
  have hmax : protocolMaxSatoshi.toNat = 2 ^ 29 := rfl
  cases tx with
  | fromGateway t => exact houtputs t rfl
  | normal t =>
    have hle := sentAmount_le hcheck (fun _ => by simp)
    omega
  | toGateway t =>
    have hle := sentAmount_le hcheck (fun _ => by simp)
    omega
  | claim t =>
    have hle := sentAmount_le hcheck (fun _ => by simp)
    omega

-- ---------------------------------------------------------------------------
-- When it is exact
-- ---------------------------------------------------------------------------

omit [Digest D] [DecidableEq D] in
theorem txAmountSent_exact_iff (tx : Tx D) :
    (txAmountSent tx).toNat = sentAmount tx ↔ sentAmount tx < 2 ^ 32 := by
  rw [toNat_txAmountSent_mod]
  exact ⟨fun h => h ▸ Nat.mod_lt _ (by decide), Nat.mod_eq_of_lt⟩

omit [Digest D] [DecidableEq D] in
theorem correctFee_exact_iff {tx : Tx D} (hsent : (txAmountSent tx).toNat = sentAmount tx) :
    (correctFee tx).toNat = feeAmount tx ↔ (txPaysFee tx = true → 3 * sentAmount tx < 2 ^ 32) := by
  unfold correctFee feeAmount
  split_ifs with hpays
  · constructor
    · intro h _
      have hle := toNat_protocolFee_le (txAmountSent tx)
      omega
    · intro hfit
      have hproduct := hfit hpays
      rw [toNat_protocolFee_of_lt (by omega), hsent]
  · exact ⟨fun _ h => absurd h hpays, fun _ => rfl⟩

/-- In every block a node has the reward is exact where the amount sent is. -/
theorem rewardAmount_exact (hreach : NodeReach E s) {tx : Tx D}
    (hsent : (txAmountSent tx).toNat = sentAmount tx) (b : Nat) :
    (rewardAmount (s.blk b) tx).toNat = rewardValue (s.blk b) tx := by
  have hfour : numTxs (s.blk b) = 4 := by
    unfold numTxs Block.numShards
    rw [(ledgerOk_of_nodeReach hreach).shardOrder b]
    rfl
  unfold rewardAmount rewardValue
  rw [hfour]
  cases txPaysFee tx with
  | false => rfl
  | true =>
    show (protocolReward (txAmountSent tx) 4).toNat = _
    rw [toNat_protocolReward_four, hsent]
    rfl

theorem inputTotal_exact_iff (amounts : List UInt32) :
    (inputTotal amounts).toNat = (amounts.map UInt32.toNat).sum
      ↔ (amounts.map UInt32.toNat).sum < 2 ^ 32 := by
  unfold inputTotal
  rw [toNat_foldl_add_mod]
  show (0 + _) % _ = _ ↔ _
  rw [Nat.zero_add]
  exact ⟨fun h => h ▸ Nat.mod_lt _ (by decide), Nat.mod_eq_of_lt⟩

/-- Where no input names the output behind those of a gateway transaction, the amounts of
the inputs fit. -/
theorem inputs_fit (hreach : NodeReach E s) {inside : Option BlockId} {tx : Tx D}
    (hcheck : checkTx E.crypto s tx inside = .none) {me : Option (BlockId × Nat × Nat)}
    {amounts : List UInt32} (hpass : InputAmounts E s b me tx amounts)
    (hnames : ∀ inp ∈ txInputs tx, ∀ intx, KnownBefore s b intx →
      hashTx E.crypto intx = inp.input → ¬ PastPayments intx inp.output) :
    (amounts.map UInt32.toNat).sum < 2 ^ 32 := by
  obtain ⟨addr, haddr, hall⟩ := hpass
  have hl := (ledgerOk_of_nodeReach hreach).toLedger
  have hmax : protocolMaxSatoshi.toNat = 2 ^ 29 := rfl
  -- every amount is that of an output there is
  have hlimit : txType tx ≠ .claim → ∀ a ∈ amounts, a.toNat ≤ protocolMaxSatoshi.toNat := by
    intro htype
    rw [decide_eq_false htype] at hall
    refine (forall₂_of_mem (S := fun _ _ => True) hall fun inp hinp amount hone => ⟨trivial, ?_⟩).2
    obtain ⟨intx, hfrom, hout⟩ := checkOneInput_ok hone
    obtain ⟨hknown, hhash⟩ := hl.knownBefore hfrom
    rw [findOutput_eq_outputsOf (hnames inp hinp intx hknown hhash)] at hout
    exact UInt32.le_iff_toNat_le.mp
      (outputsOf_le (txOk_of_knownBefore hl hknown) (List.mem_of_getElem? hout))
  have hfew : SpendsInputs tx → (amounts.map UInt32.toNat).sum < 2 ^ 32 := by
    intro htype
    obtain ⟨-, -, -, hnum⟩ := toNat_txAmountSent htype hcheck
    have hbound := sum_le_of_forall_le (hlimit (by rcases htype with h | h <;> rw [h] <;> decide))
    have hlength : amounts.length ≤ 4 := hall.length_eq ▸ hnum
    rw [hmax] at hbound
    have hfour : amounts.length * 2 ^ 29 ≤ 4 * 2 ^ 29 := Nat.mul_le_mul_right _ hlength
    omega
  cases tx with
  | normal t => exact hfew (Or.inl rfl)
  | toGateway t => exact hfew (Or.inr rfl)
  | fromGateway t => exact absurd haddr (by simp [getTxInputAddress])
  | claim t =>
    -- the input of a claim never passes
    cases hall with
    | cons hone _ => rcases checkOneInput_claim hone with h | h <;> cases h

/-- **Exact amounts.** For a transaction that passes `check_tx`, the amount sent, the fee, the
total of the inputs and the reward are the natural numbers they stand for exactly if the
outputs of a gateway transaction, three times over where it pays a fee, and the amounts read
for the inputs add up to less than `2 ^ 32`. The inputs always do where none of them names
the output behind those of a gateway transaction. -/
theorem exact_amounts_iff (hreach : NodeReach E s) {inside : Option BlockId} {tx : Tx D}
    (hcheck : checkTx E.crypto s tx inside = .none) :
    (ExactAmounts E s tx ↔ AmountsFit E s tx) ∧
    ∀ (b : Nat) (me : Option (BlockId × Nat × Nat)) (amounts : List UInt32),
      InputAmounts E s b me tx amounts →
      (∀ inp ∈ txInputs tx, ∀ intx, KnownBefore s b intx →
        hashTx E.crypto intx = inp.input → ¬ PastPayments intx inp.output) →
      (amounts.map UInt32.toNat).sum < 2 ^ 32 := by
  refine ⟨⟨fun h => ⟨?_, fun b me bad amounts hin hpass => ?_⟩, fun h => ?_⟩,
    fun b me amounts hpass hnames => inputs_fit hreach hcheck hpass hnames⟩
  · rintro t rfl
    exact ⟨(txAmountSent_exact_iff _).mp h.sent, (correctFee_exact_iff h.sent).mp h.fee⟩
  · exact (inputTotal_exact_iff amounts).mp (h.total b me bad amounts hin hpass)
  · obtain ⟨hlt, hfee⟩ := sentAmount_lt hcheck h.outputs
    have hsent := (txAmountSent_exact_iff tx).mpr hlt
    exact ⟨hsent, (correctFee_exact_iff hsent).mpr hfee,
      fun b me bad amounts hin hpass =>
        (inputTotal_exact_iff amounts).mpr (h.inputs b me bad amounts hin hpass),
      fun b _ => rewardAmount_exact hreach hsent b⟩

/-- A node with the payment in a block: what spends it with a fee passes its checks there. -/
theorem exists_feePaid : ∃ s : State IdealDigest, NodeReach idealEnv s ∧ 1 < s.numBlocks ∧
    totalTxs (s.blk 1) = 1 ∧ rewardAmount (s.blk 1) sampleFee = 2 ∧
    checkTx idealCrypto s sampleFee none = .none ∧
    checkTxInputs idealEnv s 1 none sampleFee = .ok (.ok, 0) ∧
    checkOneInput idealEnv s 1 none samplePaid (idealCrypto.pubkeyToAddr (sampleKey 1)) false
      = .ok (.ok, 100) := by
  have hrun : (nodeRun idealEnv sampleNode sampleFirstEvents).toOption.any fun s =>
      decide (1 < s.numBlocks) && decide (totalTxs (s.blk 1) = 1) &&
        decide (rewardAmount (s.blk 1) sampleFee = 2) &&
        decide (checkTx idealCrypto s sampleFee none = .none) &&
        decide (checkTxInputs idealEnv s 1 none sampleFee = .ok (.ok, 0)) &&
        decide (checkOneInput idealEnv s 1 none samplePaid
          (idealCrypto.pubkeyToAddr (sampleKey 1)) false = .ok (.ok, 100)) := by
    decide +kernel
  obtain ⟨s, hs, hfacts⟩ := (Option.any_eq_true _ _).mp hrun
  simp only [Bool.and_eq_true, decide_eq_true_eq, and_assoc] at hfacts
  exact ⟨s, nodeReach_sampleNode.run (eq_ok_of_toOption hs), hfacts⟩

/-- That transaction is exact, with its input of 100 and its reward. -/
theorem exact_amounts_iff_fee : ∃ s : State IdealDigest, NodeReach idealEnv s ∧
    checkTxInputs idealEnv s 1 none sampleFee = .ok (.ok, 0) ∧
    InputAmounts idealEnv s 1 none sampleFee [100] ∧
    rewardAmount (s.blk 1) sampleFee = 2 ∧ rewardValue (s.blk 1) sampleFee = 2 ∧
    ExactAmounts idealEnv s sampleFee := by
  obtain ⟨s, hreach, hblock, -, hreward, hcheck, hinputs, hpaid⟩ := exists_feePaid
  have hexact := exact_amounts_iff hreach hcheck
  have hamounts : ExactAmounts idealEnv s sampleFee := by
    refine hexact.1.mpr ⟨fun t ht => absurd ht (by simp [sampleFee]),
      fun b me bad amounts _ hin => hexact.2 b me amounts hin fun inp hinp intx _ hhash => ?_⟩
    -- the input names the payment, and the first output of it
    obtain rfl := List.mem_singleton.mp hinp
    obtain rfl := hashTx_injective idealCrypto_injective hhash
    rintro ⟨t, ht, hpast⟩
    obtain rfl := Tx.fromGateway.inj ht
    exact absurd hpast (by decide)
  refine ⟨s, hreach, hinputs, ⟨_, rfl, .cons hpaid .nil⟩, hreward, ?_, hamounts⟩
  rw [← hamounts.reward 1 hblock, hreward]
  rfl

/-- A gateway pays the largest amount eight times. -/
def largePayment : Tx IdealDigest :=
  .fromGateway
    { version := 1, paysFee := false, features := 0, gatewayKey := sampleKey 9, unused := 0
      signature := ⟨Bytes.zero 32, Bytes.zero 32⟩
      outputs := List.replicate 8 ⟨protocolMaxSatoshi, idealCrypto.pubkeyToAddr (sampleKey 1)⟩
      numOutputs_lt := by decide }

/-- It passes `check_tx`, and sends nothing at all. -/
theorem amounts_not_exact : NodeReach idealEnv sampleNode ∧
    checkTx idealCrypto sampleNode largePayment none = .none ∧ txAmountSent largePayment = 0 ∧
      sentAmount largePayment = 2 ^ 32 ∧ ¬ ExactAmounts idealEnv sampleNode largePayment := by
  have hzero : txAmountSent largePayment = 0 := by decide
  have hsum : sentAmount largePayment = 2 ^ 32 := by decide
  refine ⟨nodeReach_sampleNode, by decide, hzero, hsum, fun h => ?_⟩
  have hsent := h.sent
  rw [hzero, hsum] at hsent
  exact absurd hsent (by decide)

-- ---------------------------------------------------------------------------
-- The reward and the fees
-- ---------------------------------------------------------------------------

/-- Even for the number of transactions, `PROTOCOL_REWARD` gives the fee of an amount only
where the rounding makes up for it: it takes the amount with the fee in it. -/
theorem protocolReward_one_iff {x : UInt32} (hmax : x.toNat ≤ 2 * protocolMaxSatoshi.toNat) :
    protocolReward x 1 = protocolFee x ↔
      1 ≤ x.toNat ∧ 3 * (3 * x.toNat / 1024) + 3 ≤ 3 * x.toNat % 1024 := by
  have hbound : protocolMaxSatoshi.toNat = 2 ^ 29 := rfl
  have hx := x.toNat_lt
  have hreward : (protocolReward x 1).toNat = (x.toNat * 3 + 1024) / 1027 := by
    unfold protocolReward
    rw [UInt64.toNat_toUInt32, UInt64.toNat_div, UInt64.toNat_add, UInt64.toNat_mul,
      UInt64.toNat_mul, UInt32.toNat_toUInt64, UInt32.toNat_toUInt64]
    simp only [UInt32.reduceToNat, UInt64.reduceToNat]
    rw [Nat.mul_one, Nat.mod_eq_of_lt (show x.toNat < 2 ^ 64 by omega),
      Nat.mod_eq_of_lt (show x.toNat * 3 < 2 ^ 64 by omega),
      Nat.mod_eq_of_lt (show x.toNat * 3 + 1024 < 2 ^ 64 by omega)]
    exact Nat.mod_eq_of_lt (by omega)
  rw [← UInt32.toNat_inj, hreward, toNat_protocolFee hmax, Nat.mul_comm x.toNat 3]
  generalize x.toNat = amount
  have hdiv := Nat.div_add_mod (3 * amount) 1024
  have hrest := Nat.mod_lt (3 * amount) (show 1024 > 0 by decide)
  generalize 3 * amount / 1024 = q at hdiv ⊢
  generalize 3 * amount % 1024 = r at hdiv hrest ⊢
  omega

/-- The reward is within the number of transactions of as many times the fee. -/
def NearFees (blk : Block D) (tx : Tx D) : Prop :=
  totalTxs blk * (protocolFee (txAmountSent tx)).toNat ≤ (rewardAmount blk tx).toNat + totalTxs blk ∧
    (rewardAmount blk tx).toNat ≤ totalTxs blk * (protocolFee (txAmountSent tx)).toNat + totalTxs blk

/-- The reward stands for the fees of the block. -/
def RewardIsFees (blk : Block D) (tx : Tx D) : Prop :=
  (totalTxs blk = 1 → rewardAmount blk tx = protocolFee (txAmountSent tx)) ∧ NearFees blk tx

/-- **Rewards and fees.** In a block with one transaction the reward is the fee exactly for
amounts from 1 to 85, and in a block of `n` it is within `n` of the fees exactly where four
times the amount, as the shards are four, is as near to `n` times it as the rounding allows;
for amounts from `2 ^ 18` on it never is. -/
theorem reward_is_fee_iff (hreach : NodeReach E s) (b : Nat) {tx : Tx D}
    (hpays : txPaysFee tx = true)
    (hmax : (txAmountSent tx).toNat ≤ 2 * protocolMaxSatoshi.toNat) :
    (RewardIsFees (s.blk b) tx ↔
      if totalTxs (s.blk b) = 1 then
        1 ≤ (txAmountSent tx).toNat ∧ (txAmountSent tx).toNat ≤ 85
      else
        1027 * (totalTxs (s.blk b) * (3 * (txAmountSent tx).toNat / 1024))
            ≤ 12 * (txAmountSent tx).toNat + 1024 ∧
          12 * (txAmountSent tx).toNat + 1024
            < 1027 * (totalTxs (s.blk b) * (3 * (txAmountSent tx).toNat / 1024 + 2) + 1)) ∧
    (0 < totalTxs (s.blk b) → 2 ^ 18 ≤ (txAmountSent tx).toNat → ¬ RewardIsFees (s.blk b) tx) := by
  have hreward : (rewardAmount (s.blk b) tx).toNat
      = (12 * (txAmountSent tx).toNat + 1024) / 1027 := by
    have hfour : numTxs (s.blk b) = 4 := by
      unfold numTxs Block.numShards
      rw [(ledgerOk_of_nodeReach hreach).shardOrder b]
      rfl
    unfold rewardAmount
    rw [hpays, hfour]
    show (protocolReward (txAmountSent tx) 4).toNat = _
    rw [toNat_protocolReward_four]
    omega
  have hfee := toNat_protocolFee hmax
  unfold RewardIsFees NearFees
  rw [← UInt32.toNat_inj, hreward, hfee]
  generalize (txAmountSent tx).toNat = x
  generalize totalTxs (s.blk b) = n
  rw [Nat.mul_comm x 3, Nat.mul_add n (3 * x / 1024) 1, Nat.mul_add n (3 * x / 1024) 2, Nat.mul_one]
  constructor
  · by_cases hone : n = 1
    · subst hone
      rw [if_pos rfl]
      clear hfee hreward hmax
      rcases Nat.lt_or_ge x 342 with hsmall | hlarge
      · rw [Nat.div_eq_of_lt (show 3 * x < 1024 by omega)]
        omega
      · -- four times the fee is too much from here on
        omega
    · rw [if_neg hone]
      generalize n * (3 * x / 1024) = fees
      omega
  · rintro hpos hlarge ⟨-, hlow, hhigh⟩
    -- four shards for more than four transactions, or for fewer
    rcases Nat.lt_or_ge n 4 with hfew | hmany
    · have hfees : n * (3 * x / 1024) ≤ 3 * (3 * x / 1024) := Nat.mul_le_mul_right _ (by omega)
      omega
    · have hfees : 4 * (3 * x / 1024) ≤ n * (3 * x / 1024) := Nat.mul_le_mul_right _ hmany
      omega

/-- A block with the payment. -/
def feeFirst : BlockParts IdealDigest := lightBlock .zero 1 4 [(samplePayment, [])]

/-- A block that spends it, and pays a fee of 1 on 99. -/
def feeSecond : BlockParts IdealDigest :=
  lightBlock (hashBlock idealCrypto feeFirst) 2 8 [(sampleFee, [⟨1, 0, 0, 0⟩])]

/-- Both blocks come in, with what they hold. -/
def feeEvents : List (NodeEvent IdealDigest) :=
  [sampleHeader feeFirst, samplePacket feeFirst [(samplePayment, [])] 0 (samplePayment, []),
    sampleHeader feeSecond,
    samplePacket feeSecond [(sampleFee, [⟨1, 0, 0, 0⟩])] 0 (sampleFee, [⟨1, 0, 0, 0⟩])]

/-- The reward for its only transaction is twice the fee it has paid. -/
theorem reward_not_fee : ∃ s : State IdealDigest, NodeReach idealEnv s ∧
    totalTxs (s.blk 2) = 1 ∧ txFor (s.shardOf 2 0) 0 = some sampleFee ∧
    (s.blk 2).complaint = none ∧ txPaysFee sampleFee = true ∧
    protocolFee (txAmountSent sampleFee) = 1 ∧ rewardAmount (s.blk 2) sampleFee = 2 ∧
    ¬ RewardIsFees (s.blk 2) sampleFee := by
  have hrun : (nodeRun idealEnv sampleNode feeEvents).toOption.any fun s =>
      decide (totalTxs (s.blk 2) = 1) && decide (txFor (s.shardOf 2 0) 0 = some sampleFee)
        && (s.blk 2).complaint.isNone && decide (rewardAmount (s.blk 2) sampleFee = 2) := by
    decide +kernel
  obtain ⟨s, hs, hchecks⟩ := (Option.any_eq_true _ _).mp hrun
  simp only [Bool.and_eq_true, decide_eq_true_eq, Option.isNone_iff_eq_none] at hchecks
  obtain ⟨⟨⟨hone, htx⟩, hclean⟩, hreward⟩ := hchecks
  have hfee : protocolFee (txAmountSent sampleFee) = 1 := by decide
  refine ⟨s, nodeReach_sampleNode.run (eq_ok_of_toOption hs), hone, htx, hclean, rfl, hfee, hreward,
    fun h => ?_⟩
  have heq := h.1 hone
  rw [hreward, hfee] at heq
  exact absurd heq (by decide)

theorem length_samplePaid : [samplePaid].length < 2 ^ 32 := Nat.le_of_ble_eq_true rfl

/-- For an amount of 60 the reward is right. -/
def smallFee : Tx IdealDigest :=
  .normal
    { version := 1, paysFee := true, features := 0, inputKey := sampleKey 1
      outputAddr := idealCrypto.pubkeyToAddr (sampleKey 2), sendAmount := 60, changeAmount := 0
      signature := ⟨Bytes.zero 32, Bytes.zero 32⟩, inputs := [samplePaid]
      numInputs_lt := length_samplePaid }

theorem reward_is_fee_iff_small : ∃ s : State IdealDigest, NodeReach idealEnv s ∧
    RewardIsFees (s.blk 1) smallFee := by
  obtain ⟨s, hreach, -, hone, -⟩ := exists_feePaid
  refine ⟨s, hreach, (reward_is_fee_iff hreach 1
    (show txPaysFee smallFee = true from rfl) (by decide)).1.mpr ?_⟩
  rw [if_pos hone]
  decide

end Pettycoin
