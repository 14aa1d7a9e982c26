import Pettycoin.Reward
import Pettycoin.RecvComplain
import Pettycoin.Ledger
import Pettycoin.NodeRun

/-!
# Pettycoin — claiming a reward

`check_claim_input` ends with `ECODE_INPUT_OK`, which is `false`, so it accepts
nothing, and `check_tx_inputs` turns its `ECODE_INPUT_CLAIM_BAD` into
`ECODE_INPUT_BAD`. So a right claim is never accepted and a wrong one never called a
bad claim (`reward_claims_never`).

* `checkClaimInput_eq_ok` — `check_claim_input` returns no amount;
* `checkTxInputs_claim` — what `check_tx_inputs` makes of a claim;
* `claim_for_reward_rejected` — a right claim that has a bad input;
* `reward_claims_never` — no claim at all comes through.
-/

namespace Pettycoin

open ExceptRules Forest

variable {D : Type} [Digest D] [DecidableEq D]

-- ---------------------------------------------------------------------------
-- Making a claim
-- ---------------------------------------------------------------------------

/-- An `EC_KEY`: the public key that `i2o_ECPublicKey` writes, `none` when it is not
compressed, and the signature that `sign_tx` makes of a digest. -/
structure EcKey (D : Type) where
  publicKey : Option Pubkey
  sign : D → Option Signature

/-- `create_claim_tx()`: the input names output 0. -/
def createClaimTx (C : Crypto D) (rewardTx : D) (amount : UInt32) (payFee : Bool)
    (key : EcKey D) : Option (Tx D) :=
  match key.publicKey with
  | none => none
  | some inputKey =>
    let claim : TxClaim D :=
      { version := currentVersion, paysFee := payFee, features := 0, inputKey := inputKey
        amount := amount, input := ⟨rewardTx, 0, 0⟩
        signature := ⟨Bytes.zero 32, Bytes.zero 32⟩ }
    (key.sign (sighashTx C (.claim claim))).map fun signature =>
      .claim { claim with signature := signature }

omit [DecidableEq D] in
/-- What it makes is a claim for that transaction. -/
theorem createClaimTx_eq_some {C : Crypto D} {rewardTx : D} {amount : UInt32} {payFee : Bool}
    {key : EcKey D} {tx : Tx D} (h : createClaimTx C rewardTx amount payFee key = some tx) :
    ∃ t, tx = .claim t ∧ t.input = ⟨rewardTx, 0, 0⟩ ∧ t.amount = amount ∧
      key.publicKey = some t.inputKey := by
  unfold createClaimTx at h
  split at h
  · exact absurd h (by simp)
  · rename_i inputKey hkey
    obtain ⟨signature, -, rfl⟩ := Option.map_eq_some_iff.mp h
    exact ⟨_, rfl, rfl, rfl, hkey⟩

-- ---------------------------------------------------------------------------
-- Checking a claim
-- ---------------------------------------------------------------------------

variable {E : Env D} {s : State D} {me : Option (BlockId × Nat × Nat)}

omit [DecidableEq D] in
/-- No claim is accepted. -/
theorem checkClaimInput_eq_ok {C : Crypto D} {claimBlock rewardBlock : BlockId} {inp : Input D}
    {shard txoff : Nat} {rewardTx : Tx D} {addr : Address} {amount : Option UInt32}
    (h : checkClaimInput C s claimBlock inp rewardBlock shard txoff rewardTx addr = .ok amount) :
    amount = none := by
  unfold checkClaimInput at h
  split at h
  · exact (Except.ok.inj h).symm
  · obtain ⟨found, -, h⟩ := of_bind_eq_ok h
    cases found with
    | none => exact (Except.ok.inj h).symm
    | some pos =>
      dsimp only at h
      split_ifs at h <;> exact (Except.ok.inj h).symm

theorem checkOneInput_claim {block : BlockId} {inp : Input D} {addr : Address}
    {r : InputEcode × UInt32} (h : checkOneInput E s block me inp addr true = .ok r) :
    r.1 = .unknown ∨ r.1 = .claimBad := by
  unfold checkOneInput at h
  split at h
  · exact Or.inl (by rw [← Except.ok.inj h])
  · split at h
    · exact Or.inl (by rw [← Except.ok.inj h])
    · obtain ⟨amount, hamount, h⟩ := of_bind_eq_ok h
      rw [checkClaimInput_eq_ok hamount] at h
      exact Or.inr (by rw [← Except.ok.inj h]; rfl)

/-- Of a claim the inputs are not known, or it has a bad input. -/
theorem checkTxInputs_claim {block : BlockId} {t : TxClaim D} {r : InputEcode × Nat}
    (h : checkTxInputs E s block me (.claim t) = .ok r) : r.1 = .unknown ∨ r.1 = .bad := by
  change checkTxInputsFrom E s block me (.claim t) _ [t.input] 0 0 0 0 = .ok r at h
  unfold checkTxInputsFrom at h
  obtain ⟨⟨e, amount⟩, hone, h⟩ := of_bind_eq_ok h
  rcases checkOneInput_claim hone with he | he
  · obtain rfl : e = .unknown := he
    dsimp only at h
    unfold checkTxInputsFrom at h
    rw [if_pos (by decide)] at h
    exact Or.inl (by rw [← Except.ok.inj h])
  · obtain rfl : e = .claimBad := he
    exact Or.inr (by rw [← Except.ok.inj h])

omit [DecidableEq D] in
theorem claimIsValid_eq_ok {C : Crypto D} {claim reward : ProvenTx D}
    {claimB rewardB : BlockId} {inp : Input D} {addr : Address} {valid : Bool}
    (h : claimIsValid C s claim reward claimB rewardB inp addr = .ok valid) : valid = false := by
  unfold claimIsValid at h
  obtain ⟨amount, hamount, h⟩ := of_bind_eq_ok h
  rw [checkClaimInput_eq_ok hamount] at h
  exact (Except.ok.inj h).symm

/-- A complaint about a claim, with the transaction it names, is always upheld. -/
theorem complainClaimVerdict_eq_ok {C : Crypto D} {claim reward : ProvenTx D}
    {claimB rewardB : Nat} {t : TxClaim D} {v : Verdict D} (hclaim : claim.tx = .claim t)
    (hreward : t.input.input = hashTx C reward.tx)
    (h : complainClaimVerdict C s claim reward (.ok claimB) (.ok rewardB) = .ok v) :
    v = .publish claimB := by
  unfold complainClaimVerdict at h
  rw [hclaim] at h
  dsimp only at h
  rw [if_neg (not_not_intro hreward)] at h
  obtain ⟨valid, hvalid, h⟩ := of_bind_eq_ok h
  obtain rfl := claimIsValid_eq_ok hvalid
  exact (Except.ok.inj h).symm

/-- **No claim comes through.** Whatever `create_claim_tx` makes, at whichever block and
for whichever transaction, `check_tx_inputs` does not accept, and no complaint about it
is refused. And of no claim, however wrong, does `check_tx_inputs` say that it is a bad
claim. -/
theorem reward_claims_never (E : Env D) (s : State D) (claimBlock : BlockId)
    (me : Option (BlockId × Nat × Nat)) :
    (∀ rewardTx amount payFee key tx,
      createClaimTx E.crypto (hashTx E.crypto rewardTx) amount payFee key = some tx →
      (∀ n, checkTxInputs E s claimBlock me tx ≠ .ok (.ok, n)) ∧
      ∀ (claim reward : ProvenTx D) (rewardB : BlockId) (e : Ecode), claim.tx = tx →
        reward.tx = rewardTx →
        complainClaimVerdict E.crypto s claim reward (.ok claimBlock) (.ok rewardB)
          ≠ .ok (.refuse e)) ∧
    ∀ t n, checkTxInputs E s claimBlock me (.claim t) ≠ .ok (.claimBad, n) := by
  refine ⟨fun rewardTx amount payFee key tx hcreate => ⟨fun n hok => ?_, ?_⟩, fun t n hbad => ?_⟩
  · obtain ⟨t, rfl, -⟩ := createClaimTx_eq_some hcreate
    rcases checkTxInputs_claim hok with h | h <;> exact InputEcode.noConfusion h
  · intro claim reward rewardB e hclaim hreward hrefuse
    obtain ⟨t, rfl, hinput, -⟩ := createClaimTx_eq_some hcreate
    have hpub := complainClaimVerdict_eq_ok hclaim (by rw [hinput, hreward]) hrefuse
    exact absurd hpub (by simp)
  · rcases checkTxInputs_claim hbad with h | h <;> exact InputEcode.noConfusion h

-- ---------------------------------------------------------------------------
-- A right claim
-- ---------------------------------------------------------------------------

/-- A gateway pays 2000, with a fee. -/
def claimReward : Tx IdealDigest :=
  .fromGateway
    { version := 1, paysFee := true, features := 0, gatewayKey := sampleKey 9, unused := 0
      signature := ⟨Bytes.zero 32, Bytes.zero 32⟩
      outputs := [⟨2000, idealCrypto.pubkeyToAddr (sampleKey 1)⟩], numOutputs_lt := by decide }

/-- The key that the fees of the blocks go to. -/
def claimKey : EcKey IdealDigest where
  publicKey := some (sampleKey 0)
  sign _ := some ⟨Bytes.zero 32, Bytes.zero 32⟩

/-- The first shard of a block, with that transaction. -/
def rewardShard : BlockShard IdealDigest where
  shardnum := 0
  txcount := 1
  hashcount := 0
  size := 1
  proof := none
  u := Function.update (fun _ => .unknown) 0 (.tx claimReward [])

/-- The transaction of the block at depth 100 becomes known. -/
def knowReward (s : State IdealDigest) : State IdealDigest :=
  { s.modShard 100 0 (fun _ => rewardShard) with
    txhash := [⟨hashTx idealCrypto claimReward, .inBlock 100 0 0⟩] }

theorem blk_knowReward (s : State IdealDigest) (b : Nat) :
    (knowReward s).blk b = { s.blk b with shard := ((knowReward s).blk b).shard } :=
  blk_modShard (fun _ => rewardShard) b

theorem sameBlocks_knowReward (s : State IdealDigest) :
    SameBlocks (s.modShard 100 0 fun _ => rewardShard) (knowReward s) :=
  ⟨rfl, fun _ => rfl⟩

theorem knowReward_rewardChain {s : State IdealDigest} (h : IsRewardChain 101 s) :
    IsRewardChain 101 (knowReward s) where
  numBlocks := h.numBlocks
  inputhash := h.inputhash
  depth b hb := by
    rw [blk_knowReward]
    exact h.depth b hb
  prev b hb := by
    rw [prevOf, blk_knowReward]
    exact h.prev b hb
  shardOrder b hb := by
    rw [blk_knowReward]
    exact h.shardOrder b hb
  shardNums b hb := by
    rw [blk_knowReward]
    exact h.shardNums b hb
  feesTo b hb := by
    rw [blk_knowReward]
    exact h.feesTo b hb

theorem knowReward_treeOk {s : State IdealDigest} (ht : TreeOk s) : TreeOk (knowReward s) :=
  (sameBlocks_knowReward s).treeOk ((refilled_modShard rfl).treeOk ht)

theorem digestNum_idealDigest (sha : IdealDigest) : digestNum sha = 0 := by
  unfold digestNum
  have hall : ∀ l : List Nat,
      l.foldl (fun n i => n * 256 + (Digest.sha sha i).toNat) 0 = 0 := by
    intro l
    induction l with
    | nil => rfl
    | cons i l ih => exact ih
  exact hall _

/-- The first transaction of the block at depth 100 is drawn. -/
theorem rewardGetTx_rewardChain {s : State IdealDigest} (h : IsRewardChain 101 s)
    (ht : TreeOk s) : rewardGetTx idealCrypto s 100 101 = .ok (some (0, 0)) := by
  have htxs : 0 < totalTxs (s.blk 100) := by
    rw [h.totalTxs_eq (b := 99) (by omega)]
    exact Nat.one_pos
  have hpast : rewardEnd (s.blk 100) < (s.blk 101).depth := by
    rw [h.rewardEnd_eq (by omega) (by omega), h.depth_eq (by omega) (Nat.le_refl 101)]
    decide
  have hback : rewardBack (s.blk 100) = 0 := by
    rw [rewardBack, h.depth 100 (by omega)]
    decide
  have hnum : (s.blk 100).numShards = 4 := by
    rw [Block.numShards, h.shardOrder 99 (by omega)]
    rfl
  have hsize : (s.blk 100).shardSize 0 = 1 := by
    rw [Block.shardSize, h.shardNums 99 (by omega)]
    rfl
  rw [rewardGetTx_eq ht htxs (h.anc (by omega) (by omega)) hpast, hback]
  dsimp only [blockAncestor, rewardDraw]
  rw [digestNum_idealDigest, Nat.zero_mod, hnum]
  unfold getShardAndOff
  rw [if_pos (by rw [hsize]; exact Nat.one_pos)]
  rfl

/-- What `create_claim_tx` makes for that transaction. -/
def claimForReward : Tx IdealDigest :=
  .claim
    { version := 1, paysFee := false, features := 0, inputKey := sampleKey 0, amount := 24
      input := ⟨hashTx idealCrypto claimReward, 0, 0⟩
      signature := ⟨Bytes.zero 32, Bytes.zero 32⟩ }

theorem createClaimTx_claimForReward :
    createClaimTx idealCrypto (hashTx idealCrypto claimReward) 24 false claimKey
      = some claimForReward := rfl

/-- The claim is right: the transaction is known and drawn, the block's fees go to the key,
the amount is the reward, and nothing spends it. It has a bad input all the same. -/
theorem claim_for_reward_rejected :
    ∃ s, IsRewardChain 101 s ∧ TreeOk s ∧ rewardEnd (s.blk 100) < (s.blk 101).depth ∧
      rewardGetTx idealCrypto s 100 101 = .ok (some (0, 0)) ∧
      txhashGettxAncestor s (hashTx idealCrypto claimReward) 101 = some (100, 0, 0) ∧
      blockGetTx s 100 0 0 = some claimReward ∧
      getTxInputAddress idealCrypto claimForReward = some (s.blk 100).hdr.feesTo ∧
      correctAmount claimForReward (rewardAmount (s.blk 100) claimReward) = true ∧
      txFindDoublespend s 101 none ⟨hashTx idealCrypto claimReward, 0, 0⟩ = none ∧
      checkTxInputs idealEnv s 101 none claimForReward = .ok (.bad, 0) := by
  obtain ⟨s₀, h₀, hreach⟩ := exists_rewardChain
  have h := knowReward_rewardChain h₀
  have ht := knowReward_treeOk (chainInv_of_chainReach hreach).tree
  have hpast : rewardEnd ((knowReward s₀).blk 100) < ((knowReward s₀).blk 101).depth := by
    rw [h.rewardEnd_eq (by omega) (by omega), h.depth_eq (by omega) (Nat.le_refl 101)]
    decide
  have hfind : txhashGettxAncestor (knowReward s₀) (hashTx idealCrypto claimReward) 101
      = some (100, 0, 0) := by
    have hvals : txhashVals (knowReward s₀) (hashTx idealCrypto claimReward)
        = [⟨hashTx idealCrypto claimReward, .inBlock 100 0 0⟩] :=
      List.filter_eq_self.mpr fun te hte => by
        rw [List.mem_singleton.mp hte]
        exact beq_self_eq_true _
    unfold txhashGettxAncestor
    rw [hvals, List.findSome?_cons]
    dsimp only
    rw [if_pos ((blockPreceeds_iff ht).mpr (h.anc (by omega) (by omega)))]
  have hget : blockGetTx (knowReward s₀) 100 0 0 = some claimReward := by
    have hshard : (s₀.modShard 100 0 fun _ => rewardShard).shardOf 100 0 = rewardShard :=
      shardOf_modShard fun _ => rewardShard
    change (knowReward s₀).shardOf 100 0 = rewardShard at hshard
    rw [blockGetTx, hshard]
    rfl
  have hnum : numTxs ((knowReward s₀).blk 100) = 4 := by
    rw [numTxs, Block.numShards, h.shardOrder 99 (by omega)]
    rfl
  refine ⟨knowReward s₀, h, ht, hpast, rewardGetTx_rewardChain h ht, hfind, hget, ?_, ?_, ?_, ?_⟩
  · rw [h.feesTo 99 (by omega)]
    decide
  · rw [rewardAmount, hnum]
    decide
  · unfold txFindDoublespend inputhashVals
    rw [h.inputhash]
    rfl
  · have hone : ∀ addr, checkOneInput idealEnv (knowReward s₀) 101 none
        ⟨hashTx idealCrypto claimReward, 0, 0⟩ addr true = .ok (.claimBad, 0) := by
      intro addr
      unfold checkOneInput
      rw [hfind]
      dsimp only
      rw [hget]
      rfl
    show checkTxInputsFrom idealEnv (knowReward s₀) 101 none claimForReward _
      [⟨hashTx idealCrypto claimReward, 0, 0⟩] 0 0 0 0 = _
    unfold checkTxInputsFrom
    rw [show decide (txType claimForReward = .claim) = true from rfl, hone]
    rfl

theorem reward_claims_never_claimForReward :
    ∃ s, IsRewardChain 101 s ∧
      (∀ n, checkTxInputs idealEnv s 101 none claimForReward ≠ .ok (.ok, n)) ∧
      ∀ (claim reward : ProvenTx IdealDigest) (rewardB : BlockId) (e : Ecode),
        claim.tx = claimForReward → reward.tx = claimReward →
        complainClaimVerdict idealCrypto s claim reward (.ok 101) (.ok rewardB)
          ≠ .ok (.refuse e) :=
  ⟨rewardChain 101, isRewardChain 101,
    ((reward_claims_never idealEnv (rewardChain 101) 101 none).1 claimReward 24 false claimKey
      claimForReward createClaimTx_claimForReward)⟩

end Pettycoin
