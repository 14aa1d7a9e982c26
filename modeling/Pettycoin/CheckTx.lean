import Pettycoin.Hashes

/-!
# Pettycoin — checking a transaction

`check_tx.c` and `reward.c`: the checks of a transaction by itself
(`check_tx`), and of its inputs against the transactions known before a block
(`check_tx_inputs`).

* `checkTx` — by itself;
* `checkTxInputs` — with what its inputs name;
* `rewardGetTx`, `checkClaimInput` — a claim and what it claims.
-/

namespace Pettycoin

open ExceptRules

variable {D : Type} [Digest D] [DecidableEq D]

-- ---------------------------------------------------------------------------
-- By itself
-- ---------------------------------------------------------------------------

/-- `next_shard_order()`. -/
def nextShardOrder (_prev : BlockId) : UInt8 := protocolInitialShardOrder

/-- `accept_gateway()`: on the test network any gateway will do. -/
def acceptGateway (_addr : Address) : Bool := true

/-- `check_tx_with_inputs_wellformed()`. -/
def checkTxWithInputsWellformed (C : Crypto D) (version : UInt8)
    (sendAmount changeAmount : UInt32) (numInputs : Nat) (tx : Tx D) (inputKey : Pubkey) :
    Ecode :=
  if !versionOk version then .txHighVersion
  else if sendAmount > protocolMaxSatoshi then .txTooLarge
  else if changeAmount > protocolMaxSatoshi then .txTooLarge
  else if sendAmount + changeAmount = 0 then .txTooSmall
  else if numInputs > protocolTxMaxInputs then .txTooManyInputs
  else if numInputs = 0 then .txTooManyInputs
  else if !checkTxSign C tx inputKey then .txBadSig
  else .none

/-- `check_tx_normal_basic()`. -/
def checkTxNormalBasic (C : Crypto D) (t : TxNormal D) : Ecode :=
  checkTxWithInputsWellformed C t.version t.sendAmount t.changeAmount t.inputs.length
    (.normal t) t.inputKey

/-- `check_tx_to_gateway_basic()`. -/
def checkTxToGatewayBasic (C : Crypto D) (t : TxToGateway D) : Ecode :=
  let e := checkTxWithInputsWellformed C t.version t.sendAmount t.changeAmount t.inputs.length
    (.toGateway t) t.inputKey
  if e = .none ∧ !acceptGateway t.toGatewayAddr then .txBadGateway else e

/-- `check_tx_claim()`. -/
def checkTxClaim (C : Crypto D) (t : TxClaim D) : Ecode :=
  if !versionOk t.version then .txHighVersion
  else if t.amount > protocolMaxSatoshi then .txTooLarge
  else if !checkTxSign C (.claim t) t.inputKey then .txBadSig
  else .none

/-- The loop of `check_tx_from_gateway`: the payments go to `theShard`. -/
def checkPayments (shardOrd : UInt8) (theShard : Nat) : List GatewayPayment → Ecode
  | [] => .none
  | out :: rest =>
    if shardOf out.outputAddr shardOrd ≠ theShard then .txCrossShards
    else if out.sendAmount > protocolMaxSatoshi then .txTooLarge
    else if out.sendAmount = 0 then .txTooSmall
    else checkPayments shardOrd theShard rest

/-- `check_tx_from_gateway()`. -/
def checkTxFromGateway (C : Crypto D) (shardOrd : UInt8) (t : TxFromGateway) : Ecode :=
  if !versionOk t.version then .txHighVersion
  else if !acceptGateway (C.pubkeyToAddr t.gatewayKey) then .txBadGateway
  else
    let theShard := (t.outputs.head?.map fun out => shardOf out.outputAddr shardOrd).getD 0
    match checkPayments shardOrd theShard t.outputs with
    | .none => if !checkTxSign C (.fromGateway t) t.gatewayKey then .txBadSig else .none
    | e => e

/-- `check_tx()`, for a transaction in a block or (`none`) not in one. -/
def checkTx (C : Crypto D) (s : State D) (tx : Tx D) (insideBlock : Option BlockId) : Ecode :=
  match tx with
  | .fromGateway t =>
    checkTxFromGateway C
      (match insideBlock with
        | none => nextShardOrder (s.longestKnowns.headD 0)
        | some b => (s.blk b).hdr.shardOrder)
      t
  | .normal t => checkTxNormalBasic C t
  | .toGateway t => checkTxToGatewayBasic C t
  | .claim t => checkTxClaim C t

-- ---------------------------------------------------------------------------
-- Rewards
-- ---------------------------------------------------------------------------

/-- `get_shard_and_off()`: the loop over the shards from `i` on. -/
def getShardAndOff (b : Block D) : Nat → Nat → Nat → Res (Nat × Nat)
  | 0, _, _ => .error .rewardIndex
  | fuel + 1, i, n =>
    if n < b.shardSize i then .ok (i, n) else getShardAndOff b fuel (i + 1) (n - b.shardSize i)

/-- `BN_bin2bn()` of a digest. -/
def digestNum (sha : D) : Nat :=
  (List.range 32).foldl (fun n i => n * 256 + (Digest.sha sha i).toNat) 0

/-- `num_txs()`: it returns the loop counter, not the total. -/
def numTxs (b : Block D) : Nat := b.numShards

/-- `reward_get_tx()`: the transaction that decides the reward for
`rewardBlock`. The count that `block_ancestor` is given is the depth less the
end of the period, in 32 bits. -/
def rewardGetTx (C : Crypto D) (s : State D) (rewardBlock claimBlock : BlockId) :
    Res (Option (Nat × Nat)) :=
  let rb := s.blk rewardBlock
  if blockEmpty s rewardBlock then .ok none
  else if !blockPreceeds s rewardBlock claimBlock then .ok none
  else
    let rewardEnd := (rb.hdr.depth + protocolRewardPeriod - 1) / protocolRewardPeriod
      * protocolRewardPeriod
    if (s.blk claimBlock).hdr.depth ≤ rewardEnd then .ok none
    else
      match blockAncestor s claimBlock (rb.hdr.depth - rewardEnd).toNat with
      | none => .error .nullPointer
      | some decider => do
        let sha := merkleTwoHashes C rb.sha (s.blk decider).sha
        let pos ← getShardAndOff rb rb.numShards 0 (digestNum sha % numTxs rb)
        .ok (some pos)

/-- `reward_amount()`. -/
def rewardAmount (b : Block D) (tx : Tx D) : UInt32 :=
  if !txPaysFee tx then 0 else protocolReward (txAmountSent tx) (UInt32.ofNat (numTxs b))

/-- `check_claim_input()`: the amount when the claim is accepted. The last
`return` is of `ECODE_INPUT_OK`, which is 0 and so `false`: none ever is. -/
def checkClaimInput (C : Crypto D) (s : State D) (claimBlock : BlockId) (claimInp : Input D)
    (rewardBlock : BlockId) (rewardShard rewardTxoff : Nat) (rewardTx : Tx D)
    (myAddr : Address) : Res (Option UInt32) := do
  if claimInp.output.toNat ≠ numOutputs rewardTx + 1 then .ok none
  else
    match ← rewardGetTx C s rewardBlock claimBlock with
    | none => .ok none
    | some (shardnum, txoff) =>
      if rewardShard ≠ shardnum ∨ rewardTxoff ≠ txoff then .ok none
      else if myAddr ≠ (s.blk rewardBlock).hdr.feesTo then .ok none
      else
        let _amount := rewardAmount (s.blk rewardBlock) rewardTx
        .ok none

-- ---------------------------------------------------------------------------
-- Inputs
-- ---------------------------------------------------------------------------

/-- `tx_find_doublespend()`: another known transaction at or before `block`, or
at or after it, that spends this input. `me` is left out. -/
def txFindDoublespend (s : State D) (block : BlockId) (me : Option (BlockId × Nat × Nat))
    (inp : Input D) : Option (BlockId × Nat × Nat) :=
  (inputhashVals s inp.input inp.output).findSome? fun ie =>
    (txhashVals s ie.usedBy).findSome? fun te =>
      match te.loc with
      | .pending _ => none
      | .inBlock b shard txoff =>
        if me = some (b, shard, txoff) then none
        else if !shardIsTx (s.shardOf b shard) txoff then none
        else if blockPreceeds s b block || blockPreceeds s block b then some (b, shard, txoff)
        else none

/-- `check_simple_input()`: the amount, when the output exists and is to
`myAddr`. It fails with `ECODE_INPUT_BAD` only. -/
def checkSimpleInput (E : Env D) (inp : Input D) (intx : Tx D) (myAddr : Address) :
    Option UInt32 :=
  match findOutput E.crypto E.past intx inp.output with
  | none => none
  | some (addr, amount) => if myAddr = addr then some amount else none

/-- `check_one_input()`: the amount comes with `ECODE_INPUT_OK`. -/
def checkOneInput (E : Env D) (s : State D) (block : BlockId)
    (me : Option (BlockId × Nat × Nat)) (inp : Input D) (myAddr : Address) (isClaim : Bool) :
    Res (InputEcode × UInt32) := do
  match txhashGettxAncestor s inp.input block with
  | none => .ok (.unknown, 0)
  | some (b, shard, txoff) =>
    match blockGetTx s b shard txoff with
    | none => .ok (.unknown, 0)
    | some intx =>
      let amount ←
        if isClaim then checkClaimInput E.crypto s block inp b shard txoff intx myAddr
        else .ok (checkSimpleInput E inp intx myAddr)
      match amount with
      | none => .ok (if isClaim then .claimBad else .bad, 0)
      | some amount =>
        if (txFindDoublespend s block me inp).isSome then .ok (.doublespend, 0)
        else .ok (.ok, amount)

/-- `correct_amount()`. -/
def correctAmount (tx : Tx D) (total : UInt32) : Bool :=
  let fee := if txPaysFee tx then protocolFee (txAmountSent tx) else 0
  total == txAmountSent tx + fee

/-- The loop of `check_tx_inputs`, from input `i` on. Of the inputs so far
`known` are, and they add up to `total`. -/
def checkTxInputsFrom (E : Env D) (s : State D) (block : BlockId)
    (me : Option (BlockId × Nat × Nat)) (tx : Tx D) (myAddr : Address) :
    List (Input D) → (i known : Nat) → (total : UInt32) → (badInputNum : Nat) →
    Res (InputEcode × Nat)
  | [], i, known, total, badInputNum =>
    if known ≠ i then .ok (.unknown, badInputNum)
    else if !correctAmount tx total then
      .ok (if txType tx = .claim then .claimBad else .badAmount, badInputNum)
    else .ok (.ok, badInputNum)
  | inp :: rest, i, known, total, badInputNum => do
    let (e, amount) ← checkOneInput E s block me inp myAddr (txType tx = .claim)
    match e with
    | .unknown => checkTxInputsFrom E s block me tx myAddr rest (i + 1) known total i
    | .ok =>
      checkTxInputsFrom E s block me tx myAddr rest (i + 1) (known + 1) (total + amount)
        badInputNum
    -- whatever is wrong with it, the input is reported as bad
    | _ => .ok (.bad, i)

/-- `check_tx_inputs()`, with the number of the bad or unknown input. -/
def checkTxInputs (E : Env D) (s : State D) (block : BlockId)
    (me : Option (BlockId × Nat × Nat)) (tx : Tx D) : Res (InputEcode × Nat) :=
  match getTxInputAddress E.crypto tx with
  | none => .ok (.ok, 0)
  | some myAddr => checkTxInputsFrom E s block me tx myAddr (txInputs tx) 0 0 0 0

end Pettycoin
