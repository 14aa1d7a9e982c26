import Pettycoin.Complain
import Pettycoin.Header

/-!
# Pettycoin — putting transactions into a block

`check_block.c` and `check_block_shard` in `block_shard.c`.

`recheck_tx` and `check_resolved_txs` go through the hash tables while a
complaint may change them. They start over whenever there was one, so that the
lists they go through are those of the state they started from.

* `checkTxInputsAndRefs` — what is wrong with a transaction in a block, and the
  complaint about it;
* `recheckTx`, `checkResolvedTxs` — the loops that start over;
* `checkBlockShard` — the check of a whole shard;
* `putTxInShard`, `putTxhashInShard` — a slot is filled.
-/

namespace Pettycoin

open ExceptRules

variable {D : Type} [Digest D] [DecidableEq D]

-- ---------------------------------------------------------------------------
-- Order
-- ---------------------------------------------------------------------------

/-- The nearest known transaction among these places. -/
def nearestTx (shard : BlockShard D) (places : List Nat) : Option (Nat × Tx D) :=
  places.findSome? fun i => (txFor shard i).map fun tx => (i, tx)

/-- `check_tx_ordering()`: the place of a transaction that `tx` at `txoff` would
be out of order with. -/
def checkTxOrdering (E : Env D) (shard : BlockShard D) (txoff : Nat) (tx : Tx D) :
    Option Nat :=
  if shard.txcount = 0 then none
  else
    let before := (nearestTx shard (List.range txoff).reverse).filter fun other =>
      txCmp E.crypto E.past other.2 tx != .lt
    let after := (nearestTx shard (List.range' (txoff + 1) (shard.size - (txoff + 1)))).filter
      fun other => txCmp E.crypto E.past tx other.2 != .lt
    (before.or after).map Prod.fst

-- ---------------------------------------------------------------------------
-- Inputs and refs
-- ---------------------------------------------------------------------------

/-- `interested_in_shard()`. -/
def interestedInShard (s : State D) (shardOrder : UInt8) (shard : Nat) : Bool :=
  s.interests (shard >>> (shardOrder - protocolInitialShardOrder).toNat)

/-- The `ECODE_INPUT_DOUBLESPEND` branch of `check_tx_inputs_and_refs`: the later
of the two blocks is bad. `check_tx_inputs` never gets here: it reports a double
spend as `ECODE_INPUT_BAD`. -/
def complainAboutSpend (E : Env D) (s : State D) (b : BlockId) (t : ProvenTx D)
    (badInputNum : Nat) : Res (State D × Bool) := do
  let inp ← deref (txInput t.tx badInputNum)
  let (ob, oshard, otxoff) ← deref (txFindDoublespend s b none inp)
  let other ← provenTxAt E.crypto s ob oshard otxoff
  match findMatchingInput other.tx inp with
  | none => .error .matchingInput
  | some otherInput =>
    let mine : Spend D := ⟨b, badInputNum, t.proof, t.tx, some t.refs⟩
    let theirs : Spend D := ⟨ob, otherInput, other.proof, other.tx, some other.refs⟩
    if blockPreceeds s ob b then
      let s ← complainDoublespend E s theirs mine
      .ok (s, false)
    else
      let s ← complainDoublespend E s mine theirs
      .ok (s, true)

/-- What `check_tx_inputs_and_refs` does about the inputs: `false` if there was a
complaint about block `b`. -/
def complainAboutInputs (E : Env D) (s : State D) (b : BlockId) (t : ProvenTx D)
    (ierr : InputEcode) (badInputNum : Nat) : Res (State D × Bool) := do
  match ierr with
  | .ok => .ok (s, true)
  | .unknown =>
    let inp ← deref (txInput t.tx badInputNum)
    if interestedInShard s (s.blk b).hdr.shardOrder t.proof.pos.shard.toNat then
      .ok (s.emit (.todoAddGetTx inp.input), true)
    else .ok (s, true)
  | .bad =>
    let inp ← deref (txInput t.tx badInputNum)
    let input ← deref (txhashGettx s inp.input .inBlock)
    let s ← complainBadInput E s b t badInputNum input
    .ok (s, false)
  | .badAmount =>
    let inputs ← (txInputs t.tx).mapM fun inp => deref (txhashGettx s inp.input .inBlock)
    let s ← complainBadAmount E s b t inputs
    .ok (s, false)
  | .doublespend => complainAboutSpend E s b t badInputNum
  | .claimBad =>
    let inp ← deref (txInput t.tx 0)
    let (rb, rshard, rtxoff) ← deref (txhashGettxAncestor s inp.input b)
    let s ← complainBadClaim E s b t rb rshard rtxoff
    .ok (s, false)

/-- What `check_tx_inputs_and_refs` does about the refs. -/
def complainAboutRefs (E : Env D) (s : State D) (b : BlockId) (t : ProvenTx D)
    (ierr : InputEcode) : Res (State D × Bool) := do
  let (rerr, bad) ← checkTxRefs E.crypto s b t.tx t.refs
  match rerr, bad with
  | .ok, _ => .ok (s, true)
  | _, none => .error .nullPointer
  | .unknown, some (badRef, referred) =>
    if ierr = .unknown then .ok (s, true)
    else
      let ref ← deref t.refs[badRef]?
      .ok (s.emit (.todoAddGetTxInBlock (s.blk referred).sha ref.shard.toNat ref.txoff.toNat),
        true)
  | .badHash, some (badRef, referred) =>
    let s ← complainBadInputRef E s b t badRef referred
    .ok (s, false)

/-- `check_tx_inputs_and_refs()`: `false` if the block has been found invalid. -/
def checkTxInputsAndRefs (E : Env D) (s : State D) (b : BlockId) (t : ProvenTx D) :
    Res (State D × Bool) := do
  let (ierr, badInputNum) ← checkTxInputs E s b none t.tx
  let (s, valid) ← complainAboutInputs E s b t ierr badInputNum
  if valid then complainAboutRefs E s b t ierr else .ok (s, false)

-- ---------------------------------------------------------------------------
-- An input is learnt
-- ---------------------------------------------------------------------------

/-- The loop of `recheck_tx`. -/
def recheckElems (E : Env D) : List (TxhashElem D) → State D → Res (State D × Bool)
  | [], s => .ok (s, true)
  | te :: rest, s =>
    match te.loc with
    | .pending _ => recheckElems E rest s.setNeedsRecheck
    | .inBlock b shard txoff => do
      assert (s.blk b).complaint.isNone .recheckComplained
      if !shardIsTx (s.shardOf b shard) txoff then recheckElems E rest s
      else
        let t ← provenTxAt E.crypto s b shard txoff
        let (s, valid) ← checkTxInputsAndRefs E s b t
        if valid then recheckElems E rest s else .ok (s, false)

/-- `recheck_tx()`: `false` if it led to a complaint. -/
def recheckTx (E : Env D) (s : State D) (tx : D) : Res (State D × Bool) :=
  recheckElems E (txhashVals s tx) s

/-- Recheck the transactions that spend an output. -/
def recheckSpenders (E : Env D) : List (InputhashElem D) → State D → Res (State D × Bool)
  | [], s => .ok (s, true)
  | ie :: rest, s => do
    let (s, valid) ← recheckTx E s ie.usedBy
    if valid then recheckSpenders E rest s else .ok (s, false)

/-- One output in `check_resolved_txs`: `goto again` after every complaint. Each
takes at least one element out of `txhash`. -/
def checkResolvedOutput (E : Env D) (sha : D) (output : UInt16) :
    Nat → State D → Res (State D)
  | 0, _ => .error .diverges
  | fuel + 1, s => do
    let (s, valid) ← recheckSpenders E (inputhashVals s sha output) s
    if valid then .ok s else checkResolvedOutput E sha output fuel s

/-- `check_resolved_txs()`. -/
def checkResolvedTxs (E : Env D) (s : State D) (tx : Tx D) : Res (State D) :=
  (List.range (numOutputs tx)).foldlM
    (fun s i => checkResolvedOutput E (hashTx E.crypto tx) (UInt16.ofNat i)
      (s.txhash.length + 1) s) s

-- ---------------------------------------------------------------------------
-- The debugging check
-- ---------------------------------------------------------------------------

/-- What `check_block_shard` checks of one transaction. -/
def checkShardTx (E : Env D) (s : State D) (b : BlockId) (shardnum txoff : Nat) (tx : Tx D)
    (refs : List InputRef) (fault : Fault) : Res Unit := do
  assert (checkTx E.crypto s tx (some b) = .none) fault
  let (ierr, _) ← checkTxInputs E s b (some (b, shardnum, txoff)) tx
  assert (ierr = .ok || ierr = .unknown) fault
  match (s.shardOf b shardnum).proof with
  | none => .ok ()
  | some proofs => do
    let proof ← deref (proofs txoff)
    assert (checkProof E.crypto proof (s.blk b) tx refs) fault

/-- What `check_block_shard` checks of the stored proofs: once all hashes are known
there are none, before that a transaction has one. -/
def checkShardProof (shard : BlockShard D) (fault : Fault) : Res Unit :=
  if shardAllHashes shard then assert shard.proof.isNone fault
  else if shard.txcount ≠ 0 then assert shard.proof.isSome fault
  else .ok ()

/-- `check_block_shard()`; `fault` tells where it is called from. -/
def checkBlockShard (E : Env D) (s : State D) (b : BlockId) (shardnum : Nat) (fault : Fault) :
    Res Unit := do
  let shard := s.shardOf b shardnum
  assert (shard.size = (s.blk b).shardSize shardnum) fault
  checkShardProof shard fault
  (List.range shard.size).forM fun i =>
    match shard.u i with
    | .tx tx refs => checkShardTx E s b shardnum i tx refs fault
    | _ => .ok ()
  let txcount := (List.range shard.size).countP fun i => (txFor shard i).isSome
  let hashcount := (List.range shard.size).countP fun i => !shardIsTx shard i
  assert (txcount = shard.txcount) fault
  assert (hashcount = shard.hashcount) fault
  if txcount + hashcount = shard.size then
    let sha ← merkleTxs E.crypto shard
    assert ((s.blk b).merkles[shardnum]? = some sha) fault

-- ---------------------------------------------------------------------------
-- Filling a shard
-- ---------------------------------------------------------------------------

/-- Put a transaction into a slot. -/
def BlockShard.setTx (shard : BlockShard D) (txoff : Nat) (tx : Tx D) (refs : List InputRef) :
    BlockShard D :=
  { shard with u := Function.update shard.u txoff (.tx tx refs), txcount := shard.txcount + 1 }

/-- `save_tx()`. -/
def saveTx (C : Crypto D) (s : State D) (b : BlockId) (shardnum txoff : Nat) :
    Res (State D) := do
  if !s.saving then .ok s
  else
    let _ ← provenTxAt C s b shardnum txoff
    .ok (s.emit (.saveTx b shardnum txoff))

/-- `send_tx_in_block_to_peers()`. -/
def sendTxInBlockToPeers (C : Crypto D) (s : State D) (source : Option Nat) (b : BlockId)
    (shardnum txoff : Nat) : Res (State D) := do
  let _ ← provenTxAt C s b shardnum txoff
  .ok (s.emit (.sendTxInBlockToPeers source b shardnum txoff))

/-- The slot of `put_tx_in_shard` takes the transaction: an empty one is recorded
in the hash tables, one known as a hash must be of this transaction. -/
def fillSlot (E : Env D) (s : State D) (b : BlockId) (shardnum txoff : Nat) (tx : Tx D)
    (refs : List InputRef) : Res (State D) := do
  let s ←
    match (s.shardOf b shardnum).u txoff with
    | .hash h => do
      assert (h = hashTxAndRefs E.crypto tx refs) .putTxHashDiffers
      let s := s.modShard b shardnum fun shard => { shard with hashcount := shard.hashcount - 1 }
      .ok (upgradeTxInHashes E s tx)
    | _ => .ok (addTxToHashes E s b shardnum txoff tx)
  .ok (s.modShard b shardnum fun shard => shard.setTx txoff tx refs)

/-- `put_tx_in_shard()` once the slot is filled. -/
def afterPutTx (E : Env D) (s : State D) (source : Option Nat) (b : BlockId)
    (shardnum txoff : Nat) (tx : Tx D) : Res (State D) := do
  let s ← checkResolvedTxs E s tx
  let s :=
    if shardAllHashes (s.shardOf b shardnum) then
      s.modShard b shardnum fun shard => { shard with proof := none }
    else s
  let s ←
    if shardAllKnown (s.shardOf b shardnum) then updateBlockPtrsNewShard E.crypto s b else .ok s
  let s ← saveTx E.crypto s.setNeedsRecheck b shardnum txoff
  let s ← sendTxInBlockToPeers E.crypto s source b shardnum txoff
  checkBlockShard E s b shardnum .checkShardAfterTx
  .ok s

/-- The `memcmp` of `put_tx_in_shard`: the bytes of the transaction put and its
refs against those that are there. -/
def sameTxp (tx : Tx D) (refs : List InputRef) (tx' : Tx D) (refs' : List InputRef) : Bool :=
  let bytes := marshalTx tx ++ marshalRefs refs
  (marshalTx tx' ++ marshalRefs refs').take bytes.length == bytes

/-- `put_tx_in_shard()`. -/
def putTxInShard (E : Env D) (s : State D) (source : Option Nat) (b : BlockId)
    (shardnum txoff : Nat) (tx : Tx D) (refs : List InputRef) : Res (State D) := do
  match (s.shardOf b shardnum).u txoff with
  | .tx tx' refs' => do
    assert (sameTxp tx refs tx' refs') .putTxDiffers
    .ok s
  | _ => do
    let s ← fillSlot E s b shardnum txoff tx refs
    afterPutTx E s source b shardnum txoff tx

/-- Put a hash into a slot. -/
def BlockShard.setHash (shard : BlockShard D) (txoff : Nat) (h : TxRefHash D) : BlockShard D :=
  { shard with u := Function.update shard.u txoff (.hash h), hashcount := shard.hashcount + 1 }

/-- `put_txhash_in_shard()`: `false` if the slot is known already. -/
def putTxhashInShard (E : Env D) (s : State D) (b : BlockId) (shardnum txoff : Nat)
    (txrefhash : TxRefHash D) : Res (State D × Bool) := do
  match txrefhashInShard E.crypto (s.shardOf b shardnum) txoff with
  | some p => do
    assert (p = txrefhash) .putTxhashDiffers
    .ok (s, false)
  | none => do
    let s := s.modShard b shardnum fun shard => shard.setHash txoff txrefhash
    let s := (addTxhashToHashes E s b shardnum txoff txrefhash.txhash).setNeedsRecheck
    checkBlockShard E s b shardnum .checkShardAfterHash
    .ok (s, true)

/-- Store a proof unless there is one for that slot. -/
def BlockShard.addProof (shard : BlockShard D) (proof : Proof D) : BlockShard D :=
  let proofs := shard.proof.getD fun _ => none
  let txoff := proof.pos.txoff.toNat
  { shard with proof := some (Function.update proofs txoff ((proofs txoff).or (some proof))) }

/-- `put_proof_in_shard()`. -/
def putProofInShard (s : State D) (b : BlockId) (proof : Proof D) : State D :=
  let shardnum := proof.pos.shard.toNat
  if shardAllHashes (s.shardOf b shardnum) then s
  else s.modShard b shardnum fun shard => shard.addProof proof

end Pettycoin
