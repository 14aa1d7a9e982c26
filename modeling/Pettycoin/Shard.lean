import Pettycoin.State
import Pettycoin.Lib.Except

/-!
# Pettycoin — shards, merkle trees and proofs

`block_shard.c`, `block.c` (the accessors), `merkle_recurse.c`,
`merkle_hashes.c`, `merkle_txs.c` and `proof.c`.

* `createProof`, `checkProof` — a proof, as it is made and as it is checked;
* `merkleHashes`, `merkleTxs` — the root of hashes, and of transactions;
* `txrefhashInShard` — what is known of a slot.
-/

namespace Pettycoin

open ExceptRules

variable {D : Type} [Digest D]

-- ---------------------------------------------------------------------------
-- Slots
-- ---------------------------------------------------------------------------

/-- `shard_is_tx()`: the slot is not known as a hash. -/
def shardIsTx (shard : BlockShard D) (txoff : Nat) : Bool :=
  match shard.u txoff with
  | .hash _ => false
  | _ => true

/-- `tx_for()`. -/
def txFor (shard : BlockShard D) (txoff : Nat) : Option (Tx D) :=
  match shard.u txoff with
  | .tx tx _ => some tx
  | _ => none

/-- The transaction with its refs (`txp`). -/
def txpFor (shard : BlockShard D) (txoff : Nat) : Option (Tx D × List InputRef) :=
  match shard.u txoff with
  | .tx tx refs => some (tx, refs)
  | _ => none

/-- `txrefhash_in_shard()`. -/
def txrefhashInShard (C : Crypto D) (shard : BlockShard D) (txoff : Nat) :
    Option (TxRefHash D) :=
  match shard.u txoff with
  | .tx tx refs => some (hashTxAndRefs C tx refs)
  | .hash h => some h
  | .unknown => none

/-- `shard_all_known()`. -/
def shardAllKnown (shard : BlockShard D) : Bool := shard.txcount == shard.size

/-- `shard_all_hashes()`. -/
def shardAllHashes (shard : BlockShard D) : Bool :=
  shard.txcount + shard.hashcount == shard.size

/-- `new_block_shard()`. -/
def newBlockShard (shardnum num : Nat) : BlockShard D :=
  { shardnum := shardnum, txcount := 0, hashcount := 0, size := num, proof := none
    u := fun _ => .unknown }

/-- `block_all_known()`. -/
def blockAllKnown (s : State D) (b : BlockId) : Bool :=
  (List.range (s.blk b).numShards).all fun i => shardAllKnown (s.shardOf b i)

/-- `block_empty()`. -/
def blockEmpty (s : State D) (b : BlockId) : Bool :=
  (List.range (s.blk b).numShards).all fun i => (s.blk b).shardSize i == 0

/-- `block_get_tx()`: `NULL` (`none`) for a hash, and for a slot never filled. -/
def blockGetTx (s : State D) (b : BlockId) (shardnum txoff : Nat) : Option (Tx D) :=
  txFor (s.shardOf b shardnum) txoff

/-- `block_get_refs()`. -/
def blockGetRefs (s : State D) (b : BlockId) (shardnum txoff : Nat) :
    Option (List InputRef) :=
  (txpFor (s.shardOf b shardnum) txoff).map Prod.snd

/-- `state->block_depth[depth]`: the blocks of that depth, first heard of first. -/
def blockDepth (s : State D) (depth : Nat) : List BlockId :=
  (List.range s.numBlocks).filter fun b => (s.blk b).depth == depth

/-- `block_find_any()`: from the deepest blocks up. No depth reaches the number
of blocks. -/
def blockFindAny [DecidableEq D] (s : State D) (sha : D) : Option BlockId :=
  ((List.range s.numBlocks).reverse.flatMap (blockDepth s)).find? fun b =>
    (s.blk b).sha == sha

-- ---------------------------------------------------------------------------
-- Merkle trees
-- ---------------------------------------------------------------------------

/-- `merkle_two_hashes()`. -/
def merkleTwoHashes (C : Crypto D) (a b : D) : D :=
  C.doubleSha (Digest.bytes a ++ Digest.bytes b)

/-- `merkle_recurse()` over `2 ^ k` leaves; those from `maxOff` on are zero. -/
def merkleRecurse (C : Crypto D) (fn : Nat → Res D) (maxOff : Nat) : Nat → Nat → Res D
  | 0, off => if off ≥ maxOff then .ok Digest.zero else fn off
  | k + 1, off => do
    let left ← merkleRecurse C fn maxOff k off
    let right ← merkleRecurse C fn maxOff k (off + 2 ^ k)
    .ok (merkleTwoHashes C left right)

/-- `merkle_hash()`: the leaf of a flat array of hashes. -/
def merkleHash (C : Crypto D) (hashes : List (TxRefHash D)) (n : Nat) : Res D :=
  match hashes[n]? with
  | some h => .ok (merkleTwoHashes C h.txhash h.refhash)
  | none => .error .nullPointer

/-- `merkle_hashes()`. -/
def merkleHashes (C : Crypto D) (hashes : List (TxRefHash D)) (off numHashes : Nat) : Res D :=
  merkleRecurse C (merkleHash C hashes) numHashes 8 off

/-- `merkle_tx()`: the leaf of a shard. -/
def merkleTx (C : Crypto D) (shard : BlockShard D) (n : Nat) : Res D :=
  match txrefhashInShard C shard n with
  | some h => .ok (merkleTwoHashes C h.txhash h.refhash)
  | none => .error .unknownSlot

/-- `merkle_some_txs()`, for `max = 2 ^ k`. -/
def merkleSomeTxs (C : Crypto D) (shard : BlockShard D) (off k : Nat) : Res D :=
  merkleRecurse C (merkleTx C shard) shard.size k off

/-- `merkle_txs()`. -/
def merkleTxs (C : Crypto D) (shard : BlockShard D) : Res D :=
  merkleSomeTxs C shard 0 8

-- ---------------------------------------------------------------------------
-- Proofs
-- ---------------------------------------------------------------------------

/-- The offset at which `create_proof` starts the sibling hash of level `i`. -/
def proofStart (txoff i : Nat) : Nat := if txoff.testBit i then 0 else 2 ^ i

/-- `create_proof()`. -/
def createProof (C : Crypto D) (s : State D) (b : BlockId) (shardnum txoff : Nat) :
    Res (Proof D) :=
  let shard := s.shardOf b shardnum
  match shard.proof.bind (· txoff) with
  | some proof => .ok proof
  | none => do
    assert (shardAllHashes shard) .createProof
    let merkle ← ofFn fun i : Fin 8 => merkleSomeTxs C shard (proofStart txoff i) i
    .ok { pos := { block := (s.blk b).sha, shard := UInt16.ofNat shardnum
                   txoff := UInt8.ofNat txoff, unused := 0 }
          merkle := merkle }

/-- `proof_merkles_to()`: what the proof says the merkle root should be. -/
def proofMerklesTo (C : Crypto D) (txrefhash : TxRefHash D) (proof : Proof D) : D :=
  (List.finRange 8).foldl
    (fun (sha : D) (i : Fin 8) =>
      if proof.pos.txoff.toNat.testBit i.val then merkleTwoHashes C (proof.merkle i) sha
      else merkleTwoHashes C sha (proof.merkle i))
    (merkleTwoHashes C txrefhash.txhash txrefhash.refhash)

/-- `check_proof_byhash()`, for a block found by `proof->pos.block`. -/
def checkProofByhash [DecidableEq D] (C : Crypto D) (proof : Proof D) (b : Block D)
    (txrefhash : TxRefHash D) : Bool :=
  let shardnum := proof.pos.shard.toNat
  if shardnum ≥ b.numShards then false
  else if proof.pos.txoff.toNat ≥ b.shardSize shardnum then false
  else b.merkles[shardnum]? == some (proofMerklesTo C txrefhash proof)

/-- `check_proof()`. -/
def checkProof [DecidableEq D] (C : Crypto D) (proof : Proof D) (b : Block D) (tx : Tx D)
    (refs : List InputRef) : Bool :=
  checkProofByhash C proof b (hashTxAndRefs C tx refs)

-- ---------------------------------------------------------------------------
-- The initial state
-- ---------------------------------------------------------------------------

/-- The `genesis` that `mkgenesis` generates: no transactions, all known. -/
def genesisBlock (sha merkle : D) (nonce2 : Bytes 13) (tailer : BlockTailer) : Block D :=
  { prev := none
    sha := sha
    hdr :=
      { version := currentVersion, featuresVote := 0
        shardOrder := protocolInitialShardOrder, nonce2 := nonce2
        prevBlock := Digest.zero, numPrevTxhashes := 0, depth := 0
        feesTo := Bytes.zero 20 }
    shardNums := List.replicate 4 0
    merkles := List.replicate 4 merkle
    prevTxhashes := []
    tailer := tailer
    totalWork := 0
    pendingFeatures := 0
    allKnown := true
    complaint := none
    shard := fun i => newBlockShard i 0 }

/-- `new_state()`: the genesis block only, interested in every shard. -/
def newState (genesis : Block D) (now : UInt32) : State D :=
  { numBlocks := 1
    blk := fun _ => genesis
    longestChains := [0]
    longestKnowns := [0]
    preferredChain := 0
    pending := newPendingBlock
    txhash := []
    inputhash := []
    upcomingFeatures := 0
    requireNonGatewayTxFee := false
    requireGatewayTxFee := false
    interests := fun _ => true
    saving := false
    now := now
    events := [] }

end Pettycoin
