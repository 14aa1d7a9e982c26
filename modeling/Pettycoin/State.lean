import Pettycoin.Tx
import Mathlib.Logic.Function.Basic
import Mathlib.Data.List.Perm.Basic

/-!
# Pettycoin — the node's state

`block.h`, `block_shard.h`, `txhash.h`, `inputhash.h`, `pending.h` and
`state.h`. A block pointer is a `BlockId`: the number of the block in the order
the node learnt of them, the genesis block being 0. `State.children` is the
list `block->children`, which `block_add` only ever appends to.

A call that brings the daemon down (a failed assertion, a `NULL` dereference,
`abort()`) or never returns ends in a `Fault`; everything else is `Except.ok`.

What the model keeps of the neighbours of the core is a log of `Event`s: the
requests queued, the packets relayed, the records saved and the calls to the
generator, in the order they happen.

* `Slot`, `BlockShard`, `Block` — what is known of a block;
* `PendingBlock`, `TxhashElem`, `InputhashElem` — pending transactions and the two
  tables;
* `Env` — what the node is built with and what is outside of it;
* `State` — all of it.
-/

namespace Pettycoin

-- ---------------------------------------------------------------------------
-- Faults
-- ---------------------------------------------------------------------------

/-- Where the daemon stops, named after what is violated. -/
inductive Fault
  /-- `create_proof`: a hash of the shard is unknown and no proof is stored. -/
  | createProof
  /-- A slot with neither transaction nor hash is hashed (`hash_tx(NULL)`). -/
  | unknownSlot
  /-- `put_tx_in_shard`: the slot holds a different transaction. -/
  | putTxDiffers
  /-- `put_tx_in_shard`: the slot holds a different hash. -/
  | putTxHashDiffers
  /-- `put_txhash_in_shard`: the slot holds something else. -/
  | putTxhashDiffers
  /-- `check_block_shard`, run at the end of `put_tx_in_shard`. -/
  | checkShardAfterTx
  /-- `check_block_shard`, run at the end of `put_txhash_in_shard`. -/
  | checkShardAfterHash
  /-- `check_tx_refs`: the refs do not pass `check_refs`. -/
  | checkTxRefs
  /-- `check_prev_txhashes`: the wrong number of previous hashes. -/
  | prevTxhashes
  /-- `check_chains`. -/
  | checkChains
  /-- `recheck_tx`: a transaction is recorded in a block with a complaint. -/
  | recheckComplained
  /-- `insert_pending_tx`, `add_pending_tx_to_hashes`: already pending. -/
  | pendingTwice
  /-- `drop_pending_tx`: recorded as pending but in neither list. -/
  | pendingMissing
  /-- `find_matching_input`: no input spends that output. -/
  | matchingInput
  /-- `complain_doublespend`: the first block is not an ancestor. -/
  | doublespendOrder
  /-- `beats_target`: the exponent is less than 3 or more than 32. -/
  | beatsTarget
  /-- `encode_difficulty`: the mantissa is all ones, or the target too small. -/
  | encodeDifficulty
  /-- A pointer that was never set is followed. -/
  | uninitialised
  /-- A pointer that is `NULL` is followed. -/
  | nullPointer
  /-- `get_shard_and_off`: the chosen number is past the last transaction. -/
  | rewardIndex
  /-- The `goto again` loop starts over without having changed anything. -/
  | diverges
deriving DecidableEq, Repr

/-- The result of a call. -/
abbrev Res (α : Type) := Except Fault α

/-- `assert(cond)`. -/
def assert (cond : Bool) (fault : Fault) : Res Unit :=
  if cond then .ok () else .error fault

-- ---------------------------------------------------------------------------
-- Blocks
-- ---------------------------------------------------------------------------

/-- A `struct block *`. -/
abbrev BlockId := Nat

/-- One entry of a shard: `txp_or_hash` says which member of the union is set,
and a transaction pointer may still be `NULL`. -/
inductive Slot (D : Type)
  | unknown
  | tx (tx : Tx D) (refs : List InputRef)
  | hash (hash : TxRefHash D)
deriving DecidableEq

/-- `struct block_shard`. -/
structure BlockShard (D : Type) where
  shardnum : Nat
  txcount : Nat
  hashcount : Nat
  size : Nat
  /-- The stored proofs, `none` once all hashes are known. -/
  proof : Option (Nat → Option (Proof D))
  u : Nat → Slot D

/-- A transaction with the refs and the proof that place it in a block. -/
structure ProvenTx (D : Type) where
  proof : Proof D
  tx : Tx D
  refs : List InputRef

/-- The complaint packets, with what they carry. -/
inductive Complaint (D : Type)
  | txMisorder (tx1 tx2 : ProvenTx D)
  | txInvalid (error : Ecode) (tx : ProvenTx D)
  | txMalformed (error : Ecode) (proof : Proof D) (tx : List UInt8)
  | txBadInput (inputnum : Nat) (tx : ProvenTx D) (input : Tx D)
  | txBadAmount (tx : ProvenTx D) (inputs : List (Tx D))
  | doublespend (input1 input2 : Nat) (tx1 tx2 : ProvenTx D)
  | badInputRef (inputnum : Nat) (tx input : ProvenTx D)
  | claimInputInvalid (claim reward : ProvenTx D)

/-- `struct block`. -/
structure Block (D : Type) where
  prev : Option BlockId
  sha : D
  hdr : BlockHeader D
  shardNums : List UInt8
  merkles : List D
  prevTxhashes : List UInt8
  tailer : BlockTailer
  totalWork : Nat
  pendingFeatures : UInt8
  allKnown : Bool
  complaint : Option (Complaint D)
  shard : Nat → BlockShard D

/-- `le32_to_cpu(block->hdr->depth)`. -/
def Block.depth {D : Type} (b : Block D) : Nat := b.hdr.depth.toNat

/-- `num_shards(block->hdr)`. -/
def Block.numShards {D : Type} (b : Block D) : Nat := 2 ^ b.hdr.shardOrder.toNat

/-- `block->shard_nums[shardnum]`. -/
def Block.shardSize {D : Type} (b : Block D) (shardnum : Nat) : Nat :=
  (b.shardNums[shardnum]?.getD 0).toNat

/-- A shard holds at most 255 transactions. -/
theorem Block.shardSize_lt {D : Type} (b : Block D) (shardnum : Nat) :
    b.shardSize shardnum < 256 :=
  UInt8.toNat_lt _

-- ---------------------------------------------------------------------------
-- Pending transactions and the two hash tables
-- ---------------------------------------------------------------------------

/-- `struct pending_tx`. -/
structure PendingTx (D : Type) where
  tx : Tx D
  refs : List InputRef
deriving DecidableEq

/-- `struct pending_block`. -/
structure PendingBlock (D : Type) where
  pend : Nat → List (PendingTx D)
  needsRecheck : Bool
  unknownTx : List (Tx D)
  numUnknown : Nat

/-- `new_pending_block()`. -/
def newPendingBlock {D : Type} : PendingBlock D :=
  { pend := fun _ => [], needsRecheck := false, unknownTx := [], numUnknown := 0 }

/-- The `status`, `u`, `shardnum` and `txoff` of a `struct txhash_elem`. -/
inductive TxWhere (D : Type)
  /-- `TX_IN_BLOCK` -/
  | inBlock (block : BlockId) (shardnum txoff : Nat)
  /-- `TX_PENDING` -/
  | pending (tx : Tx D)
deriving DecidableEq

/-- `struct txhash_elem`. -/
structure TxhashElem (D : Type) where
  sha : D
  loc : TxWhere D
deriving DecidableEq

/-- `struct inputhash_elem`. `onPending` is the tal parent: set when it is
`state->pending`, so that the element is gone once that is freed. -/
structure InputhashElem (D : Type) where
  tx : D
  outputNum : UInt16
  usedBy : D
  onPending : Bool
deriving DecidableEq

/-- How a `ccan/htable` lays out its elements. The order in which a lookup meets
the elements of one key depends on the addresses and on what was deleted
before, so an insertion may put the new element anywhere and may reorder the
others; it keeps exactly what was there. -/
structure Layout (α : Type) where
  add : List α → α → List α
  add_perm : ∀ l a, (add l a).Perm (a :: l)

/-- The layout in which elements stay in the order of insertion. -/
def Layout.append (α : Type) : Layout α where
  add l a := l ++ [a]
  add_perm l a := List.perm_append_singleton a l

-- ---------------------------------------------------------------------------
-- The state
-- ---------------------------------------------------------------------------

/-- What the core asks of its neighbours. -/
inductive Event (D : Type)
  | todoAddGetBlock (block : D)
  | todoAddGetChildren (block : D)
  | todoAddGetShard (block : D) (shardnum : Nat)
  | todoAddGetTxmap (block : D) (shardnum : Nat)
  | todoAddGetTx (tx : D)
  | todoAddGetTxInBlock (block : D) (shardnum txoff : Nat)
  | todoForgetAboutBlock (block : BlockId)
  | todoForPeer (peer : Nat) (complaint : Complaint D)
  | tellPeerAboutBadInput (peer : Nat) (tx : Tx D) (badInputNum : Nat) (input : Tx D)
  | tellPeerAboutBadAmount (peer : Nat) (tx : Tx D) (inputs : List (Tx D))
  | tellPeerAboutDoublespend (peer : Nat) (input1 input2 : Nat) (tx other : Tx D)
  | sendClaimInput (peer : Nat) (block : BlockId) (shardnum txoff : Nat)
  | sendBlockToPeers (exclude : Option Nat) (block : BlockId)
  | sendTxInBlockToPeers (exclude : Option Nat) (block : BlockId) (shardnum txoff : Nat)
  | sendTxToPeers (exclude : Option Nat) (tx : Tx D)
  | broadcastToPeers (complaint : Complaint D) (exclude : Option Nat)
  | wakePeers
  | saveBlock (block : BlockId)
  | saveTx (block : BlockId) (shardnum txoff : Nat)
  | tellGeneratorNewPending (shard pos : Nat)
  | restartGenerating

/-- `struct state`: the block tree, the heads, the pending block and the two
hash tables. -/
structure State (D : Type) where
  numBlocks : Nat
  blk : BlockId → Block D
  longestChains : List BlockId
  longestKnowns : List BlockId
  preferredChain : BlockId
  pending : PendingBlock D
  txhash : List (TxhashElem D)
  inputhash : List (InputhashElem D)
  upcomingFeatures : UInt8
  requireNonGatewayTxFee : Bool
  requireGatewayTxFee : Bool
  /-- `interests`, a bit for each shard of the initial order. -/
  interests : Nat → Bool
  /-- `blockfd != -1`. -/
  saving : Bool
  /-- What `current_time()` returns. -/
  now : UInt32
  events : List (Event D)

/-- What a node's run depends on besides its state: the cryptography, the bytes
beyond the payments of a gateway transaction, and the layout of the two hash
tables. The network is the test network, the only one `accept_gateway`
admits. -/
structure Env (D : Type) where
  crypto : Crypto D
  past : TxFromGateway → GatewayPayment
  txLayout : Layout (TxhashElem D)
  inputLayout : Layout (InputhashElem D)

namespace State

variable {D : Type}

/-- Change one block. -/
def modBlock (s : State D) (b : BlockId) (f : Block D → Block D) : State D :=
  { s with blk := Function.update s.blk b (f (s.blk b)) }

/-- Change one shard of one block. -/
def modShard (s : State D) (b : BlockId) (shardnum : Nat)
    (f : BlockShard D → BlockShard D) : State D :=
  s.modBlock b fun blk =>
    { blk with shard := Function.update blk.shard shardnum (f (blk.shard shardnum)) }

/-- Change the pending block. -/
def modPending (s : State D) (f : PendingBlock D → PendingBlock D) : State D :=
  { s with pending := f s.pending }

/-- `state->pending->needs_recheck = true`. -/
def setNeedsRecheck (s : State D) : State D :=
  s.modPending fun p => { p with needsRecheck := true }

/-- Log an event. -/
def emit (s : State D) (e : Event D) : State D := { s with events := s.events ++ [e] }

/-- `block->children`: the blocks added onto `b`, in the order they were. -/
def children (s : State D) (b : BlockId) : List BlockId :=
  (List.range s.numBlocks).filter fun c => (s.blk c).prev == some b

/-- `block->shard[shardnum]`. -/
def shardOf (s : State D) (b : BlockId) (shardnum : Nat) : BlockShard D :=
  (s.blk b).shard shardnum

end State

end Pettycoin
