import Pettycoin.CheckBlock

/-!
# Pettycoin — receiving blocks and transactions

`recv_block.c` and the handlers of `peer.c` that bring in blocks, hashes and
transactions. A handler takes what the packet unmarshals to, and returns the
error code for the peer; packets that only report an error are left out.

A handler that goes on through `txhash` after a complaint meets the elements
that were there when it began and still are.

* `recvBlock` — a block;
* `recvShard`, `recvHashesInBlock` — hashes in a block;
* `recvTxInBlock`, `recvTx` — a transaction, with a proof and by itself;
* `recvBlockFromGenerator` — what the generator has found.
-/

namespace Pettycoin

open ExceptRules

variable {D : Type} [Digest D] [DecidableEq D]

/-- What the handlers ask about the peer a packet is from. -/
structure Peer where
  id : Nat
  weAreSyncing : Bool

-- ---------------------------------------------------------------------------
-- Blocks
-- ---------------------------------------------------------------------------

/-- `difficulty_one_sixteenth()`. -/
def difficultyOneSixteenth (difficulty : UInt32) : UInt32 :=
  let exp := difficulty >>> 24
  let mantissa := difficulty &&& 0x00FFFFFF
  if (mantissa <<< 4) &&& 0xFF000000 ≠ 0 then
    if exp = 31 then exp <<< 24 ||| 0x00FFFFFF else (exp + 1) <<< 24 ||| mantissa >>> 4
  else exp <<< 24 ||| mantissa <<< 4

/-- `seek_predecessor()`: ask for `prev` if there is enough work in the block. -/
def seekPredecessor (s : State D) (sha prev : D) : Res (State D) := do
  let enough ← beatsTarget sha
    (difficultyOneSixteenth (s.blk s.preferredChain).tailer.difficulty)
  .ok (if enough then s.emit (.todoAddGetBlock prev) else s)

/-- `sync_block_contents()`. -/
def syncBlockContents (s : State D) (b : BlockId) : State D :=
  (List.range (s.blk b).numShards).foldl
    (fun s shard =>
      if shardAllKnown (s.shardOf b shard) then s
      else if interestedInShard s (s.blk b).hdr.shardOrder shard then
        s.emit (.todoAddGetShard (s.blk b).sha shard)
      else s.emit (.todoAddGetTxmap (s.blk b).sha shard))
    s

/-- `ask_block_contents()`. -/
def askBlockContents (s : State D) (b : BlockId) : State D :=
  (List.range (s.blk b).numShards).foldl
    (fun s shard =>
      if !interestedInShard s (s.blk b).hdr.shardOrder shard then s
      else if !shardAllHashes (s.shardOf b shard) then
        s.emit (.todoAddGetShard (s.blk b).sha shard)
      else s)
    s

/-- The packet as the block it is of. -/
def BlockParts.toNewBlock (C : Crypto D) (p : BlockParts D) : NewBlock D :=
  { sha := hashBlock C p, hdr := p.hdr, shardNums := p.shardNums, merkles := p.merkles
    prevTxhashes := p.prevTxhashes, tailer := p.tailer }

/-- What `recv_block` does after `block_add`. -/
def announceBlock (C : Crypto D) (s : State D) (peer : Option Peer) (b : BlockId) :
    Res (State D) := do
  let good ← checkPrevTxhashes C s b
  if !good then .ok s
  else
    match peer with
    | none => .ok (s.emit (.sendBlockToPeers none b))
    | some peer =>
      if peer.weAreSyncing then
        .ok (syncBlockContents (s.emit (.todoAddGetChildren (s.blk b).sha)) b)
      else .ok (askBlockContents (s.emit (.sendBlockToPeers (some peer.id) b)) b)

/-- If the block is known to be bad, tell the peer. -/
def tellComplaint (s : State D) (peer : Option Peer) (b : BlockId) : State D :=
  match peer, (s.blk b).complaint with
  | some peer, some complaint => s.emit (.todoForPeer peer.id complaint)
  | _, _ => s

/-- `recv_block()` for a header that passed its checks. -/
def recvGoodBlock (C : Crypto D) (s : State D) (peer : Option Peer) (p : BlockParts D)
    (prev : BlockId) : Res (State D × Ecode × Option BlockId) := do
  if p.hdr.numPrevTxhashes.toNat ≠ numPrevTxhashes s prev then .ok (s, .badPrevTxhashes, none)
  else
    match blockFindAny s (hashBlock C p) with
    | some b => .ok (tellComplaint s peer b, .none, some b)
    | none => do
      let (s, b) ← blockAdd s prev (p.toNewBlock C)
      let s ← announceBlock C s peer b
      .ok (tellComplaint s peer b, .none, some b)

/-- `recv_block()`: with the block when there is one. -/
def recvBlock (C : Crypto D) (s : State D) (peer : Option Peer) (p : BlockParts D) :
    Res (State D × Ecode × Option BlockId) := do
  match ← checkBlockHeader C s p with
  | (.none, some prev) => recvGoodBlock C s peer p prev
  | (e, _) =>
    if peer.isNone then .ok (s, e, none)
    else if e = .privUnknownPrev then
      let s ← seekPredecessor s (hashBlock C p) p.hdr.prevBlock
      .ok (s, .none, none)
    else .ok (s, .none, none)

/-- `recv_block_from_peer()`: it logs the depth of the block even where
`recv_block` did not set one. -/
def recvBlockFromPeer (C : Crypto D) (s : State D) (peer : Peer) (p : BlockParts D) :
    Res (State D × Ecode) := do
  let (s, e, b) ← recvBlock C s (some peer) p
  assert (e ≠ .none || b.isSome) .uninitialised
  .ok (s, e)

-- ---------------------------------------------------------------------------
-- Hashes
-- ---------------------------------------------------------------------------

/-- `find_tx_with_ref()`: a known transaction of that hash, with refs of that
hash. -/
def findTxWithRef (E : Env D) (s : State D) (block : BlockId) (hash : TxRefHash D) :
    Option (Tx D × List InputRef) :=
  (txhashVals s hash.txhash).findSome? fun te => do
    let tx ← txhashTx s te
    let refs ← createRefs s block tx 0
    if hashRefs E.crypto refs = hash.refhash then some (tx, refs) else none

/-- `try_resolve_hash()`: also whether it was resolved. -/
def tryResolveHash (E : Env D) (s : State D) (source : Option Nat) (b : BlockId)
    (shardnum txoff : Nat) : Res (State D × Bool) := do
  match (s.shardOf b shardnum).u txoff with
  | .hash h =>
    match findTxWithRef E s b h with
    | none => .ok (s, false)
    | some (tx, refs) =>
      match checkTxOrdering E (s.shardOf b shardnum) txoff tx with
      | some conflictTxoff => do
        let proof ← createProof E.crypto s b shardnum txoff
        let s ← complainMisorder E s b ⟨proof, tx, refs⟩ conflictTxoff
        .ok (s, true)
      | none => do
        let s ← putTxInShard E s source b shardnum txoff tx refs
        .ok (s, true)
  | _ => .error .unknownSlot

/-- `try_resolve_hashes()`. -/
def tryResolveHashes (E : Env D) (source : Option Nat) (b : BlockId) (shardnum : Nat)
    (addTodos : Bool) : List Nat → State D → Res (State D)
  | [], s => .ok s
  | i :: rest, s =>
    if (s.blk b).complaint.isSome then .ok s
    else if shardIsTx (s.shardOf b shardnum) i then
      tryResolveHashes E source b shardnum addTodos rest s
    else do
      let (s, resolved) ← tryResolveHash E s source b shardnum i
      let s :=
        if !resolved && addTodos then
          s.emit (.todoAddGetTxInBlock (s.blk b).sha shardnum i)
        else s
      tryResolveHashes E source b shardnum addTodos rest s

/-- `struct protocol_pkt_shard` with its hashes. -/
structure PktShard (D : Type) where
  block : D
  shard : UInt16
  hashes : List (TxRefHash D)

/-- Put the hashes of a whole shard, from slot `i` on. -/
def putTxhashesInShard (E : Env D) (b : BlockId) (shardnum : Nat) :
    List (TxRefHash D) → Nat → State D → Res (State D)
  | [], _, s => .ok s
  | h :: rest, i, s => do
    let (s, _) ← putTxhashInShard E s b shardnum i h
    putTxhashesInShard E b shardnum rest (i + 1) s

/-- `recv_shard()`. -/
def recvShard (E : Env D) (s : State D) (peer : Option Peer) (pkt : PktShard D) :
    Res (State D × Ecode) := do
  let shard := pkt.shard.toNat
  match blockFindAny s pkt.block with
  | none => .ok (s.emit (.todoAddGetBlock pkt.block), .none)
  | some b =>
    if (s.blk b).complaint.isSome then .ok (tellComplaint s peer b, .none)
    else if shard ≥ (s.blk b).numShards then .ok (s, .badShardnum)
    else if pkt.hashes.length ≠ (s.blk b).shardSize shard then .ok (s, .invalidLen)
    else if (s.blk b).shardSize shard = 0 then .ok (s, .invalidLen)
    else
      let merkle ← merkleHashes E.crypto pkt.hashes 0 ((s.blk b).shardSize shard)
      if (s.blk b).merkles[shard]? ≠ some merkle then .ok (s, .badMerkle)
      else
        let s ← putTxhashesInShard E b shard pkt.hashes 0 s
        let s ← tryResolveHashes E (peer.map Peer.id) b shard peer.isSome
          (List.range ((s.blk b).shardSize shard)) s
        .ok (s, .none)

/-- `struct protocol_pkt_hashes_in_block`. -/
structure HashProof (D : Type) where
  proof : Proof D
  txrefhash : TxRefHash D

/-- `recv_hashes_in_block()`. -/
def recvHashesInBlock (E : Env D) (s : State D) (peer : Peer) (pkt : HashProof D) :
    Res (State D × Ecode) := do
  let pos := pkt.proof.pos
  let shard := pos.shard.toNat
  let txoff := pos.txoff.toNat
  match blockFindAny s pos.block with
  | none => .ok (s.emit (.todoAddGetBlock pos.block), .none)
  | some b =>
    if !checkProofByhash E.crypto pkt.proof (s.blk b) pkt.txrefhash then .ok (s, .badProof)
    else
      let (s, new) ← putTxhashInShard E s b shard txoff pkt.txrefhash
      if !new then .ok (s, .none)
      else
        let s := putProofInShard s b pkt.proof
        let (s, resolved) ← tryResolveHash E s (some peer.id) b shard txoff
        if resolved then .ok (s, .none)
        else .ok (s.emit (.todoAddGetTxInBlock (s.blk b).sha shard txoff), .none)

-- ---------------------------------------------------------------------------
-- Transactions
-- ---------------------------------------------------------------------------

/-- `recv_tx_in_block()` for a transaction proven to be in block `b`. -/
def recvProvenTx (E : Env D) (s : State D) (source : Option Nat) (b : BlockId)
    (t : ProvenTx D) : Res (State D) := do
  let shard := t.proof.pos.shard.toNat
  let txoff := t.proof.pos.txoff.toNat
  let (s, valid) ← checkTxInputsAndRefs E s b t
  if !valid then .ok s
  else
    match checkTxOrdering E (s.shardOf b shard) txoff t.tx with
    | some conflictTxoff => complainMisorder E s b t conflictTxoff
    | none => putTxInShard E (putProofInShard s b t.proof) source b shard txoff t.tx t.refs

/-- `recv_tx_in_block()`, of `peer.c` and (without a peer) of `recv_tx.c`. -/
def recvTxInBlock (E : Env D) (s : State D) (peer : Option Peer) (t : ProvenTx D) :
    Res (State D × Ecode) := do
  match blockFindAny s t.proof.pos.block with
  | none =>
    .ok (if peer.isSome then s.emit (.todoAddGetBlock t.proof.pos.block) else s, .none)
  | some b =>
    let e := checkTx E.crypto s t.tx (some b)
    if e ≠ .none then .ok (s, e)
    else if t.refs.length ≠ numInputs t.tx then .ok (s, .invalidLen)
    else
      let e := checkRefs s b t.refs
      if e ≠ .none then .ok (s, e)
      else if !checkProof E.crypto t.proof (s.blk b) t.tx t.refs then .ok (s, .badProof)
      else
        let s ← recvProvenTx E s (peer.map Peer.id) b t
        .ok (s, .none)

/-- The loop that ends `recv_tx`: use the transaction to resolve hashes. -/
def resolveHashesOf (E : Env D) (source : Option Nat) :
    List (TxhashElem D) → State D → Res (State D)
  | [], s => .ok s
  | te :: rest, s =>
    match te.loc with
    | .pending _ => resolveHashesOf E source rest s
    | .inBlock b shard txoff =>
      if te ∈ s.txhash && !shardIsTx (s.shardOf b shard) txoff then do
        let (s, _) ← tryResolveHash E s source b shard txoff
        resolveHashesOf E source rest s
      else resolveHashesOf E source rest s

/-- `tell_peer_about_bad_input()`. -/
def tellPeerAboutBadInput (s : State D) (peer : Peer) (tx : Tx D) (badInputNum : Nat) :
    Res (State D) := do
  let inp ← deref (txInput tx badInputNum)
  let input ← deref (txhashGettx s inp.input .pending)
  .ok (s.emit (.tellPeerAboutBadInput peer.id tx badInputNum input))

/-- `tell_peer_about_bad_amount()`. -/
def tellPeerAboutBadAmount (s : State D) (peer : Peer) (tx : Tx D) : Res (State D) := do
  let inputs ← (txInputs tx).mapM fun inp => deref (txhashGettx s inp.input .pending)
  .ok (s.emit (.tellPeerAboutBadAmount peer.id tx inputs))

/-- `tell_peer_about_doublespend()`. -/
def tellPeerAboutDoublespend (s : State D) (block : BlockId) (peer : Peer) (tx : Tx D)
    (dsInputNum : Nat) : Res (State D) := do
  let inp ← deref (txInput tx dsInputNum)
  let (b, shard, txoff) ← deref (txFindDoublespend s block none inp)
  let other ← deref (blockGetTx s b shard txoff)
  match findMatchingInput other inp with
  | none => .error .matchingInput
  | some input2 =>
    .ok (s.emit (.tellPeerAboutDoublespend peer.id dsInputNum input2 tx other))

/-- `send_claim_input()`. -/
def sendClaimInput (C : Crypto D) (s : State D) (peer : Peer) (sha : D) : Res (State D) := do
  let (b, shard, txoff) ← deref (txhashGettxAncestor s sha (s.longestKnowns.headD 0))
  let _ ← provenTxAt C s b shard txoff
  .ok (s.emit (.sendClaimInput peer.id b shard txoff))

/-- `recv_tx()` for a transaction that is not refused. -/
def recvPendingTx (E : Env D) (s : State D) (peer : Peer) (tx : Tx D) : Res (State D) := do
  let s ← resolveHashesOf E (some peer.id) (txhashVals s (hashTx E.crypto tx)) s
  .ok (s.emit (.sendTxToPeers (some peer.id) tx))

/-- `recv_tx()`. -/
def recvTx (E : Env D) (s : State D) (peer : Peer) (tx : Tx D) : Res (State D × Ecode) := do
  let e := checkTx E.crypto s tx none
  if e ≠ .none then .ok (s, e)
  else
    let (s, r) ← addPendingTx E s tx
    let s ←
      match r.ierr with
      | .ok => recvPendingTx E s peer tx
      | .unknown => do
        let inp ← deref (txInput tx r.badInputNum)
        let s :=
          if (txhashGettx s inp.input .pending).isNone then s.emit (.todoAddGetTx inp.input)
          else s
        recvPendingTx E s peer tx
      | .bad =>
        if r.tooOld = some true then .ok s else tellPeerAboutBadInput s peer tx r.badInputNum
      | .badAmount => tellPeerAboutBadAmount s peer tx
      | .doublespend =>
        tellPeerAboutDoublespend s (s.longestKnowns.headD 0) peer tx r.badInputNum
      | .claimBad => do
        let inp ← deref (txInput tx 0)
        sendClaimInput E.crypto s peer inp.input
    .ok (s, .none)

-- ---------------------------------------------------------------------------
-- The generator
-- ---------------------------------------------------------------------------

/-- The shards of a generator's block, one after the other until one is refused. -/
def recvShards (E : Env D) (b : BlockId) :
    List (PktShard D) → Nat → State D → Res (State D × Bool)
  | [], _, s => .ok (s, true)
  | pkt :: rest, i, s =>
    if (s.blk b).shardSize i = 0 then recvShards E b rest (i + 1) s
    else do
      let (s, e) ← recvShard E s none pkt
      if e ≠ .none then .ok (s, false) else recvShards E b rest (i + 1) s

/-- `recv_block_from_generator()`: also whether the block was taken. -/
def recvBlockFromGenerator (E : Env D) (s : State D) (p : BlockParts D)
    (shards : List (PktShard D)) : Res (State D × Bool) := do
  let (s, e, b) ← recvBlock E.crypto s none p
  if e ≠ .none then .ok (s, false)
  else
    let b ← deref b
    let (s, good) ← recvShards E b shards 0 s
    if !good then .ok (s, false)
    else
      let s ← recheckPendingTxs E s
      .ok (s, true)

end Pettycoin
