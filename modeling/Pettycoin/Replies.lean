import Pettycoin.BlockIdentity
import Pettycoin.Children
import Pettycoin.GossipSteps
import Pettycoin.Lookups
import Pettycoin.Provable

/-!
# Pettycoin — requests and their replies

What the `recv_get_*` handlers answer to a request, and which `todo_done_*` the handlers of
the answers call. A request that a peer was asked is to be off its list when the answer is
dealt with: deleted if the answer is what was asked for, or else marked failed for this
peer and kept for the others.

`recv_txmap` calls none of them, and `recv_children` deletes the request that it has just
marked. An answer of the right sort may not be taken either: a shard of a block with a
complaint, the refs or the proof of a transaction, or the block may be one that the node that
asked does not know. A header that does not pass is logged with a block that was never set,
which stops the program (`recvBlockFromPeer`).

* `finishTodos_succeeded`, `finishTodos_failed` — what the calls do to the request;
* `Exchange.finished_getBlock`, `Exchange.finished_getShard` and so on — whether the handler of
  the answer finishes it, for each sort of request;
* `Replied.stillWired` — nothing is outstanding any more for a peer that has replied to all;
* `request_retired_iff` — the reply retires the request exactly if the program goes on
  (`GoesOn`) and the reply serves (`ReplyServes`); when the peer's replies to all that is
  outstanding for it have served, the syncing with it is over.
-/

namespace Pettycoin

open ExceptRules

variable {D Q : Type} [Digest D] [DecidableEq D]

-- ---------------------------------------------------------------------------
-- Replies
-- ---------------------------------------------------------------------------

/-- The errors that stand in replies. -/
inductive ReplyErr
  | unknownBlock
  | unknownShard
  | unknownTx
deriving DecidableEq

/-- The errors for which a peer that asks is hung up on. -/
inductive AskErr
  | badShardnum
  | badTxoff
deriving DecidableEq

/-- The packets that answer requests, each with what it has in place of the answer if it
says that there is none. -/
inductive Reply (D : Type)
  | block (p : BlockParts D)
  | blockErr (err : ReplyErr) (block : D)
  | shard (pkt : PktShard D)
  | shardErr (err : ReplyErr) (block : D) (shard : UInt16)
  | txmap (err : Option ReplyErr) (block : D) (shard : UInt16) (map : List UInt8)
  | children (pkt : PktChildren D)
  | txInBlock (t : ProvenTx D)
  | txInBlockErr (err : ReplyErr) (pos : Position D)
  | tx (tx : Tx D)
  | txErr (err : ReplyErr) (tx : D)

/-- Why there is no answer in it. -/
def Reply.err : Reply D → Option ReplyErr
  | .block _ | .shard _ | .txInBlock _ | .tx _ => none
  | .blockErr err _ | .shardErr err _ _ | .txInBlockErr err _ | .txErr err _ => some err
  | .txmap err _ _ _ => err
  | .children pkt => if pkt.err = protocolEcodeNone then none else some .unknownBlock

-- ---------------------------------------------------------------------------
-- The peer that is asked
-- ---------------------------------------------------------------------------

/-- What `tal_packet_append_block` appends: the arrays have the lengths that the header
says. -/
def Block.parts (blk : Block D) : Option (BlockParts D) :=
  if h : blk.shardNums.length = 2 ^ blk.hdr.shardOrder.toNat ∧
      blk.merkles.length = 2 ^ blk.hdr.shardOrder.toNat ∧
      blk.prevTxhashes.length = blk.hdr.numPrevTxhashes.toNat then
    some ⟨blk.hdr, blk.shardNums, blk.merkles, blk.prevTxhashes, blk.tailer, h.1, h.2.1, h.2.2⟩
  else none

/-- What `pkt_in` goes on with after a request: a reply, or nothing, or an error. -/
abbrev Answer (D : Type) := Except AskErr (Option (Reply D))

/-- `recv_get_block()`. -/
def recvGetBlock (s : State D) (block : D) : Res (State D × Answer D) := do
  match blockFindAny s block with
  | some b =>
    let p ← deref (s.blk b).parts
    .ok (s, .ok (some (.block p)))
  | none => .ok (s, .ok (some (.blockErr .unknownBlock block)))

/-- `recv_get_shard()`. -/
def recvGetShard (C : Crypto D) (s : State D) (peer : Nat) (block : D) (shard : UInt16) :
    Res (State D × Answer D) := do
  match blockFindAny s block with
  | none =>
    .ok (s.emit (.todoAddGetBlock block), .ok (some (.shardErr .unknownBlock block shard)))
  | some b =>
    if shard.toNat ≥ (s.blk b).numShards then .ok (s, .error .badShardnum)
    else if !shardAllHashes (s.shardOf b shard.toNat) then
      .ok (s, .ok (some (.shardErr .unknownShard block shard)))
    else
      match (s.blk b).complaint with
      -- Send complaint, but don't otherwise reply.
      | some complaint => .ok (s.emit (.todoForPeer peer complaint), .ok none)
      | none => do
        let hashes ← (List.range (s.shardOf b shard.toNat).size).mapM fun i =>
          deref (txrefhashInShard C (s.shardOf b shard.toNat) i)
        .ok (s, .ok (some (.shard ⟨block, shard, hashes⟩)))

/-- A byte of the map of `recv_get_txmap`. -/
def txmapByte (wants : Tx D → Bool) (shard : BlockShard D) (k : Nat) : UInt8 :=
  (List.range 8).foldl
    (fun byte i =>
      if 8 * k + i < shard.size && (txFor shard (8 * k + i)).any wants then
        byte ||| (1 <<< UInt8.ofNat i)
      else byte)
    0

/-- `recv_get_txmap()`; `wants` is `peer_wants_tx_other`. -/
def recvGetTxmap (wants : Tx D → Bool) (s : State D) (block : D) (shard : UInt16) :
    State D × Answer D :=
  match blockFindAny s block with
  | none =>
    (s.emit (.todoAddGetBlock block), .ok (some (.txmap (some .unknownBlock) block shard [])))
  | some b =>
    if shard.toNat ≥ (s.blk b).numShards then (s, .error .badShardnum)
    else
      let shd := s.shardOf b shard.toNat
      let map := (List.range ((shd.size + 31) / 32 * 4)).map (txmapByte wants shd)
      (s, .ok (some (.txmap none block shard map)))

/-- The packet of `recv_get_children` for these blocks: its length has 32 bits. -/
def newPktChildren (block : D) (blocks : List (SyncBlock D)) : PktChildren D where
  len := UInt32.ofNat (sizeofPktChildren + sizeofSyncBlock * blocks.length)
  block := block
  err := protocolEcodeNone
  blocks := blocks.take
    (((UInt32.ofNat (sizeofPktChildren + sizeofSyncBlock * blocks.length)).toNat - sizeofPktChildren)
      / sizeofSyncBlock)
  blocks_length := by
    rw [List.length_take, min_eq_left]
    have hle : (UInt32.ofNat (sizeofPktChildren + sizeofSyncBlock * blocks.length)).toNat
        ≤ sizeofPktChildren + sizeofSyncBlock * blocks.length := Nat.mod_le _ _
    refine Nat.div_le_of_le_mul ?_
    omega

/-- The packet when the block is unknown. -/
def unknownPktChildren (block : D) : PktChildren D where
  len := UInt32.ofNat sizeofPktChildren
  block := block
  err := protocolEcodeUnknownBlock
  blocks := []
  blocks_length := rfl

/-- `recv_get_children()`. -/
def recvGetChildren (s : State D) (block : D) : Reply D :=
  match blockFindAny s block with
  | none => .children (unknownPktChildren block)
  | some b =>
    .children <| newPktChildren block <|
      (s.children b).map fun i => ⟨(s.blk i).sha, numChildren s i none⟩

/-- `recv_get_tx_in_block()`. -/
def recvGetTxInBlock (C : Crypto D) (s : State D) (block : D) (shard : UInt16) (txoff : UInt8) :
    Res (State D × Answer D) := do
  match blockFindAny s block with
  | none =>
    .ok (s.emit (.todoAddGetBlock block),
      .ok (some (.txInBlockErr .unknownBlock ⟨block, shard, txoff, 0⟩)))
  | some b =>
    if shard.toNat ≥ (s.blk b).numShards then .ok (s, .error .badShardnum)
    else if txoff.toNat ≥ (s.blk b).shardSize shard.toNat then .ok (s, .error .badTxoff)
    else if (blockGetTx s b shard.toNat txoff.toNat).isNone then
      .ok (s, .ok (some (.txInBlockErr .unknownTx ⟨block, shard, txoff, 0⟩)))
    else
      let t ← provenTxAt C s b shard.toNat txoff.toNat
      .ok (s, .ok (some (.txInBlock t)))

/-- `recv_get_tx()`. -/
def recvGetTx (C : Crypto D) (s : State D) (sha : D) : Res (State D × Answer D) := do
  -- First look for one in a block: kill two birds with one stone.
  match (txhashGettxAncestor s sha s.preferredChain).filter
    fun place => shardIsTx (s.shardOf place.1 place.2.1) place.2.2 with
  | some (b, shard, txoff) =>
    let t ← provenTxAt C s b shard txoff
    .ok (s, .ok (some (.txInBlock t)))
  | none =>
    match txhashGettx s sha .pending with
    | some tx => .ok (s, .ok (some (.tx tx)))
    | none => .ok (s, .ok (some (.txErr .unknownTx sha)))

/-- The part of `pkt_in` that answers requests. -/
def recvGet (C : Crypto D) (wants : Tx D → Bool) (s : State D) (peer : Nat) :
    TodoPkt D → Res (State D × Answer D)
  | .getBlock block => recvGetBlock s block
  | .getShard block shard => recvGetShard C s peer block shard
  | .getTxmap block shard => .ok (recvGetTxmap wants s block shard)
  | .getChildren block => .ok (s, .ok (some (recvGetChildren s block)))
  | .getTxInBlock block shard txoff => recvGetTxInBlock C s block shard txoff
  | .getTx sha => recvGetTx C s sha

-- ---------------------------------------------------------------------------
-- The node that asked
-- ---------------------------------------------------------------------------

/-- Calls of `todo_done_*`: what was asked for, and whether that is what came. -/
abbrev Done (D : Type) := List (TodoPkt D × Bool)

/-- The calls of `recv_block`. Where no block was found or added, `recv_block_from_peer` goes
on to read it. -/
def recvBlockDone (C : Crypto D) (s : State D) (p : BlockParts D) : Res (Done D) := do
  match ← checkBlockHeader C s p with
  | (.none, some _) => .ok [(.getBlock (hashBlock C p), true)]
  -- In case we were asking for this, we're not any more.
  | (e, _) => .ok [(.getBlock (hashBlock C p), decide (e = .privUnknownPrev))]

/-- The calls of `recv_pkt_block` for an error. -/
def recvBlockErrDone (err : ReplyErr) (block : D) : Done D :=
  if err ≠ .unknownBlock then [] else [(.getBlock block, false)]

/-- The calls of `recv_shard`. -/
def recvShardDone (C : Crypto D) (s : State D) (pkt : PktShard D) : Res (Done D) := do
  let shard := pkt.shard.toNat
  match blockFindAny s pkt.block with
  | none => .ok []
  | some b =>
    if (s.blk b).complaint.isSome then .ok []
    else if shard ≥ (s.blk b).numShards then .ok []
    else if pkt.hashes.length ≠ (s.blk b).shardSize shard then .ok []
    else if (s.blk b).shardSize shard = 0 then .ok []
    else
      let merkle ← merkleHashes C pkt.hashes 0 ((s.blk b).shardSize shard)
      if (s.blk b).merkles[shard]? ≠ some merkle then .ok []
      else .ok [(.getShard pkt.block pkt.shard, true)]

/-- The calls of `recv_shard` for an error. -/
def recvShardErrDone (s : State D) (err : ReplyErr) (block : D) (shard : UInt16) : Done D :=
  match blockFindAny s block with
  | none => []
  | some b =>
    if (s.blk b).complaint.isSome then []
    else if shard.toNat ≥ (s.blk b).numShards then []
    else
      -- Implies it doesn't know block, so don't ask.
      (.getShard block shard, false) ::
        if err = .unknownBlock then [(.getBlock block, false)] else []

/-- The calls of `recv_tx_in_block`. -/
def recvTxInBlockDone (C : Crypto D) (s : State D) (t : ProvenTx D) : Done D :=
  match blockFindAny s t.proof.pos.block with
  | none => []
  | some b =>
    if checkTx C s t.tx (some b) ≠ .none then []
    else if t.refs.length ≠ numInputs t.tx then []
    else if checkRefs s b t.refs ≠ .none then []
    else if !checkProof C t.proof (s.blk b) t.tx t.refs then []
    else
      -- Whatever happens from here, no point asking others for tx.
      [(.getTxInBlock t.proof.pos.block t.proof.pos.shard t.proof.pos.txoff, true),
        -- This may have been a response to GET_TX as well.
        (.getTx (hashTx C t.tx), true)]

/-- The calls of `recv_tx_in_block` for an error. -/
def recvTxInBlockErrDone (err : ReplyErr) (pos : Position D) : Done D :=
  let done := (.getTxInBlock pos.block pos.shard pos.txoff, false)
  match err with
  -- They don't know block at all, so don't ask.
  | .unknownBlock => [(.getBlock pos.block, false), done]
  | .unknownTx => [done]
  | .unknownShard => []

/-- The calls of `recv_tx`. -/
def recvTxDone (C : Crypto D) (s : State D) (tx : Tx D) : Done D :=
  if checkTx C s tx none ≠ .none then [] else [(.getTx (hashTx C tx), true)]

/-- The calls of `recv_tx` for an error. -/
def recvTxErrDone (err : ReplyErr) (tx : D) : Done D :=
  if err ≠ .unknownTx then [] else [(.getTx tx, false)]

/-- `recv_txmap()`: it asks for what it should know, and calls no `todo_done_*`. -/
def recvTxmap (s : State D) (t : TodoState D Q) (block : D) (shard : UInt16) (map : List UInt8) :
    TodoState D Q :=
  match blockFindAny s block with
  | none => t.newTodoRequest (.getBlock block)
  | some b =>
    let shd := s.shardOf b shard.toNat
    if shard.toNat ≥ (s.blk b).numShards then t
    else if map.length ≠ (shd.size + 31) / 32 * 4 then t
    else
      (List.range shd.size).foldl
        (fun t i =>
          -- If we don't know it and they think we should, ask.
          if (txFor shd i).isNone && (map[i / 8]?.getD 0).toNat.testBit (i % 8) then
            t.newTodoRequest (.getTxInBlock (s.blk b).sha shard (UInt8.ofNat i))
          else t)
        t

/-- The calls, one after the other. -/
def finishTodos (t : TodoState D Q) (peer : Fin maxPeers) (calls : Done D) :
    Except TodoFault (TodoState D Q) :=
  calls.foldlM (fun t call => (TodoOp.done peer call.1 call.2).apply t) t

/-- What the `todo_done_*` of a reply do to the requests. -/
def finishReply (C : Crypto D) (s : State D) (t : TodoState D Q) (peer : Fin maxPeers) :
    Reply D → Option (TodoState D Q)
  | .block p => do
    let calls ← (recvBlockDone C s p).toOption
    (finishTodos t peer calls).toOption
  | .blockErr err block => (finishTodos t peer (recvBlockErrDone err block)).toOption
  | .shard pkt => do
    let calls ← (recvShardDone C s pkt).toOption
    (finishTodos t peer calls).toOption
  | .shardErr err block shard => (finishTodos t peer (recvShardErrDone s err block shard)).toOption
  | .txmap _ block shard map => some (recvTxmap s t block shard map)
  | .children pkt => (recvChildren s t peer pkt).toOption.map Prod.fst
  | .txInBlock pt => (finishTodos t peer (recvTxInBlockDone C s pt)).toOption
  | .txInBlockErr err pos => (finishTodos t peer (recvTxInBlockErrDone err pos)).toOption
  | .tx tx => (finishTodos t peer (recvTxDone C s tx)).toOption
  | .txErr err tx => (finishTodos t peer (recvTxErrDone err tx)).toOption

/-- The handler of a reply, as far as it changes the blocks and the transactions. -/
def handleReply (E : Env D) (s : State D) (peer : Peer) : Reply D → Res (State D × Ecode)
  | .block p => recvBlockFromPeer E.crypto s peer p
  | .shard pkt => recvShard E s (some peer) pkt
  | .txInBlock t => recvTxInBlock E s (some peer) t
  | .tx tx => recvTx E s peer tx
  | .blockErr .. | .shardErr .. | .txmap .. | .children _ | .txInBlockErr .. | .txErr .. =>
    .ok (s, .none)

/-- What a reply from the peer does to the requests, up to the last `todo_done_*`; nothing
if the program stops, before that or in what the handler does next. What it adds to the requests
then is an operation of its own. -/
def recvReply (E : Env D) (weAreSyncing : Bool) (s : State D) (t : TodoState D Q)
    (peer : Fin maxPeers) (reply : Reply D) : Option (TodoState D Q) := do
  let _ ← (handleReply E s ⟨peer, weAreSyncing⟩ reply).toOption
  finishReply E.crypto s t peer reply

-- ---------------------------------------------------------------------------
-- What is to come of a reply
-- ---------------------------------------------------------------------------

/-- The peer is not waited for. -/
def NotAwaited (t : TodoState D Q) (peer : Fin maxPeers) (pkt : TodoPkt D) : Prop :=
  ∀ r ∈ t.todo, r.pkt = pkt → r.outstanding peer = false

/-- The request that was outstanding for the peer is there for the others as it was, and this
peer has failed it. -/
def FailedOnly (t t' : TodoState D Q) (peer : Fin maxPeers) (pkt : TodoPkt D) : Prop :=
  ∀ r ∈ t.todo, r.pkt = pkt → r.outstanding peer = true →
    ∃ r' ∈ t'.todo, r'.pkt = pkt ∧ r'.peersAsked = r.peersAsked ∧
      r'.peersFailed = Function.update r.peersFailed peer true

/-- The request is off the peer's list: deleted if this is the answer, else failed. -/
structure RetiredBy (t t' : TodoState D Q) (peer : Fin maxPeers) (pkt : TodoPkt D)
    (err : Option ReplyErr) : Prop where
  notAwaited : NotAwaited t' peer pkt
  deleted : err = none → pkt ∉ t'.queued
  failed : err.isSome → FailedOnly t t' peer pkt

/-- The `todo_done_*` of the reply can be made, and retire the request. -/
def Finished (C : Crypto D) (s : State D) (t : TodoState D Q) (peer : Fin maxPeers)
    (pkt : TodoPkt D) (reply : Reply D) : Prop :=
  ∃ t', finishReply C s t peer reply = some t' ∧ RetiredBy t t' peer pkt reply.err

/-- The handler of the reply comes to its end. -/
def GoesOn (E : Env D) (weAreSyncing : Bool) (s : State D) (peer : Fin maxPeers)
    (reply : Reply D) : Prop :=
  ∃ r, handleReply E s ⟨peer, weAreSyncing⟩ reply = .ok r

/-- The program goes on, and the request is retired. -/
def Retired (E : Env D) (weAreSyncing : Bool) (s : State D) (t : TodoState D Q)
    (peer : Fin maxPeers) (pkt : TodoPkt D) (reply : Reply D) : Prop :=
  ∃ t', recvReply E weAreSyncing s t peer reply = some t' ∧ RetiredBy t t' peer pkt reply.err

/-- What a node asks for: of a block it knows, but for a block and a transaction that it
knows nothing else of. -/
def Asked (s : State D) : TodoPkt D → Prop
  | .getBlock _ | .getTx _ => True
  | .getShard block shard | .getTxmap block shard =>
    ∃ b, blockFindAny s block = some b ∧ shard.toNat < (s.blk b).numShards ∧
      0 < (s.blk b).shardSize shard.toNat
  | .getChildren block => (blockFindAny s block).isSome
  | .getTxInBlock block shard txoff =>
    ∃ b, blockFindAny s block = some b ∧ shard.toNat < (s.blk b).numShards ∧
      txoff.toNat < (s.blk b).shardSize shard.toNat

/-- The node `s` asks, and the node `p` replies. -/
structure Exchange (E : Env D) (s p : State D) (pkt : TodoPkt D) (reply : Reply D) : Prop where
  reach : NodeReach E s
  peerReach : NodeReach E p
  genesis : (s.blk 0).Hashed E.crypto
  peerGenesis : (p.blk 0).Hashed E.crypto
  asked : Asked s pkt
  sent : ∃ wants asker p', recvGet E.crypto wants p asker pkt = .ok (p', .ok (some reply))

/-- The packet of so many syncblocks has a length that says so, though it has 32 bits. -/
def ChildrenFit (n : Nat) : Prop :=
  sizeofPktChildren ≤ (sizeofPktChildren + sizeofSyncBlock * n) % 2 ^ 32 ∧
    ((sizeofPktChildren + sizeofSyncBlock * n) % 2 ^ 32 - sizeofPktChildren) % sizeofSyncBlock = 0

/-- What `p` has at this place passes at the block `b'` of `s`: its refs, and the proof if
it has to be made. -/
structure TxServes (C : Crypto D) (s p : State D) (b' b i j : Nat) : Prop where
  refs : ∀ tx refs, (p.shardOf b i).u j = .tx tx refs → checkRefs s b' refs = .none
  proof : (p.shardOf b i).proof.bind (· j) = none → ProofAccepted C p b i j

/-- What the reply of `p` needs to retire the request of `s`: a header that passes at `s`,
which has its predecessor; a block without a complaint, and a shard, if `p` knows it in full,
with the root that the block states; a block that `p` knows the children of; refs and a proof
that pass in a block that `s` knows. A map never does. -/
def ReplyServes (C : Crypto D) (s p : State D) : TodoPkt D → Prop
  | .getBlock block => ∀ (b : BlockId) (q : BlockParts D), blockFindAny p block = some b →
    (p.blk b).IsOf q → ∃ prev, checkBlockHeader C s q = .ok (.none, some prev)
  | .getShard block shard =>
    (∀ b' : BlockId, blockFindAny s block = some b' → (s.blk b').complaint = none) ∧
    ∀ b : BlockId, blockFindAny p block = some b →
      shardAllHashes (p.shardOf b shard.toNat) = true → RootStated C p b shard.toNat
  | .getTxmap _ _ => False
  | .getChildren block => ∃ b, blockFindAny p block = some b ∧ ChildrenFit (p.children b).length
  | .getTxInBlock block shard txoff => ∀ b b' : BlockId, blockFindAny p block = some b →
    blockFindAny s block = some b' → (blockGetTx p b shard.toNat txoff.toNat).isSome →
    TxServes C s p b' b shard.toNat txoff.toNat
  | .getTx sha => ∀ b i j : Nat, txhashGettxAncestor p sha p.preferredChain = some (b, i, j) →
    (blockGetTx p b i j).isSome →
    ∃ b', blockFindAny s (p.blk b).sha = some b' ∧ TxServes C s p b' b i j

/-- The test of `plan_output` that ends the syncing with a peer. -/
def finishedSyncing (weAreSyncing : Bool) (peer : TodoPeer Q) : Bool :=
  weAreSyncing && peer.requestsOutstanding == 0

-- ---------------------------------------------------------------------------
-- Without asking the peer
-- ---------------------------------------------------------------------------

/-- All but to ask the peer, to hang up on it and to drop requests. -/
def TodoOp.AsksNot (peer : Fin maxPeers) : TodoOp D Q → Prop
  | getPkt i | disconnect i => i ≠ peer
  | forget _ => False
  | _ => True

/-- What is done does not ask the peer. -/
inductive Meanwhile (peer : Fin maxPeers) (t : TodoState D Q) : TodoState D Q → Prop
  | refl : Meanwhile peer t t
  | step {t₁ t₂ : TodoState D Q} (op : TodoOp D Q) : Meanwhile peer t t₁ → op.AsksNot peer →
    op.Admitted t₁ → op.apply t₁ = .ok t₂ → Meanwhile peer t t₂

/-- The replies of the peer to these requests are dealt with, one after the other, and what
else there is to do in between. -/
inductive Replied (E : Env D) (peer : Fin maxPeers) :
    TodoState D Q → List (TodoPkt D) → TodoState D Q → Prop
  | nil {t t' : TodoState D Q} : Meanwhile peer t t' → Replied E peer t [] t'
  | cons {t t₁ t₂ t' : TodoState D Q} {s p : State D} {weAreSyncing : Bool}
    {pkt : TodoPkt D} {reply : Reply D} {pkts : List (TodoPkt D)} : Meanwhile peer t t₁ →
    Exchange E s p pkt reply → ReplyServes E.crypto s p pkt →
    recvReply E weAreSyncing s t₁ peer reply = some t₂ →
    Replied E peer t₂ pkts t' → Replied E peer t (pkt :: pkts) t'

section

variable {t t' : TodoState D Q} {peer : Fin maxPeers} {pkt : TodoPkt D}

/-- Nothing is outstanding for the peer that was not. -/
def NoneNew (peer : Fin maxPeers) (t t' : TodoState D Q) : Prop :=
  ∀ r' ∈ t'.todo, r'.outstanding peer = true →
    ∃ r ∈ t.todo, r.pkt = r'.pkt ∧ r.outstanding peer = true

omit [Digest D] [DecidableEq D] in
theorem NoneNew.of_subset (h : ∀ r ∈ t'.todo, r ∈ t.todo) : NoneNew peer t t' :=
  fun r' hr' hout => ⟨r', h r' hr', rfl, hout⟩

omit [Digest D] [DecidableEq D] in
/-- The requests have been changed one by one, and not so that one is outstanding. -/
theorem NoneNew.of_map {f : TodoRequest D → TodoRequest D} (h : t'.todo = t.todo.map f)
    (hf : ∀ r, (f r).pkt = r.pkt ∧ ((f r).outstanding peer = true → r.outstanding peer = true)) :
    NoneNew peer t t' := by
  intro r' hr' hout
  rw [h] at hr'
  obtain ⟨r, hr, rfl⟩ := List.mem_map.mp hr'
  exact ⟨r, hr, (hf r).1.symm, (hf r).2 hout⟩

omit [Digest D] in
theorem newTodoRequest_noneNew (new : TodoPkt D) :
    NoneNew peer t (t.newTodoRequest new) ∧ (t.newTodoRequest new).connected = t.connected := by
  unfold TodoState.newTodoRequest
  cases t.findTodo new with
  | some r => exact ⟨.of_subset fun _ hr => hr, rfl⟩
  | none =>
    refine ⟨fun r' hr' hout => ?_, rfl⟩
    rcases List.mem_append.mp hr' with hr' | hr'
    · exact ⟨r', hr', rfl, hout⟩
    · obtain rfl := List.mem_singleton.mp hr'
      exact absurd hout (by simp [TodoRequest.outstanding])

omit [Digest D] [DecidableEq D] in
/-- To ask another peer. -/
theorem getTodoPkt_noneNew {other : TodoPeer Q} (hne : other.peerNum ≠ peer) :
    NoneNew peer t (t.getTodoPkt other).1 ∧ (t.getTodoPkt other).1.connected = t.connected := by
  unfold TodoState.getTodoPkt
  cases other.todo with
  | cons pkt rest => exact ⟨.of_subset fun _ hr => hr, TodoState.connected_modPeer fun _ => rfl⟩
  | nil =>
    dsimp only
    split_ifs
    · exact ⟨.of_subset fun _ hr => hr, rfl⟩
    · cases hask : TodoState.askFirst other.peerNum t.todo with
      | none => exact ⟨.of_subset fun _ hr => hr, rfl⟩
      | some found =>
        obtain ⟨todo, pkt⟩ := found
        obtain ⟨pre, r, post, hl, -, rfl⟩ := TodoState.askFirst_eq_some hask
        refine ⟨fun r' hr' hout => ?_, TodoState.connected_modPeer fun _ => rfl⟩
        rw [hl]
        rcases List.mem_append.mp hr' with hr' | hr'
        · exact ⟨r', List.mem_append_left _ hr', rfl, hout⟩
        · rcases List.mem_cons.mp hr' with rfl | hr'
          · refine ⟨r, List.mem_append_right _ List.mem_cons_self, rfl, ?_⟩
            unfold TodoRequest.outstanding at hout ⊢
            dsimp only at hout
            rwa [Function.update_of_ne hne.symm] at hout
          · exact ⟨r', List.mem_append_right _ (List.mem_cons_of_mem _ hr'), rfl, hout⟩

omit [Digest D] in
/-- An answer of any peer. -/
theorem finishTodo_noneNew (h : TodoOk t) (other : TodoPeer Q) (done : TodoPkt D)
    (success : Bool) (ht' : t.finishTodo other done success = .ok t') :
    NoneNew peer t t' ∧ t'.connected = t.connected := by
  unfold TodoState.finishTodo at ht'
  cases hfind : t.findTodo done with
  | none =>
    rw [hfind] at ht'
    obtain rfl := Except.ok.inj ht'
    exact ⟨.of_subset fun _ hr => hr, rfl⟩
  | some req =>
    rw [hfind] at ht'
    dsimp only at ht'
    split_ifs at ht' with hsucc hout hzero
    · obtain ⟨t'', hdelete, -, -, hpeers⟩ :=
        TodoState.deleteTodo_ok h (TodoState.findTodo_eq_some hfind).1
      obtain rfl := Except.ok.inj (ht'.symm.trans hdelete)
      have htodo := answered_todo ht'
      refine ⟨.of_subset fun r hr => ?_, ?_⟩
      · rw [htodo] at hr
        exact List.mem_of_mem_eraseP hr
      · unfold TodoState.connected
        rw [hpeers, List.map_map]
        refine List.map_congr_left fun p _ => ?_
        dsimp only [Function.comp]
        split_ifs <;> rfl
    · obtain rfl := Except.ok.inj ht'
      refine ⟨.of_map (f := fun x => if x.pkt = req.pkt then
        { x with peersFailed := Function.update x.peersFailed other.peerNum true } else x) rfl
        fun r => ?_, TodoState.connected_modPeer fun _ => rfl⟩
      split_ifs
      · refine ⟨rfl, fun hout => ?_⟩
        unfold TodoRequest.outstanding at hout ⊢
        by_cases hpeer : peer = other.peerNum
        · subst hpeer
          simp at hout
        · dsimp only at hout
          rwa [Function.update_of_ne hpeer] at hout
      · exact ⟨rfl, id⟩
    · obtain rfl := Except.ok.inj ht'
      exact ⟨.of_subset fun _ hr => hr, rfl⟩

omit [Digest D] in
/-- **A step** that does not ask the peer leaves nothing more outstanding for it. -/
theorem asksNot_step (h : TodoOk t) {op : TodoOp D Q} (hop : op.AsksNot peer)
    (hadm : op.Admitted t) (happly : op.apply t = .ok t') (hpeer : peer ∈ t.connected) :
    NoneNew peer t t' ∧ peer ∈ t'.connected := by
  cases op with
  | add new =>
    obtain rfl := Except.ok.inj happly
    obtain ⟨hnew, hcon⟩ : NoneNew peer t _ ∧ _ := newTodoRequest_noneNew new
    exact ⟨hnew, hcon ▸ hpeer⟩
  | forPeer i pkt =>
    obtain rfl := Except.ok.inj happly
    refine ⟨.of_subset fun _ hr => hr, ?_⟩
    have hcon : (t.todoForPeer i pkt).connected = t.connected :=
      TodoState.connected_modPeer fun _ => rfl
    exact hcon ▸ hpeer
  | getPkt i =>
    obtain ⟨other, hfind⟩ := TodoState.findPeer_isSome hadm
    unfold TodoOp.apply at happly
    simp only [hfind] at happly
    obtain rfl := Except.ok.inj happly
    have hne : other.peerNum ≠ peer := (TodoState.findPeer_eq_some hfind).2 ▸ hop
    obtain ⟨hnew, hcon⟩ := getTodoPkt_noneNew (t := t) hne
    exact ⟨hnew, hcon ▸ hpeer⟩
  | done i done success =>
    obtain ⟨other, -, hfinish⟩ := done_apply hadm done success
    rw [hfinish] at happly
    obtain ⟨hnew, hcon⟩ : NoneNew peer t t' ∧ _ := finishTodo_noneNew h other done success happly
    exact ⟨hnew, hcon ▸ hpeer⟩
  | forget block => exact hop.elim
  | connect =>
    obtain rfl := Except.ok.inj happly
    unfold TodoState.allocPeer
    cases t.getPeernum with
    | none => exact ⟨.of_subset fun _ hr => hr, hpeer⟩
    | some i => exact ⟨.of_subset fun _ hr => hr, List.mem_cons_of_mem _ hpeer⟩
  | disconnect i =>
    obtain rfl := Except.ok.inj happly
    refine ⟨.of_map (f := fun r => { r with
        peersAsked := Function.update r.peersAsked i false
        peersFailed := Function.update r.peersFailed i false }) rfl fun r => ⟨rfl, fun hout => ?_⟩, ?_⟩
    · unfold TodoRequest.outstanding at hout ⊢
      dsimp only at hout
      rwa [Function.update_of_ne (Ne.symm hop), Function.update_of_ne (Ne.symm hop)] at hout
    · obtain ⟨p, hp, rfl⟩ := TodoState.mem_connected.mp hpeer
      refine TodoState.mem_connected.mpr ⟨p, List.mem_filter.mpr ⟨hp, ?_⟩, rfl⟩
      simpa using Ne.symm hop

/-- What holds all the while. -/
structure StillWired (peer : Fin maxPeers) (t t' : TodoState D Q) : Prop where
  ok : TodoOk t'
  connected : peer ∈ t'.connected
  noneNew : NoneNew peer t t'
  accounted : Accounted t → Accounted t'

omit [Digest D] in
theorem Meanwhile.stillWired (hm : Meanwhile peer t t') (h : TodoOk t)
    (hpeer : peer ∈ t.connected) : StillWired peer t t' := by
  induction hm with
  | refl => exact ⟨h, hpeer, .of_subset fun _ hr => hr, id⟩
  | step op _ hop hadm happly ih =>
    obtain ⟨hnew, hcon⟩ := asksNot_step ih.ok hop hadm happly ih.connected
    obtain ⟨t'', happly', hok, -⟩ := todoOp_ok ih.ok hadm
    obtain rfl := Except.ok.inj (happly.symm.trans happly')
    refine ⟨hok, hcon, fun r' hr' hout => ?_, fun hacc => ?_⟩
    · obtain ⟨r₁, hr₁, hpkt₁, hout₁⟩ := hnew r' hr' hout
      obtain ⟨r, hr, hpkt, hout⟩ := ih.noneNew r₁ hr₁ hout₁
      exact ⟨r, hr, hpkt.trans hpkt₁, hout⟩
    · refine (accounted_step ih.ok (ih.accounted hacc) hadm happly).mpr fun hleak => ?_
      cases op with
      | forget block => exact hop
      | _ => exact hleak

omit [Digest D] in
theorem Meanwhile.trans {t₁ : TodoState D Q} (h : Meanwhile peer t t₁)
    (h' : Meanwhile peer t₁ t') : Meanwhile peer t t' := by
  induction h' with
  | refl => exact h
  | step op _ hop hadm happly ih => exact .step op ih hop hadm happly

omit [Digest D] in
theorem meanwhile_add (new : TodoPkt D) : Meanwhile peer t (t.newTodoRequest new) :=
  .step (.add new) .refl trivial trivial rfl

-- ---------------------------------------------------------------------------
-- The calls
-- ---------------------------------------------------------------------------

omit [Digest D] in
/-- The calls can be made. -/
theorem finishTodos_run (h : TodoOk t) (hpeer : peer ∈ t.connected) (calls : Done D) :
    ∃ t', finishTodos t peer calls = .ok t' ∧ Meanwhile peer t t' := by
  induction calls generalizing t with
  | nil => exact ⟨t, rfl, .refl⟩
  | cons call rest ih =>
    have hadm : TodoOp.Admitted t (.done peer call.1 call.2) := hpeer
    obtain ⟨t₁, happly, hok, -⟩ := todoOp_ok h hadm
    have hm : Meanwhile peer t t₁ := .step (.done peer call.1 call.2) .refl trivial hadm happly
    obtain ⟨t', ht', hm'⟩ := ih hok (hm.stillWired h hpeer).connected
    refine ⟨t', ?_, hm.trans hm'⟩
    unfold finishTodos at ht' ⊢
    rw [List.foldlM_cons, happly]
    exact ht'

omit [Digest D] in
theorem of_finishTodos_cons (h : TodoOk t) (hpeer : peer ∈ t.connected)
    {call : TodoPkt D × Bool} {rest : Done D}
    (ht' : finishTodos t peer (call :: rest) = .ok t') :
    ∃ t₁, (TodoOp.done peer call.1 call.2).apply t = .ok t₁ ∧ TodoOk t₁ ∧ peer ∈ t₁.connected ∧
      finishTodos t₁ peer rest = .ok t' := by
  have hadm : TodoOp.Admitted t (.done peer call.1 call.2) := hpeer
  obtain ⟨t₁, happly, hok, -⟩ := todoOp_ok h hadm
  have hm : Meanwhile peer t t₁ := .step (.done peer call.1 call.2) .refl trivial hadm happly
  refine ⟨t₁, happly, hok, (hm.stillWired h hpeer).connected, ?_⟩
  unfold finishTodos at ht' ⊢
  rwa [List.foldlM_cons, happly] at ht'

omit [Digest D] in
/-- What was asked for has come. -/
theorem finishTodos_succeeded (h : TodoOk t) (hpeer : peer ∈ t.connected) {calls : Done D}
    (hall : ∀ call ∈ calls, call.2 = true) (ht' : finishTodos t peer calls = .ok t')
    (r : TodoPkt D) : r ∈ t'.queued ↔ r ∈ t.queued ∧ r ∉ calls.map Prod.fst := by
  induction calls generalizing t with
  | nil =>
    obtain rfl := Except.ok.inj ht'
    simp
  | cons call rest ih =>
    obtain ⟨hcall, hrest⟩ := List.forall_mem_cons.mp hall
    obtain ⟨t₁, happly, hok, hcon, ht'⟩ := of_finishTodos_cons h hpeer ht'
    rw [hcall] at happly
    rw [ih hok hcon hrest ht', mem_queued_done h hpeer happly, List.map_cons, List.mem_cons, not_or,
      and_assoc]

/-- The request once this peer has failed it. -/
def TodoRequest.failedBy (r : TodoRequest D) (peer : Fin maxPeers) (calls : List (TodoPkt D)) :
    TodoRequest D :=
  if r.pkt ∈ calls ∧ r.outstanding peer = true then
    { r with peersFailed := Function.update r.peersFailed peer true }
  else r

omit [Digest D] in
theorem TodoRequest.failedBy_of {r : TodoRequest D} {calls : List (TodoPkt D)}
    (hmem : r.pkt ∈ calls) (hout : r.outstanding peer = true) :
    r.failedBy peer calls
      = { r with peersFailed := Function.update r.peersFailed peer true } :=
  if_pos ⟨hmem, hout⟩

omit [Digest D] in
theorem TodoRequest.failedBy_of_not {r : TodoRequest D} {calls : List (TodoPkt D)}
    (h : r.pkt ∈ calls → r.outstanding peer ≠ true) : r.failedBy peer calls = r :=
  if_neg fun hboth => h hboth.1 hboth.2

omit [Digest D] in
theorem TodoRequest.failedBy_pkt (r : TodoRequest D) (calls : List (TodoPkt D)) :
    (r.failedBy peer calls).pkt = r.pkt := by
  unfold TodoRequest.failedBy
  split_ifs <;> rfl

omit [Digest D] in
theorem map_failedBy_of_not {calls : List (TodoPkt D)}
    (h : ∀ r ∈ t.todo, r.pkt ∈ calls → r.outstanding peer ≠ true) :
    (t.todo.map fun r => r.failedBy peer calls) = t.todo :=
  (List.map_congr_left fun r hr => TodoRequest.failedBy_of_not (h r hr)).trans (List.map_id _)

omit [Digest D] in
/-- One `todo_done_*` without success. -/
theorem done_failed (h : TodoOk t) (hpeer : peer ∈ t.connected) {done : TodoPkt D}
    (ht' : (TodoOp.done peer done false).apply t = .ok t') :
    t'.todo = t.todo.map fun r => r.failedBy peer [done] := by
  obtain ⟨p, rfl, happly⟩ := done_apply hpeer done false
  rw [happly] at ht'
  unfold TodoState.finishTodo at ht'
  cases hfind : t.findTodo done with
  | none =>
    rw [hfind] at ht'
    obtain rfl := Except.ok.inj ht'
    have hnot := TodoState.findTodo_eq_none hfind
    refine (map_failedBy_of_not fun r hr hmem => absurd ?_ hnot).symm
    exact List.mem_singleton.mp hmem ▸ List.mem_map_of_mem hr
  | some req =>
    rw [hfind] at ht'
    obtain ⟨hreq, rfl⟩ := TodoState.findTodo_eq_some hfind
    -- a request is there once
    have honce : ∀ r ∈ t.todo, r.pkt = req.pkt → r = req := fun r hr hpkt =>
      List.inj_on_of_nodup_map h.distinct hr hreq hpkt
    simp only [Bool.false_eq_true, if_false] at ht'
    split_ifs at ht' with hout hzero
    · obtain rfl := Except.ok.inj ht'
      refine List.map_congr_left fun r hr => ?_
      by_cases hpkt : r.pkt = req.pkt
      · obtain rfl := honce r hr hpkt
        rw [if_pos rfl, TodoRequest.failedBy_of (List.mem_singleton_self _) hout]
      · rw [if_neg hpkt,
          TodoRequest.failedBy_of_not fun hmem => absurd (List.mem_singleton.mp hmem) hpkt]
    · obtain rfl := Except.ok.inj ht'
      refine (map_failedBy_of_not fun r hr hmem => ?_).symm
      obtain rfl := honce r hr (List.mem_singleton.mp hmem)
      exact hout

omit [Digest D] in
/-- Failing twice is failing once. -/
theorem TodoRequest.failedBy_cons (r : TodoRequest D) (done : TodoPkt D)
    (rest : List (TodoPkt D)) :
    (r.failedBy peer [done]).failedBy peer rest = r.failedBy peer (done :: rest) := by
  by_cases hout : r.outstanding peer = true
  · by_cases hdone : r.pkt = done
    · subst hdone
      rw [failedBy_of (List.mem_singleton_self _) hout, failedBy_of List.mem_cons_self hout,
        failedBy_of_not fun _ => by simp [TodoRequest.outstanding]]
    · rw [failedBy_of_not fun hmem => absurd (List.mem_singleton.mp hmem) hdone]
      unfold failedBy
      simp only [List.mem_cons, hdone, false_or]
  · rw [failedBy_of_not fun _ => hout, failedBy_of_not fun _ => hout,
      failedBy_of_not fun _ => hout]

omit [Digest D] in
/-- The peer does not have what was asked for. -/
theorem finishTodos_failed (h : TodoOk t) (hpeer : peer ∈ t.connected) {calls : Done D}
    (hall : ∀ call ∈ calls, call.2 = false) (ht' : finishTodos t peer calls = .ok t') :
    t'.todo = t.todo.map fun r => r.failedBy peer (calls.map Prod.fst) := by
  induction calls generalizing t with
  | nil =>
    obtain rfl := Except.ok.inj ht'
    exact (map_failedBy_of_not fun _ _ hmem => absurd hmem List.not_mem_nil).symm
  | cons call rest ih =>
    obtain ⟨hcall, hrest⟩ := List.forall_mem_cons.mp hall
    obtain ⟨t₁, happly, hok, hcon, ht'⟩ := of_finishTodos_cons h hpeer ht'
    rw [hcall] at happly
    rw [ih hok hcon hrest ht', done_failed h hpeer happly, List.map_map, List.map_cons]
    exact List.map_congr_left fun r _ => r.failedBy_cons call.1 _

variable {C : Crypto D} {s : State D} {reply : Reply D}

/-- Where each call says of the reply what it is, and one is for the request, it is retired. -/
theorem finished_of_calls (h : TodoOk t) (hpeer : peer ∈ t.connected) {calls : Done D}
    (hreply : finishReply C s t peer reply = (finishTodos t peer calls).toOption)
    (hall : ∀ call ∈ calls, call.2 = reply.err.isNone) (hmem : pkt ∈ calls.map Prod.fst) :
    Finished C s t peer pkt reply := by
  obtain ⟨t', ht', -⟩ := finishTodos_run h hpeer calls
  refine ⟨t', by rw [hreply, ht']; rfl, ?_⟩
  cases herr : reply.err with
  | none =>
    rw [herr] at hall
    have hgone : pkt ∉ t'.queued := fun hr =>
      ((finishTodos_succeeded h hpeer hall ht' pkt).mp hr).2 hmem
    exact ⟨fun r hr hpkt => absurd (List.mem_map.mpr ⟨r, hr, hpkt⟩) hgone, fun _ => hgone,
      fun hsome => absurd hsome (by simp)⟩
  | some err =>
    rw [herr] at hall
    have htodo := finishTodos_failed h hpeer hall ht'
    refine ⟨fun r' hr' hpkt => ?_, fun hnone => absurd hnone (by simp), fun _ r hr hpkt hout => ?_⟩
    · rw [htodo] at hr'
      obtain ⟨r, hr, rfl⟩ := List.mem_map.mp hr'
      rw [TodoRequest.failedBy_pkt] at hpkt
      subst hpkt
      unfold TodoRequest.failedBy
      split_ifs with hfail
      · simp [TodoRequest.outstanding]
      · simpa using fun hout => hfail ⟨hmem, hout⟩
    · subst hpkt
      refine ⟨r.failedBy peer (calls.map Prod.fst), ?_, ?_⟩
      · rw [htodo]
        exact List.mem_map_of_mem hr
      · unfold TodoRequest.failedBy
        rw [if_pos ⟨hmem, hout⟩]
        exact ⟨rfl, rfl, rfl⟩

/-- A reply that is not taken leaves the request awaited. -/
theorem not_finished_of_nil {r : TodoRequest D} (hr : r ∈ t.todo) (hpkt : r.pkt = pkt)
    (hout : r.outstanding peer = true)
    (hreply : finishReply C s t peer reply = (finishTodos t peer []).toOption) :
    ¬ Finished C s t peer pkt reply := by
  rintro ⟨t', ht', hretired⟩
  obtain rfl := Option.some.inj (ht'.symm.trans hreply)
  exact Bool.false_ne_true ((hretired.notAwaited r hr hpkt).symm.trans hout)

/-- Data that is not taken for the answer leaves the request there. -/
theorem not_finished_of_calls (h : TodoOk t) (hpeer : peer ∈ t.connected) {calls : Done D}
    (hreply : finishReply C s t peer reply = (finishTodos t peer calls).toOption)
    (herr : reply.err = none) (hall : ∀ call ∈ calls, call.2 = false) (hpkt : pkt ∈ t.queued) :
    ¬ Finished C s t peer pkt reply := by
  rintro ⟨t', ht', hretired⟩
  obtain ⟨t'', hrun, -⟩ := finishTodos_run h hpeer calls
  rw [hreply, hrun] at ht'
  obtain rfl := Option.some.inj ht'
  refine hretired.deleted herr ?_
  obtain ⟨r, hr, rfl⟩ := List.mem_map.mp hpkt
  unfold TodoState.queued
  rw [finishTodos_failed h hpeer hall hrun, List.map_map]
  exact List.mem_map.mpr ⟨r, hr, r.failedBy_pkt _⟩

end

-- ---------------------------------------------------------------------------
-- A block that both know
-- ---------------------------------------------------------------------------

section

variable {E : Env D} {s p : State D} {pkt : TodoPkt D} {reply : Reply D} {t : TodoState D Q}
  {peer : Fin maxPeers} {sync : Bool} {block : D} {b b' : Nat}

omit [Digest D] [DecidableEq D] in
theorem Block.isOf_parts {blk : Block D} {q : BlockParts D} (h : blk.parts = some q) :
    blk.IsOf q := by
  unfold Block.parts at h
  split_ifs at h
  obtain rfl := Option.some.inj h
  exact ⟨rfl, rfl, rfl, rfl, rfl⟩

omit [Digest D] [DecidableEq D] in
theorem Block.IsOf.parts_eq {blk : Block D} {q : BlockParts D} (h : blk.IsOf q) :
    blk.parts = some q := by
  obtain ⟨hhdr, hnums, hmerkles, hprevs, htailer⟩ := h
  unfold Block.parts
  rw [dif_pos (by
    rw [hhdr, hnums, hmerkles, hprevs]
    exact ⟨q.shardNums_length, q.merkles_length, q.prevTxhashes_length⟩)]
  exact congrArg some (BlockParts.ext_parts hhdr hnums hmerkles hprevs htailer)

omit [Digest D] [DecidableEq D] in
theorem Block.IsOf.unique {blk : Block D} {q q' : BlockParts D} (h : blk.IsOf q)
    (h' : blk.IsOf q') : q = q' :=
  BlockParts.ext_parts (h.hdr.symm.trans h'.hdr) (h.shardNums.symm.trans h'.shardNums)
    (h.merkles.symm.trans h'.merkles) (h.prevTxhashes.symm.trans h'.prevTxhashes)
    (h.tailer.symm.trans h'.tailer)

/-- What is found under a hash by both is one block. -/
theorem Exchange.sameBlock (x : Exchange E s p pkt reply)
    (hC : Function.Injective E.crypto.doubleSha) (hfind : blockFindAny p block = some b)
    (hfind' : blockFindAny s block = some b') :
    (s.blk b').hdr = (p.blk b).hdr ∧ (s.blk b').shardNums = (p.blk b).shardNums ∧
      (s.blk b').merkles = (p.blk b).merkles := by
  obtain ⟨hb, hsha⟩ := blockFindAny_spec hfind
  obtain ⟨hb', hsha'⟩ := blockFindAny_spec hfind'
  obtain ⟨q, hof, hq⟩ := hashed_of_nodeReach x.peerReach x.peerGenesis hb
  have hof' := (hashed_of_nodeReach x.reach x.genesis hb').isOf hC
    (hsha'.trans (hsha.symm.trans hq))
  exact ⟨hof'.hdr.trans hof.hdr.symm, hof'.shardNums.trans hof.shardNums.symm,
    hof'.merkles.trans hof.merkles.symm⟩

omit [Digest D] [DecidableEq D] in
theorem reply_of_sent {s s' : State D} {reply reply' : Reply D}
    (h : (.ok (s, .ok (some reply)) : Res (State D × Answer D)) = .ok (s', .ok (some reply'))) :
    reply' = reply := by
  injection h with h
  injection h with _ h
  injection h with h
  injection h with h
  exact h.symm

-- ---------------------------------------------------------------------------
-- GET_BLOCK
-- ---------------------------------------------------------------------------

/-- Where the program goes on behind the log line, the header has passed. -/
theorem header_of_recvBlockFromPeer {C : Crypto D} {from' : Peer} {q : BlockParts D}
    {r : State D × Ecode} (h : recvBlockFromPeer C s from' q = .ok r) :
    ∃ prev, checkBlockHeader C s q = .ok (.none, some prev) := by
  unfold recvBlockFromPeer at h
  obtain ⟨⟨s', e, block⟩, hrecv, h⟩ := of_bind_eq_ok h
  obtain ⟨_, hassert, -⟩ := of_bind_eq_ok h
  unfold recvBlock at hrecv
  obtain ⟨⟨e', before⟩, hheader, hrecv⟩ := of_bind_eq_ok hrecv
  have hunset : ∀ {s₁ : State D}, (s₁, Ecode.none, (none : Option BlockId)) = (s', e, block) →
      False := by
    intro s₁ heq
    obtain ⟨-, heq⟩ := Prod.mk.inj heq
    obtain ⟨rfl, rfl⟩ := Prod.mk.inj heq
    exact absurd hassert (by simp [assert])
  split at hrecv
  · rename_i prev heq
    obtain ⟨rfl, rfl⟩ := Prod.mk.inj heq
    exact ⟨prev, hheader⟩
  · -- the block is not set, and the error not returned
    rw [if_neg (by simp)] at hrecv
    split_ifs at hrecv
    · obtain ⟨s₁, -, hrecv⟩ := of_bind_eq_ok hrecv
      exact (hunset (Except.ok.inj hrecv)).elim
    · exact (hunset (Except.ok.inj hrecv)).elim

/-- What a peer answers to `PKT_GET_BLOCK`: that it does not know the block, or the
block. -/
theorem Exchange.getBlock_answers (x : Exchange E s p (.getBlock block) reply) :
    (blockFindAny p block = none ∧ reply = .blockErr .unknownBlock block) ∨
    ∃ b q, blockFindAny p block = some b ∧ (p.blk b).IsOf q ∧ hashBlock E.crypto q = block ∧
      reply = .block q := by
  obtain ⟨wants, asker, p', hsent⟩ := x.sent
  change recvGetBlock p block = _ at hsent
  unfold recvGetBlock at hsent
  cases hfind : blockFindAny p block with
  | none =>
    rw [hfind] at hsent
    exact Or.inl ⟨rfl, reply_of_sent hsent⟩
  | some b =>
    rw [hfind] at hsent
    obtain ⟨q, hq, hsent⟩ := of_bind_eq_ok hsent
    have hof : (p.blk b).IsOf q := by
      cases hparts : (p.blk b).parts with
      | none =>
        rw [hparts] at hq
        cases hq
      | some q' =>
        rw [hparts] at hq
        obtain rfl : q' = q := Except.ok.inj hq
        exact Block.isOf_parts hparts
    -- it is the block that was asked for
    obtain ⟨hb, hsha⟩ := blockFindAny_spec hfind
    obtain ⟨q', hof', hhash⟩ := hashed_of_nodeReach x.peerReach x.peerGenesis hb
    obtain rfl := hof.unique hof'
    exact Or.inr ⟨b, q, rfl, hof, hhash.symm.trans hsha, reply_of_sent hsent⟩

theorem Exchange.finished_getBlock (x : Exchange E s p (.getBlock block) reply)
    (h : TodoOk t) (hpeer : peer ∈ t.connected)
    (hserves : ReplyServes E.crypto s p (.getBlock block)) :
    Finished E.crypto s t peer (.getBlock block) reply := by
  obtain ⟨-, rfl⟩ | ⟨b, q, hfind, hof, hblock, rfl⟩ := x.getBlock_answers
  · have hreply : finishReply E.crypto s t peer (.blockErr .unknownBlock block)
        = (finishTodos t peer [(.getBlock block, false)]).toOption := rfl
    exact finished_of_calls h hpeer hreply (List.forall_mem_singleton.mpr rfl)
      List.mem_cons_self
  · obtain ⟨prev, hheader⟩ := hserves b q hfind hof
    have hreply : finishReply E.crypto s t peer (.block q)
        = (finishTodos t peer [(.getBlock block, true)]).toOption := by
      unfold finishReply recvBlockDone
      dsimp only
      rw [hheader, hblock]
      rfl
    exact finished_of_calls h hpeer hreply (List.forall_mem_singleton.mpr rfl)
      List.mem_cons_self

/-- Where the program goes on, the reply serves. -/
theorem Exchange.serves_getBlock (x : Exchange E s p (.getBlock block) reply)
    (hgoes : GoesOn E sync s peer reply) : ReplyServes E.crypto s p (.getBlock block) := by
  intro c q' hc hof'
  obtain ⟨hfind, -⟩ | ⟨b, q, hfind, hof, -, rfl⟩ := x.getBlock_answers
  · exact absurd (hfind.symm.trans hc) (by simp)
  · obtain rfl := Option.some.inj (hfind.symm.trans hc)
    obtain rfl := hof.unique hof'
    obtain ⟨r, hr⟩ := hgoes
    exact header_of_recvBlockFromPeer hr

-- ---------------------------------------------------------------------------
-- GET_SHARD
-- ---------------------------------------------------------------------------

omit [Digest D] [DecidableEq D] in
theorem of_mapM_deref {α β : Type} {f : α → Option β} {l : List α} {l' : List β}
    (h : l.mapM (fun a => deref (f a)) = .ok l') : l.map f = l'.map some := by
  induction l generalizing l' with
  | nil =>
    obtain rfl := Except.ok.inj h
    rfl
  | cons a l ih =>
    rw [List.mapM_cons] at h
    obtain ⟨c, hc, h⟩ := of_bind_eq_ok h
    obtain ⟨rest, hrest, h⟩ := of_bind_eq_ok h
    obtain rfl := Except.ok.inj h
    rw [List.map_cons, List.map_cons, ih hrest]
    cases ha : f a with
    | none =>
      rw [ha] at hc
      cases hc
    | some d =>
      rw [ha] at hc
      obtain rfl : d = c := Except.ok.inj hc
      rfl

/-- The error of `recv_get_shard` makes these calls, unless the block has a complaint. -/
theorem finishReply_shardErr {C : Crypto D} {shard : UInt16} {err : ReplyErr}
    (hfind' : blockFindAny s block = some b') (hshard' : shard.toNat < (s.blk b').numShards) :
    finishReply C s t peer (.shardErr err block shard)
      = (finishTodos t peer (if (s.blk b').complaint.isSome then [] else
          (.getShard block shard, false) ::
            if err = .unknownBlock then [(.getBlock block, false)] else [])).toOption := by
  unfold finishReply recvShardErrDone
  simp only [hfind', if_neg (Nat.not_le.mpr hshard')]

/-- So does a shard of the right length, if its root is the one that the block states. -/
theorem finishReply_shard {C : Crypto D} {shard : UInt16} {hashes : List (TxRefHash D)}
    (hfind' : blockFindAny s block = some b') (hshard' : shard.toNat < (s.blk b').numShards)
    (hlen : hashes.length = (s.blk b').shardSize shard.toNat)
    (hsize' : 0 < (s.blk b').shardSize shard.toNat) :
    finishReply C s t peer (.shard ⟨block, shard, hashes⟩)
      = if (s.blk b').complaint.isSome then (finishTodos t peer []).toOption else
          (merkleHashes C hashes 0 ((s.blk b').shardSize shard.toNat)).toOption.bind fun m =>
            (finishTodos t peer (if (s.blk b').merkles[shard.toNat]? ≠ some m then [] else
              [(.getShard block shard, true)])).toOption := by
  unfold finishReply recvShardDone
  simp only [hfind', if_neg (Nat.not_le.mpr hshard'), hlen, ne_eq, not_true, if_false,
    if_neg hsize'.ne']
  split_ifs
  · rfl
  · cases merkleHashes C hashes 0 ((s.blk b').shardSize shard.toNat) with
    | error f => rfl
    | ok m =>
      show (Except.toOption (if _ then _ else _)).bind _
        = (finishTodos t peer (if _ then _ else _)).toOption
      by_cases hstated : (s.blk b').merkles[shard.toNat]? = some m
      · rw [if_neg (not_not.mpr hstated), if_neg (not_not.mpr hstated)]
        rfl
      · rw [if_pos hstated, if_pos hstated]
        rfl

/-- What `recv_get_shard` may reply. -/
inductive SentShard (C : Crypto D) (p : State D) (block : D) (shard : UInt16) : Reply D → Prop
  | unknownBlock : blockFindAny p block = none →
    SentShard C p block shard (.shardErr .unknownBlock block shard)
  | unknownShard {b : BlockId} : blockFindAny p block = some b →
    shardAllHashes (p.shardOf b shard.toNat) = false →
    SentShard C p block shard (.shardErr .unknownShard block shard)
  | shard {b : BlockId} {hashes : List (TxRefHash D)} : blockFindAny p block = some b →
    (List.range (p.shardOf b shard.toNat).size).map
      (txrefhashInShard C (p.shardOf b shard.toNat)) = hashes.map some →
    SentShard C p block shard (.shard ⟨block, shard, hashes⟩)

theorem Exchange.sentShard {shard : UInt16} (x : Exchange E s p (.getShard block shard) reply) :
    SentShard E.crypto p block shard reply := by
  obtain ⟨wants, asker, p', hsent⟩ := x.sent
  change recvGetShard E.crypto p asker block shard = _ at hsent
  unfold recvGetShard at hsent
  cases hfind : blockFindAny p block with
  | none =>
    rw [hfind] at hsent
    exact reply_of_sent hsent ▸ .unknownBlock hfind
  | some b =>
    rw [hfind] at hsent
    dsimp only at hsent
    split_ifs at hsent with hrange hall
    · exact absurd hsent (by simp)
    · exact reply_of_sent hsent ▸ .unknownShard hfind (by simpa using hall)
    · split at hsent
      · exact absurd hsent (by simp)
      · obtain ⟨hashes, hmapM, hsent⟩ := of_bind_eq_ok hsent
        exact reply_of_sent hsent ▸ .shard hfind (of_mapM_deref hmapM)

/-- The hashes that are sent are those of the whole shard, and so is the root over them. -/
theorem Exchange.root_of_sentShard {shard : UInt16}
    (x : Exchange E s p (.getShard block shard) reply) (hC : Function.Injective E.crypto.doubleSha)
    (hfind : blockFindAny p block = some b) (hfind' : blockFindAny s block = some b')
    {hashes : List (TxRefHash D)} (hmap : (List.range (p.shardOf b shard.toNat).size).map
      (txrefhashInShard E.crypto (p.shardOf b shard.toNat)) = hashes.map some) :
    hashes.length = (s.blk b').shardSize shard.toNat ∧
      (s.blk b').merkles = (p.blk b).merkles ∧
      merkleTxs E.crypto (p.shardOf b shard.toNat)
        = merkleHashes E.crypto hashes 0 ((s.blk b').shardSize shard.toNat) := by
  obtain ⟨-, hnums, hmerkles⟩ := x.sameBlock hC hfind hfind'
  have hlen : hashes.length = (p.shardOf b shard.toNat).size := by
    simpa using (congrArg List.length hmap).symm
  have hsize : (p.shardOf b shard.toNat).size = (s.blk b').shardSize shard.toNat := by
    rw [(ledgerOk_of_nodeReach x.peerReach).size]
    unfold Block.shardSize
    rw [hnums]
  have hentries : ∀ n < (p.shardOf b shard.toNat).size,
      txrefhashInShard E.crypto (p.shardOf b shard.toNat) n = hashes[n]? := by
    intro n hn
    have hat := congrArg (·[n]?) hmap
    simpa [hn, hlen] using hat
  refine ⟨hlen.trans hsize, hmerkles, ?_⟩
  rw [merkleTxs_eq_merkleHashes hlen hentries, hlen, hsize]

/-- An error retires the request unless the block has a complaint. -/
theorem Exchange.refused_getShard {shard : UInt16} {err : ReplyErr}
    (x : Exchange E s p (.getShard block shard) (.shardErr err block shard))
    (hfind' : blockFindAny s block = some b') (h : TodoOk t) (hpeer : peer ∈ t.connected) :
    ((s.blk b').complaint = none →
      Finished E.crypto s t peer (.getShard block shard) (.shardErr err block shard)) ∧
    ((∃ r ∈ t.todo, r.pkt = .getShard block shard ∧ r.outstanding peer = true) →
      Finished E.crypto s t peer (.getShard block shard) (.shardErr err block shard) →
      (s.blk b').complaint = none) := by
  obtain ⟨c, hc, hshard, -⟩ := x.asked
  obtain rfl := Option.some.inj (hc.symm.trans hfind')
  have hreply := @finishReply_shardErr _ _ _ _ s t peer block c E.crypto shard err hfind' hshard
  constructor
  · intro hclean
    rw [hclean, Option.isSome_none, if_neg Bool.false_ne_true] at hreply
    refine finished_of_calls h hpeer hreply ?_ List.mem_cons_self
    refine List.forall_mem_cons.mpr ⟨rfl, ?_⟩
    split_ifs
    · exact List.forall_mem_singleton.mpr rfl
    · exact fun _ hmem => absurd hmem List.not_mem_nil
  · rintro ⟨r, hr, hpkt, hout⟩ hfinished
    by_contra hcomplaint
    rw [if_pos (Option.isSome_iff_ne_none.mpr hcomplaint)] at hreply
    exact not_finished_of_nil hr hpkt hout hreply hfinished

/-- Hashes retire it if the block has no complaint, and the root over them is the one that it
states. -/
theorem Exchange.finished_sentShard {shard : UInt16} {hashes : List (TxRefHash D)}
    (x : Exchange E s p (.getShard block shard) (.shard ⟨block, shard, hashes⟩))
    (hC : Function.Injective E.crypto.doubleSha) (h : TodoOk t) (hpeer : peer ∈ t.connected)
    (hfind : blockFindAny p block = some b)
    (hmap : (List.range (p.shardOf b shard.toNat).size).map
      (txrefhashInShard E.crypto (p.shardOf b shard.toNat)) = hashes.map some)
    (hserves : ReplyServes E.crypto s p (.getShard block shard)) :
    Finished E.crypto s t peer (.getShard block shard) (.shard ⟨block, shard, hashes⟩) := by
  obtain ⟨b', hfind', hshard', hsize'⟩ := x.asked
  obtain ⟨hlen, hmerkles, hroot⟩ := x.root_of_sentShard hC hfind hfind' hmap
  have hreply := @finishReply_shard _ _ _ _ s t peer block b' E.crypto shard hashes hfind' hshard'
    hlen hsize'
  obtain ⟨hclean, hstated⟩ := hserves
  have hl := ledgerOk_of_nodeReach x.peerReach
  have hall : shardAllHashes (p.shardOf b shard.toNat) = true := by
    refine hl.toLedger.allHashes_of_filled fun i hi hu => ?_
    have hat := congrArg (·[i]?) hmap
    have hlen' : hashes.length = (p.shardOf b shard.toNat).size := by
      simpa using (congrArg List.length hmap).symm
    rw [← entryAt_eq_none (C := E.crypto)] at hu
    simp [hi, hlen', show txrefhashInShard E.crypto (p.shardOf b shard.toNat) i = none from hu]
      at hat
  obtain ⟨m, hm, hstated⟩ := hstated b hfind hall
  rw [hclean b' hfind', Option.isSome_none, if_neg Bool.false_ne_true, ← hroot, hm] at hreply
  have hcalls : finishReply E.crypto s t peer (.shard ⟨block, shard, hashes⟩)
      = (finishTodos t peer [(.getShard block shard, true)]).toOption := by
    rw [hreply]
    show (finishTodos t peer (if _ then _ else _)).toOption = _
    rw [if_neg (not_not.mpr (hmerkles ▸ hstated))]
  exact finished_of_calls h hpeer hcalls (List.forall_mem_singleton.mpr rfl) List.mem_cons_self

/-- Otherwise they do not. -/
theorem Exchange.serves_sentShard {shard : UInt16} {hashes : List (TxRefHash D)}
    (x : Exchange E s p (.getShard block shard) (.shard ⟨block, shard, hashes⟩))
    (hC : Function.Injective E.crypto.doubleSha) (hfind : blockFindAny p block = some b)
    (hmap : (List.range (p.shardOf b shard.toNat).size).map
      (txrefhashInShard E.crypto (p.shardOf b shard.toNat)) = hashes.map some)
    (hasked : ∃ r ∈ t.todo, r.pkt = .getShard block shard ∧ r.outstanding peer = true)
    (hfinished : Finished E.crypto s t peer (.getShard block shard)
      (.shard ⟨block, shard, hashes⟩)) :
    ReplyServes E.crypto s p (.getShard block shard) := by
  obtain ⟨b', hfind', hshard', hsize'⟩ := x.asked
  obtain ⟨r, hr, hpkt, hout⟩ := hasked
  obtain ⟨hlen, hmerkles, hroot⟩ := x.root_of_sentShard hC hfind hfind' hmap
  have hreply := @finishReply_shard _ _ _ _ s t peer block b' E.crypto shard hashes hfind' hshard'
    hlen hsize'
  refine ⟨fun c hc => ?_, fun c hc _ => ?_⟩
  · obtain rfl := Option.some.inj (hc.symm.trans hfind')
    by_contra hcomplaint
    rw [if_pos (Option.isSome_iff_ne_none.mpr hcomplaint)] at hreply
    exact not_finished_of_nil hr hpkt hout hreply hfinished
  · obtain rfl := Option.some.inj (hfind.symm.trans hc)
    by_contra hstated
    have hnil : finishReply E.crypto s t peer (.shard ⟨block, shard, hashes⟩) = none ∨
        finishReply E.crypto s t peer (.shard ⟨block, shard, hashes⟩)
          = (finishTodos t peer []).toOption := by
      rw [hreply]
      split_ifs
      · exact .inr rfl
      · rw [← hroot]
        cases hm : merkleTxs E.crypto (p.shardOf b shard.toNat) with
        | error f => exact .inl rfl
        | ok m =>
          refine .inr ?_
          show (finishTodos t peer (if _ then _ else _)).toOption = _
          rw [if_pos fun heq => hstated ⟨m, hm, hmerkles ▸ heq⟩]
    rcases hnil with hnone | hnil
    · obtain ⟨t', ht', -⟩ := hfinished
      exact absurd (hnone.symm.trans ht') (by simp)
    · exact not_finished_of_nil hr hpkt hout hnil hfinished

/-- A shard is given as it is, or known not to be there. -/
theorem Exchange.finished_getShard {shard : UInt16}
    (x : Exchange E s p (.getShard block shard) reply)
    (hC : Function.Injective E.crypto.doubleSha) (h : TodoOk t) (hpeer : peer ∈ t.connected) :
    (ReplyServes E.crypto s p (.getShard block shard) →
      Finished E.crypto s t peer (.getShard block shard) reply) ∧
    ((∃ r ∈ t.todo, r.pkt = .getShard block shard ∧ r.outstanding peer = true) →
      Finished E.crypto s t peer (.getShard block shard) reply →
      ReplyServes E.crypto s p (.getShard block shard)) := by
  obtain ⟨b', hfind', -, -⟩ := x.asked
  have honly : ∀ {c : BlockId}, blockFindAny s block = some c → c = b' :=
    fun hc => Option.some.inj (hc.symm.trans hfind')
  cases x.sentShard with
  | unknownBlock hfind =>
    obtain ⟨hgood, hbad⟩ := x.refused_getShard hfind' h hpeer
    refine ⟨fun hserves => hgood (hserves.1 b' hfind'), fun hr hfinished => ⟨fun c hc => ?_, ?_⟩⟩
    · exact honly hc ▸ hbad hr hfinished
    · exact fun c hc => absurd (hfind.symm.trans hc) (by simp)
  | @unknownShard b hfind hall =>
    obtain ⟨hgood, hbad⟩ := x.refused_getShard hfind' h hpeer
    refine ⟨fun hserves => hgood (hserves.1 b' hfind'), fun hr hfinished => ⟨fun c hc => ?_, ?_⟩⟩
    · exact honly hc ▸ hbad hr hfinished
    · intro c hc hknown
      obtain rfl := Option.some.inj (hfind.symm.trans hc)
      exact absurd (hall.symm.trans hknown) Bool.false_ne_true
  | @shard b hashes hfind hmap =>
    exact ⟨x.finished_sentShard hC h hpeer hfind hmap, x.serves_sentShard hC hfind hmap⟩

-- ---------------------------------------------------------------------------
-- GET_TXMAP
-- ---------------------------------------------------------------------------

omit [Digest D] in
theorem mem_newTodoRequest {r : TodoRequest D} (hr : r ∈ t.todo) (new : TodoPkt D) :
    r ∈ (t.newTodoRequest new).todo := by
  unfold TodoState.newTodoRequest
  cases t.findTodo new with
  | some _ => exact hr
  | none => exact List.mem_append_left _ hr

omit [Digest D] in
/-- A map leaves every request where it is. -/
theorem mem_recvTxmap {r : TodoRequest D} (hr : r ∈ t.todo) (shard : UInt16) (map : List UInt8) :
    r ∈ (recvTxmap s t block shard map).todo := by
  unfold recvTxmap
  cases blockFindAny s block with
  | none => exact mem_newTodoRequest hr _
  | some b =>
    dsimp only
    split_ifs
    · exact hr
    · exact hr
    · generalize List.range (s.shardOf b shard.toNat).size = offs
      induction offs generalizing t with
      | nil => exact hr
      | cons i rest ih =>
        rw [List.foldl_cons]
        refine ih ?_
        split_ifs
        · exact mem_newTodoRequest hr _
        · exact hr

theorem Exchange.not_finished_getTxmap {shard : UInt16}
    (x : Exchange E s p (.getTxmap block shard) reply) {r : TodoRequest D} (hr : r ∈ t.todo)
    (hpkt : r.pkt = .getTxmap block shard) (hout : r.outstanding peer = true) :
    ¬ Finished E.crypto s t peer (.getTxmap block shard) reply := by
  obtain ⟨wants, asker, p', hsent⟩ := x.sent
  obtain ⟨err, map, rfl⟩ : ∃ err map, reply = .txmap err block shard map := by
    have hanswer := Except.ok.inj hsent
    unfold recvGetTxmap at hanswer
    split at hanswer
    · exact ⟨_, _, by simpa using (congrArg Prod.snd hanswer).symm⟩
    · split_ifs at hanswer
      · exact absurd (congrArg Prod.snd hanswer) (by simp)
      · exact ⟨_, _, by simpa using (congrArg Prod.snd hanswer).symm⟩
  rintro ⟨t', ht', hretired⟩
  obtain rfl := Option.some.inj ht'
  have hawaited := hretired.notAwaited r (mem_recvTxmap hr shard map) hpkt
  exact Bool.false_ne_true (hawaited.symm.trans hout)

end

-- ---------------------------------------------------------------------------
-- GET_CHILDREN
-- ---------------------------------------------------------------------------

section

variable {E : Env D} {s p : State D} {pkt : TodoPkt D} {reply : Reply D} {t t' : TodoState D Q}
  {peer : Fin maxPeers} {block : D} {b b' : Nat}

omit [Digest D] in
theorem recvChildrenLoop_meanwhile (s : State D) (first : D) (blocks : List (SyncBlock D)) :
    Meanwhile peer t (recvChildrenLoop s first blocks t) := by
  induction blocks generalizing t with
  | nil => exact .refl
  | cons sb rest ih =>
    unfold recvChildrenLoop
    refine Meanwhile.trans ?_ ih
    split
    · exact meanwhile_add _
    · split_ifs
      · exact meanwhile_add _
      · exact .refl

omit [Digest D] [DecidableEq D] in
theorem newPktChildren_len (block : D) (blocks : List (SyncBlock D)) :
    (newPktChildren block blocks).len.toNat
      = (sizeofPktChildren + sizeofSyncBlock * blocks.length) % 2 ^ 32 := rfl

omit [Digest D] in
/-- Where the children are listed, the request goes exactly if the length is right. -/
theorem recvChildren_listed (h : TodoOk t) (hpeer : peer ∈ t.connected)
    (hknown : (blockFindAny s block).isSome) (blocks : List (SyncBlock D)) :
    ∃ t' e, recvChildren s t peer (newPktChildren block blocks) = .ok (t', e) ∧
      (.getChildren block ∈ t.queued → (.getChildren block ∉ t'.queued ↔ ChildrenFit blocks.length)) ∧
      (ChildrenFit blocks.length → .getChildren block ∉ t'.queued) := by
  obtain ⟨parent, hparent⟩ := Option.isSome_iff_exists.mp hknown
  have hlen := newPktChildren_len block blocks
  unfold recvChildren
  by_cases hshort : (newPktChildren block blocks).len.toNat < sizeofPktChildren
  · have hnot : ¬ ChildrenFit blocks.length := fun hfit => by
      rw [hlen] at hshort
      exact absurd hfit.1 (Nat.not_le.mpr hshort)
    refine ⟨t, .invalidLen, if_pos hshort, fun hqueued => ?_, fun hfit => absurd hfit hnot⟩
    exact ⟨fun hgone => absurd hqueued hgone, fun hfit => absurd hfit hnot⟩
  rw [if_neg hshort]
  rw [show blockFindAny s (newPktChildren block blocks).block = some parent from hparent]
  dsimp only
  rw [if_neg (show ¬ (newPktChildren block blocks).err ≠ protocolEcodeNone from fun hne => hne rfl)]
  have hsub : ((newPktChildren block blocks).len - UInt32.ofNat sizeofPktChildren).toNat
      = (sizeofPktChildren + sizeofSyncBlock * blocks.length) % 2 ^ 32 - sizeofPktChildren := by
    rw [UInt32.toNat_sub_of_le, hlen]
    · rfl
    · exact UInt32.le_iff_toNat_le.mpr (Nat.not_lt.mp hshort)
  have hfit : ChildrenFit blocks.length ↔
      ((newPktChildren block blocks).len - UInt32.ofNat sizeofPktChildren).toNat
        % sizeofSyncBlock = 0 := by
    rw [hsub]
    unfold ChildrenFit
    rw [hlen] at hshort
    exact ⟨And.right, fun heq => ⟨Nat.not_lt.mp hshort, heq⟩⟩
  by_cases hwhole : ((newPktChildren block blocks).len - UInt32.ofNat sizeofPktChildren).toNat
      % sizeofSyncBlock = 0
  · obtain ⟨t', ht', hmem⟩ := recvChildrenBlocks_ok (s := s) h hpeer hwhole
    have hgone : .getChildren block ∉ t'.queued := fun hr => ((hmem _).mp hr).2 rfl
    exact ⟨t', .none, ht', fun _ => ⟨fun _ => hfit.mpr hwhole, fun _ => hgone⟩, fun _ => hgone⟩
  · refine ⟨t, .invalidLen, ?_, fun hqueued => ?_, fun hin => absurd (hfit.mp hin) hwhole⟩
    · unfold recvChildrenBlocks
      dsimp only
      rw [if_pos hwhole]
    · exact ⟨fun hgone => absurd hqueued hgone, fun hin => absurd (hfit.mp hin) hwhole⟩

omit [Digest D] in
/-- Where the peer does not know the block, the request goes all the same. -/
theorem recvChildren_unknown (h : TodoOk t) (hpeer : peer ∈ t.connected)
    (hknown : (blockFindAny s block).isSome) :
    ∃ t', recvChildren s t peer (unknownPktChildren block) = .ok (t', .none) ∧
      .getChildren block ∉ t'.queued := by
  obtain ⟨parent, hparent⟩ := Option.isSome_iff_exists.mp hknown
  obtain ⟨t₁, ht₁, hok₁, -⟩ := todoOp_ok h
    (show TodoOp.Admitted t (.done peer (.getChildren block) false) from hpeer)
  obtain ⟨-, hcon⟩ := queued_failed hpeer ht₁
  have hlen : (unknownPktChildren block).len.toNat = sizeofPktChildren := rfl
  have hwhole : ((unknownPktChildren block).len - UInt32.ofNat sizeofPktChildren).toNat
      % sizeofSyncBlock = 0 := by
    show (UInt32.ofNat sizeofPktChildren - UInt32.ofNat sizeofPktChildren).toNat % _ = 0
    rw [UInt32.sub_self]
    rfl
  obtain ⟨t', ht', hmem⟩ := @recvChildrenBlocks_ok _ _ _ s t₁ peer (unknownPktChildren block)
    hok₁ (hcon ▸ hpeer) hwhole
  refine ⟨t', ?_, fun hr => ((hmem _).mp hr).2 rfl⟩
  unfold recvChildren
  rw [if_neg (Nat.not_lt.mpr hlen.ge)]
  rw [show blockFindAny s (unknownPktChildren block).block = some parent from hparent]
  dsimp only
  have herr : (unknownPktChildren block).err ≠ protocolEcodeNone :=
    show protocolEcodeUnknownBlock ≠ protocolEcodeNone by decide
  rw [if_pos herr, if_neg (not_not.mpr hlen),
    if_neg (show ¬ (unknownPktChildren block).err ≠ protocolEcodeUnknownBlock from
      fun hne => hne rfl)]
  change (TodoOp.done peer (.getChildren block) false).apply t >>= _ = _
  rw [ht₁]
  exact ht'

theorem Exchange.finished_getChildren (x : Exchange E s p (.getChildren block) reply)
    (h : TodoOk t) (hpeer : peer ∈ t.connected) :
    (ReplyServes E.crypto s p (.getChildren block) →
      Finished E.crypto s t peer (.getChildren block) reply) ∧
    ((∃ r ∈ t.todo, r.pkt = .getChildren block ∧ r.outstanding peer = true) →
      Finished E.crypto s t peer (.getChildren block) reply →
      ReplyServes E.crypto s p (.getChildren block)) := by
  obtain ⟨wants, asker, p', hsent⟩ := x.sent
  obtain rfl := reply_of_sent hsent
  unfold recvGetChildren ReplyServes
  cases hfind : blockFindAny p block with
  | none =>
    refine ⟨fun ⟨b, hb, _⟩ => absurd (hfind.symm.trans hb) (by simp),
      fun ⟨r, hr, hpkt, hout⟩ ⟨t', ht', hretired⟩ => ?_⟩
    obtain ⟨t'', hrun, hgone⟩ := recvChildren_unknown h hpeer x.asked
    unfold finishReply at ht'
    dsimp only at ht'
    rw [hrun] at ht'
    obtain rfl := Option.some.inj ht'
    obtain ⟨r', hr', hpkt', -⟩ := hretired.failed rfl r hr hpkt hout
    exact absurd (List.mem_map.mpr ⟨r', hr', hpkt'⟩) hgone
  | some b =>
    dsimp only
    generalize hblocks : (p.children b).map _ = blocks
    have hcount : (p.children b).length = blocks.length := by
      rw [← hblocks, List.length_map]
    obtain ⟨t', e, hrun, hiff, hgone⟩ := recvChildren_listed h hpeer x.asked blocks
    have hreply : finishReply E.crypto s t peer (.children (newPktChildren block blocks)) = some t' := by
      unfold finishReply
      dsimp only
      rw [hrun]
      rfl
    have herr : (Reply.children (newPktChildren block blocks)).err = none := rfl
    constructor
    · rintro ⟨c, hc, hfit⟩
      obtain rfl := Option.some.inj (hfind.symm.trans hc)
      have hgone := hgone (hcount ▸ hfit)
      refine ⟨t', hreply, fun r hr hpkt => ?_, fun _ => hgone, fun hsome => ?_⟩
      · exact absurd (List.mem_map.mpr ⟨r, hr, hpkt⟩) hgone
      · rw [herr] at hsome
        exact absurd hsome (by simp)
    · rintro ⟨r, hr, hpkt, -⟩ ⟨t'', ht'', hretired⟩
      obtain rfl := Option.some.inj (hreply.symm.trans ht'')
      refine ⟨b, hfind, ?_⟩
      rw [hcount]
      exact (hiff (List.mem_map.mpr ⟨r, hr, hpkt⟩)).mp (hretired.deleted herr)

-- ---------------------------------------------------------------------------
-- A transaction in a block
-- ---------------------------------------------------------------------------

omit [DecidableEq D] in
/-- With the one shard order there is, what passes outside a block passes in it. -/
theorem checkTx_of_txOk [DecidableEq D] {C : Crypto D} {tx : Tx D}
    (horder : (s.blk b).hdr.shardOrder = protocolInitialShardOrder) (h : TxOk C tx) :
    checkTx C s tx (some b) = .none := by
  have hok := h s
  cases tx with
  | fromGateway t =>
    unfold checkTx at hok ⊢
    simp only [horder]
    exact hok
  | normal t => exact hok
  | toGateway t => exact hok
  | claim t => exact hok

/-- What `pkt_tx_in_block` puts together. -/
structure SentTx (C : Crypto D) (p : State D) (b i j : Nat) (pt : ProvenTx D) : Prop where
  slot : (p.shardOf b i).u j = .tx pt.tx pt.refs
  block : pt.proof.pos.block = (p.blk b).sha
  shard : pt.proof.pos.shard.toNat = i
  txoff : pt.proof.pos.txoff.toNat = j
  accepted : checkProof C pt.proof (p.blk b) pt.tx pt.refs = true ↔
    ((p.shardOf b i).proof.bind (· j) = none → ProofAccepted C p b i j)

/-- The proof is the stored one, or one that `create_proof` makes. -/
theorem Exchange.sentTx (x : Exchange E s p pkt reply)
    (hC : Function.Injective E.crypto.doubleSha) {i j : Nat} {pt : ProvenTx D}
    (hat : provenTxAt E.crypto p b i j = .ok pt) : SentTx E.crypto p b i j pt := by
  obtain ⟨proof, hproof, hat⟩ := of_bind_eq_ok hat
  obtain ⟨tx, htx, hat⟩ := of_bind_eq_ok hat
  obtain ⟨refs, hrefs, hat⟩ := of_bind_eq_ok hat
  obtain rfl := Except.ok.inj hat
  have hslot : (p.shardOf b i).u j = .tx tx refs := by
    unfold blockGetTx txFor at htx
    unfold blockGetRefs txpFor at hrefs
    cases hu : (p.shardOf b i).u j with
    | tx tx' refs' =>
      rw [hu] at htx hrefs
      obtain rfl : tx' = tx := Except.ok.inj htx
      obtain rfl : refs' = refs := Except.ok.inj hrefs
      rfl
    | hash e =>
      rw [hu] at htx
      cases htx
    | unknown =>
      rw [hu] at htx
      cases htx
  have hentry : entryAt E.crypto p b i j = some (hashTxAndRefs E.crypto tx refs) :=
    entryAt_tx hslot
  obtain ⟨proof', hproof', hblock, hshard, htxoff⟩ := createProof_of_entry x.peerReach hentry
  obtain rfl := Except.ok.inj (hproof'.symm.trans hproof)
  have hbuilt := proofAccepted_iff_proves hentry hproof hshard htxoff
  refine ⟨hslot, hblock, hshard, htxoff, fun hacc _ => hbuilt.mpr ⟨hshard, htxoff, hacc⟩,
    fun hacc => ?_⟩
  cases hstored : (p.shardOf b i).proof.bind (· j) with
  | none => exact (hbuilt.mp (hacc hstored)).accepted
  | some stored =>
    obtain rfl : stored = proof' := by
      simp only [createProof, hstored] at hproof
      exact Except.ok.inj hproof
    exact (storedProof_accepted x.peerReach hC hstored hentry).accepted

/-- It is taken for the answer exactly if its refs and its proof pass. -/
theorem Exchange.recvTxInBlockDone_eq (x : Exchange E s p pkt reply)
    (hC : Function.Injective E.crypto.doubleSha)
    {i j : Nat} (hfind : blockFindAny p block = some b) (hfind' : blockFindAny s block = some b')
    {pt : ProvenTx D} (hat : provenTxAt E.crypto p b i j = .ok pt) :
    (TxServes E.crypto s p b' b i j → recvTxInBlockDone E.crypto s pt
      = [(.getTxInBlock block pt.proof.pos.shard pt.proof.pos.txoff, true),
        (.getTx (hashTx E.crypto pt.tx), true)]) ∧
    (¬ TxServes E.crypto s p b' b i j → recvTxInBlockDone E.crypto s pt = []) := by
  obtain ⟨hb, hsha⟩ := blockFindAny_spec hfind
  have hl := ledgerOk_of_nodeReach x.reach
  have hpl := ledgerOk_of_nodeReach x.peerReach
  have hsent := x.sentTx hC hat
  obtain ⟨hhdr, hnums, hmerkles⟩ := x.sameBlock hC hfind hfind'
  have hok : checkTx E.crypto s pt.tx (some b') = .none :=
    checkTx_of_txOk (hl.shardOrder b') (hpl.txOk pt.tx (.inl ⟨b, i, j, pt.refs, hsent.slot⟩))
  have hlen : pt.refs.length = numInputs pt.tx :=
    refsLength_of_nodeReach x.peerReach b i j pt.tx pt.refs hsent.slot
  have hcheck : checkProof E.crypto pt.proof (s.blk b') pt.tx pt.refs
      = checkProof E.crypto pt.proof (p.blk b) pt.tx pt.refs :=
    checkProofByhash_congr hhdr hnums hmerkles _ _
  have hserves : TxServes E.crypto s p b' b i j ↔ checkRefs s b' pt.refs = .none ∧
      checkProof E.crypto pt.proof (p.blk b) pt.tx pt.refs = true := by
    rw [hsent.accepted]
    constructor
    · exact fun hserves => ⟨hserves.refs pt.tx pt.refs hsent.slot, hserves.proof⟩
    · refine fun ⟨hrefs, hproof⟩ => ⟨fun tx refs hslot => ?_, hproof⟩
      obtain ⟨rfl, rfl⟩ : pt.tx = tx ∧ pt.refs = refs := by
        simpa using hsent.slot.symm.trans hslot
      exact hrefs
  have hdone : recvTxInBlockDone E.crypto s pt
      = if checkRefs s b' pt.refs ≠ .none then []
        else if !checkProof E.crypto pt.proof (p.blk b) pt.tx pt.refs then []
        else [(.getTxInBlock block pt.proof.pos.shard pt.proof.pos.txoff, true),
          (.getTx (hashTx E.crypto pt.tx), true)] := by
    have hpos : pt.proof.pos.block = block := hsent.block.trans hsha
    unfold recvTxInBlockDone
    rw [hpos, hfind']
    dsimp only
    rw [hok, hlen, hcheck, if_neg (not_not.mpr rfl), if_neg (not_not.mpr rfl)]
  rw [hdone, hserves]
  constructor
  · rintro ⟨hrefs, hproof⟩
    rw [if_neg (not_not.mpr hrefs), hproof]
    rfl
  · intro hnot
    split_ifs with hrefs hproof
    · rfl
    · rfl
    · refine absurd ⟨not_not.mp hrefs, ?_⟩ hnot
      simpa using hproof

theorem Exchange.finished_getTxInBlock {shard : UInt16} {txoff : UInt8}
    (x : Exchange E s p (.getTxInBlock block shard txoff) reply)
    (hC : Function.Injective E.crypto.doubleSha)
    (h : TodoOk t) (hpeer : peer ∈ t.connected) :
    (ReplyServes E.crypto s p (.getTxInBlock block shard txoff) →
      Finished E.crypto s t peer (.getTxInBlock block shard txoff) reply) ∧
    (.getTxInBlock block shard txoff ∈ t.queued →
      Finished E.crypto s t peer (.getTxInBlock block shard txoff) reply →
      ReplyServes E.crypto s p (.getTxInBlock block shard txoff)) := by
  obtain ⟨b', hfind', -, -⟩ := x.asked
  have hrefused : ∀ err : ReplyErr, err ≠ .unknownShard →
      reply = .txInBlockErr err ⟨block, shard, txoff, 0⟩ →
      Finished E.crypto s t peer (.getTxInBlock block shard txoff) reply := by
    rintro err hne rfl
    have hreply : finishReply E.crypto s t peer (.txInBlockErr err ⟨block, shard, txoff, 0⟩)
        = (finishTodos t peer (recvTxInBlockErrDone err ⟨block, shard, txoff, 0⟩)).toOption := rfl
    have hcalls : (∀ call ∈ recvTxInBlockErrDone err ⟨block, shard, txoff, 0⟩, call.2 = false) ∧
        .getTxInBlock block shard txoff
          ∈ (recvTxInBlockErrDone err ⟨block, shard, txoff, 0⟩).map Prod.fst := by
      cases err with
      | unknownBlock => simp [recvTxInBlockErrDone]
      | unknownTx => simp [recvTxInBlockErrDone]
      | unknownShard => exact absurd rfl hne
    exact finished_of_calls h hpeer hreply hcalls.1 hcalls.2
  obtain ⟨wants, asker, p', hsent⟩ := x.sent
  change recvGetTxInBlock E.crypto p block shard txoff = _ at hsent
  unfold recvGetTxInBlock at hsent
  cases hfind : blockFindAny p block with
  | none =>
    rw [hfind] at hsent
    refine ⟨fun _ => hrefused .unknownBlock (by decide) (reply_of_sent hsent),
      fun _ _ b c hb => absurd (hfind.symm.trans hb) (by simp)⟩
  | some b =>
    rw [hfind] at hsent
    dsimp only at hsent
    split_ifs at hsent with hrange hoff hnone
    · exact absurd hsent (by simp)
    · exact absurd hsent (by simp)
    · refine ⟨fun _ => hrefused .unknownTx (by decide) (reply_of_sent hsent),
        fun _ _ c c' hc _ hsome => ?_⟩
      obtain rfl := Option.some.inj (hfind.symm.trans hc)
      rw [Option.isNone_iff_eq_none.mp hnone] at hsome
      exact absurd hsome (by simp)
    · obtain ⟨pt, hat, hsent⟩ := of_bind_eq_ok hsent
      obtain rfl := reply_of_sent hsent
      obtain ⟨htaken, hnot⟩ := x.recvTxInBlockDone_eq hC hfind hfind' hat
      have hat := x.sentTx hC hat
      have hreply : finishReply E.crypto s t peer (.txInBlock pt)
          = (finishTodos t peer (recvTxInBlockDone E.crypto s pt)).toOption := rfl
      constructor
      · intro hserves
        rw [htaken (hserves b b' hfind hfind'
          (Option.isSome_iff_ne_none.mpr (by simpa using hnone)))] at hreply
        refine finished_of_calls h hpeer hreply (by simp [Reply.err]) ?_
        rw [UInt16.toNat_inj.mp hat.shard, UInt8.toNat_inj.mp hat.txoff]
        exact List.mem_cons_self
      · intro hqueued hretired c c' hc hc' _
        obtain rfl := Option.some.inj (hfind.symm.trans hc)
        obtain rfl := Option.some.inj (hfind'.symm.trans hc')
        by_contra hserves
        rw [hnot hserves] at hreply
        exact not_finished_of_calls h hpeer hreply rfl (by simp) hqueued hretired

-- ---------------------------------------------------------------------------
-- GET_TX
-- ---------------------------------------------------------------------------

/-- What `txhash_gettx` finds is held, under its hash. -/
theorem Ledger.of_txhashGettx (hl : Ledger E s) {sha : D} {tx : Tx D}
    (h : txhashGettx s sha .pending = some tx) : hashTx E.crypto tx = sha ∧ Held s tx := by
  obtain ⟨te, hte, hin⟩ := List.exists_of_findSome?_eq_some h
  obtain ⟨hmem, hsha⟩ := List.mem_filter.mp hte
  have hsha : te.sha = sha := by simpa using hsha
  cases hloc : te.loc with
  | pending tx' =>
    rw [hloc] at hin
    obtain rfl : tx' = tx := by simpa using hin
    exact ⟨(hl.pending te hmem tx' hloc).symm.trans hsha, .inr (.inr (.inr ⟨te, hmem, hloc⟩))⟩
  | inBlock b i j =>
    rw [hloc] at hin
    obtain ⟨-, e, hentry, he⟩ := hl.inBlock te hmem b i j hloc
    dsimp only at hin
    unfold blockGetTx txFor at hin
    cases hu : (s.shardOf b i).u j with
    | tx tx' refs =>
      rw [hu] at hin
      obtain rfl := Option.some.inj hin
      rw [entryAt_tx hu] at hentry
      obtain rfl := Option.some.inj hentry
      exact ⟨he.trans hsha, .inl ⟨b, i, j, refs, hu⟩⟩
    | hash e =>
      rw [hu] at hin
      cases hin
    | unknown =>
      rw [hu] at hin
      cases hin

/-- What lies in a block is there under its hash. -/
theorem Ledger.of_lies (hl : Ledger E s) {sha : D} {c i j : Nat} (tx : Tx D)
    (refs : List InputRef) (h : Lies s sha c (b, i, j)) :
    b < s.numBlocks ∧ (s.shardOf b i).u j ≠ .unknown ∧
      ((s.shardOf b i).u j = .tx tx refs → hashTx E.crypto tx = sha) := by
  obtain ⟨te, hmem, rfl, hloc, -⟩ := h
  obtain ⟨hb, e, hentry, he⟩ := hl.inBlock te hmem b i j hloc
  refine ⟨hb, fun hu => ?_, fun hu => ?_⟩
  · rw [entryAt_eq_none.mpr hu] at hentry
    cases hentry
  · rw [entryAt_tx hu] at hentry
    obtain rfl := Option.some.inj hentry
    exact he

omit [Digest D] in
theorem Labels.findAny_sha (h : Labels s) (hb : b < s.numBlocks) :
    blockFindAny s (s.blk b).sha = some b := by
  cases hfind : blockFindAny s (s.blk b).sha with
  | none => exact absurd rfl (sha_ne_of_findAny h hfind hb)
  | some c =>
    obtain ⟨hc, hsha⟩ := blockFindAny_spec hfind
    rw [h.distinct c b hc hb hsha]

/-- What a peer answers to `PKT_GET_TX`: the transaction in its block, or else, where none is found
in one, what is pending, or that it does not know it. -/
theorem Exchange.getTx_answers {sha : D} (x : Exchange E s p (.getTx sha) reply) :
    (ReplyServes E.crypto s p (.getTx sha) ∧
      ((∃ tx, hashTx E.crypto tx = sha ∧ Held p tx ∧ reply = .tx tx) ∨
        reply = .txErr .unknownTx sha)) ∨
    ∃ b i j pt, txhashGettxAncestor p sha p.preferredChain = some (b, i, j) ∧
      provenTxAt E.crypto p b i j = .ok pt ∧ reply = .txInBlock pt := by
  obtain ⟨wants, asker, p', hsent⟩ := x.sent
  change recvGetTx E.crypto p sha = _ at hsent
  unfold recvGetTx at hsent
  cases hplace : (txhashGettxAncestor p sha p.preferredChain).filter
      fun place => shardIsTx (p.shardOf place.1 place.2.1) place.2.2 with
  | none =>
    rw [hplace] at hsent
    refine .inl ⟨fun b i j hfound hsome => ?_, ?_⟩
    · -- no transaction is found in a block
      rw [hfound] at hplace
      have hnot := Option.filter_eq_none_iff.mp hplace (b, i, j) rfl
      unfold blockGetTx txFor at hsome
      unfold shardIsTx at hnot
      cases hu : (p.shardOf b i).u j with
      | tx tx refs => exact absurd (by simp [hu]) hnot
      | hash e => simp [hu] at hsome
      | unknown => simp [hu] at hsome
    · dsimp only at hsent
      cases hpending : txhashGettx p sha .pending with
      | some tx =>
        rw [hpending] at hsent
        obtain ⟨hsha, hheld⟩ := (ledgerOk_of_nodeReach x.peerReach).of_txhashGettx hpending
        exact .inl ⟨tx, hsha, hheld, reply_of_sent hsent⟩
      | none =>
        rw [hpending] at hsent
        exact .inr (reply_of_sent hsent)
  | some place =>
    obtain ⟨b, i, j⟩ := place
    rw [hplace] at hsent
    obtain ⟨hfound, -⟩ := Option.filter_eq_some_iff.mp hplace
    obtain ⟨pt, hat, hsent⟩ := of_bind_eq_ok hsent
    exact .inr ⟨b, i, j, pt, hfound, hat, reply_of_sent hsent⟩

theorem Exchange.finished_getTx {sha : D} (x : Exchange E s p (.getTx sha) reply)
    (hC : Function.Injective E.crypto.doubleSha)
    (h : TodoOk t) (hpeer : peer ∈ t.connected) :
    (ReplyServes E.crypto s p (.getTx sha) → Finished E.crypto s t peer (.getTx sha) reply) ∧
    (.getTx sha ∈ t.queued → Finished E.crypto s t peer (.getTx sha) reply →
      ReplyServes E.crypto s p (.getTx sha)) := by
  have hl := ledgerOk_of_nodeReach x.peerReach
  obtain ⟨hserves, ⟨tx, hsha, hheld, rfl⟩ | rfl⟩ | ⟨b, i, j, pt, hfound, hat, rfl⟩ := x.getTx_answers
  · have hreply : finishReply E.crypto s t peer (.tx tx)
        = (finishTodos t peer [(.getTx sha, true)]).toOption := by
      unfold finishReply recvTxDone
      dsimp only
      rw [hl.txOk tx hheld s, if_neg (not_not.mpr rfl), hsha]
    exact ⟨fun _ => finished_of_calls h hpeer hreply (List.forall_mem_singleton.mpr rfl)
      List.mem_cons_self, fun _ _ => hserves⟩
  · have hreply : finishReply E.crypto s t peer (.txErr .unknownTx sha)
        = (finishTodos t peer [(.getTx sha, false)]).toOption := rfl
    exact ⟨fun _ => finished_of_calls h hpeer hreply (List.forall_mem_singleton.mpr rfl)
      List.mem_cons_self, fun _ _ => hserves⟩
  · obtain ⟨hb, -, hhash⟩ := hl.of_lies pt.tx pt.refs (lies_of_lookup hfound)
    have hsentTx := x.sentTx hC hat
    have hhash := hhash hsentTx.slot
    have hsome : (blockGetTx p b i j).isSome := by
      unfold blockGetTx txFor
      rw [hsentTx.slot]
      rfl
    have hfind := x.peerReach.labels.findAny_sha hb
    have hreply : finishReply E.crypto s t peer (.txInBlock pt)
        = (finishTodos t peer (recvTxInBlockDone E.crypto s pt)).toOption := rfl
    constructor
    · intro hserves
      obtain ⟨b', hfind', hserves⟩ := hserves b i j hfound hsome
      rw [(x.recvTxInBlockDone_eq hC hfind hfind' hat).1 hserves] at hreply
      refine finished_of_calls h hpeer hreply (by simp [Reply.err]) ?_
      rw [hhash]
      exact List.mem_cons_of_mem _ List.mem_cons_self
    · intro hqueued hretired c k l hfound' _
      obtain ⟨rfl, rfl, rfl⟩ : b = c ∧ i = k ∧ j = l := by
        simpa using hfound.symm.trans hfound'
      have hnil : recvTxInBlockDone E.crypto s pt ≠ [] := by
        intro hnil
        rw [hnil] at hreply
        exact not_finished_of_calls h hpeer hreply rfl (by simp) hqueued hretired
      cases hfind' : blockFindAny s (p.blk b).sha with
      | none =>
        refine absurd ?_ hnil
        unfold recvTxInBlockDone
        rw [hsentTx.block, hfind']
      | some b' =>
        refine ⟨b', rfl, ?_⟩
        by_contra hserves
        exact hnil ((x.recvTxInBlockDone_eq hC hfind hfind' hat).2 hserves)

end

-- ---------------------------------------------------------------------------
-- All requests
-- ---------------------------------------------------------------------------

section

variable {E : Env D} {s p : State D} {pkt : TodoPkt D} {reply : Reply D} {t t' : TodoState D Q}
  {peer : Fin maxPeers} {sync : Bool} {pkts : List (TodoPkt D)}

omit [Digest D] [DecidableEq D] in
theorem toOption_eq_some {α ε : Type} {x : Except ε α} {a : α} : x.toOption = some a ↔ x = .ok a :=
  ⟨eq_ok_of_toOption, fun h => h ▸ rfl⟩

theorem recvReply_eq_some : recvReply E sync s t peer reply = some t' ↔
    GoesOn E sync s peer reply ∧ finishReply E.crypto s t peer reply = some t' := by
  unfold recvReply GoesOn
  rw [Option.bind_eq_bind, Option.bind_eq_some_iff]
  simp only [toOption_eq_some, exists_and_right]

/-- A request is retired if the program goes on, and the calls retire it. -/
theorem retired_iff_finished : Retired E sync s t peer pkt reply ↔
    GoesOn E sync s peer reply ∧ Finished E.crypto s t peer pkt reply := by
  unfold Retired Finished
  simp only [recvReply_eq_some, and_assoc, exists_and_left]

/-- A reply that serves retires the request. -/
theorem Exchange.retired (x : Exchange E s p pkt reply)
    (hC : Function.Injective E.crypto.doubleSha) (h : TodoOk t) (hpeer : peer ∈ t.connected)
    (hserves : ReplyServes E.crypto s p pkt) (hgoes : GoesOn E sync s peer reply) :
    Retired E sync s t peer pkt reply := by
  refine retired_iff_finished.mpr ⟨hgoes, ?_⟩
  cases pkt with
  | getBlock block => exact x.finished_getBlock h hpeer hserves
  | getShard block shard => exact (x.finished_getShard hC h hpeer).1 hserves
  | getTxmap block shard => exact hserves.elim
  | getChildren block => exact (x.finished_getChildren h hpeer).1 hserves
  | getTxInBlock block shard txoff => exact (x.finished_getTxInBlock hC h hpeer).1 hserves
  | getTx sha => exact (x.finished_getTx hC h hpeer).1 hserves

/-- No other reply does. -/
theorem Exchange.serves (x : Exchange E s p pkt reply)
    (hC : Function.Injective E.crypto.doubleSha) (h : TodoOk t) (hpeer : peer ∈ t.connected)
    {r : TodoRequest D} (hr : r ∈ t.todo) (hpkt : r.pkt = pkt) (hout : r.outstanding peer = true)
    (hretired : Retired E sync s t peer pkt reply) : ReplyServes E.crypto s p pkt := by
  obtain ⟨hgoes, hfinished⟩ := retired_iff_finished.mp hretired
  have hqueued : pkt ∈ t.queued := List.mem_map.mpr ⟨r, hr, hpkt⟩
  cases pkt with
  | getBlock block => exact x.serves_getBlock hgoes
  | getShard block shard => exact (x.finished_getShard hC h hpeer).2 ⟨r, hr, hpkt, hout⟩ hfinished
  | getTxmap block shard => exact absurd hfinished (x.not_finished_getTxmap hr hpkt hout)
  | getChildren block =>
    exact (x.finished_getChildren h hpeer).2 ⟨r, hr, hpkt, hout⟩ hfinished
  | getTxInBlock block shard txoff =>
    exact (x.finished_getTxInBlock hC h hpeer).2 hqueued hfinished
  | getTx sha => exact (x.finished_getTx hC h hpeer).2 hqueued hfinished

omit [Digest D] in
theorem recvChildren_meanwhile (h : TodoOk t) (hpeer : peer ∈ t.connected) {pkt : PktChildren D}
    {e : Ecode} (ht' : recvChildren s t peer pkt = .ok (t', e)) : Meanwhile peer t t' := by
  have hblocks : ∀ {t₁ : TodoState D Q}, Meanwhile peer t t₁ →
      recvChildrenBlocks s t₁ peer pkt = .ok (t', e) → Meanwhile peer t t' := by
    intro t₁ hm ht'
    unfold recvChildrenBlocks at ht'
    dsimp only at ht'
    split_ifs at ht'
    · exact (Prod.mk.inj (Except.ok.inj ht')).1 ▸ hm
    · obtain ⟨t₂, happly, ht'⟩ := of_bind_eq_ok ht'
      obtain rfl := (Prod.mk.inj (Except.ok.inj ht')).1
      have hloop : ∀ {t₃ : TodoState D Q}, Meanwhile peer t t₃ →
          (TodoOp.done peer (.getChildren pkt.block) true).apply t₃ = .ok t₂ → Meanwhile peer t t₂ :=
        fun hm₃ happly => .step (.done peer (.getChildren pkt.block) true) hm₃ trivial
          (hm₃.stillWired h hpeer).connected happly
      cases hlist : pkt.blocks with
      | nil =>
        rw [hlist] at happly
        exact hloop hm happly
      | cons first rest =>
        rw [hlist] at happly
        exact hloop (hm.trans (recvChildrenLoop_meanwhile s _ _)) happly
  have hsame : ∀ {e' : Ecode}, (.ok (t, e') : Except TodoFault (TodoState D Q × Ecode))
      = .ok (t', e) → Meanwhile peer t t' := by
    intro e' heq
    exact (Prod.mk.inj (Except.ok.inj heq)).1 ▸ .refl
  unfold recvChildren at ht'
  by_cases hshort : pkt.len.toNat < sizeofPktChildren
  · rw [if_pos hshort] at ht'
    exact hsame ht'
  rw [if_neg hshort] at ht'
  cases hfind : blockFindAny s pkt.block with
  | none =>
    rw [hfind] at ht'
    exact hsame ht'
  | some b =>
    rw [hfind] at ht'
    dsimp only at ht'
    split_ifs at ht'
    · exact hsame ht'
    · exact hsame ht'
    · obtain ⟨t₁, happly, ht'⟩ := of_bind_eq_ok ht'
      exact hblocks (.step (.done peer (.getChildren pkt.block) false) .refl trivial hpeer happly) ht'
    · exact hblocks .refl ht'

/-- To deal with a reply does not ask the peer. -/
theorem finishReply_meanwhile (h : TodoOk t) (hpeer : peer ∈ t.connected)
    (ht' : finishReply E.crypto s t peer reply = some t') : Meanwhile peer t t' := by
  have hcalls : ∀ calls : Done D, (finishTodos t peer calls).toOption = some t' →
      Meanwhile peer t t' := by
    intro calls hrun
    obtain ⟨t'', ht'', hm⟩ := finishTodos_run h hpeer calls
    rw [ht''] at hrun
    obtain rfl := Option.some.inj hrun
    exact hm
  unfold finishReply at ht'
  cases reply with
  | block q =>
    obtain ⟨calls, -, ht'⟩ := Option.bind_eq_some_iff.mp ht'
    exact hcalls calls ht'
  | shard pkt =>
    obtain ⟨calls, -, ht'⟩ := Option.bind_eq_some_iff.mp ht'
    exact hcalls calls ht'
  | txmap err block shard map =>
    obtain rfl := Option.some.inj ht'
    unfold recvTxmap
    split
    · exact meanwhile_add _
    · rename_i b _
      dsimp only
      split_ifs
      · exact .refl
      · exact .refl
      · generalize List.range (s.shardOf b shard.toNat).size = offs
        clear ht' hcalls h hpeer
        induction offs generalizing t with
        | nil => exact .refl
        | cons i rest ih =>
          rw [List.foldl_cons]
          refine Meanwhile.trans ?_ ih
          split_ifs
          · exact meanwhile_add _
          · exact .refl
  | children pkt =>
    obtain ⟨⟨t'', e⟩, hok, rfl⟩ := Option.map_eq_some_iff.mp ht'
    exact recvChildren_meanwhile h hpeer (eq_ok_of_toOption hok)
  | _ => exact hcalls _ ht'

omit [Digest D] [DecidableEq D] in
theorem StillWired.trans {t₁ : TodoState D Q} (h : StillWired peer t t₁)
    (h' : StillWired peer t₁ t') : StillWired peer t t' where
  ok := h'.ok
  connected := h'.connected
  noneNew r' hr' hout := by
    obtain ⟨r₁, hr₁, hpkt₁, hout₁⟩ := h'.noneNew r' hr' hout
    obtain ⟨r, hr, hpkt, hout⟩ := h.noneNew r₁ hr₁ hout₁
    exact ⟨r, hr, hpkt.trans hpkt₁, hout⟩
  accounted hacc := h'.accounted (h.accounted hacc)

/-- **Over a run**, no request is outstanding for the peer that it has replied to. -/
theorem Replied.stillWired (hreplied : Replied E peer t pkts t')
    (hC : Function.Injective E.crypto.doubleSha)
    (h : TodoOk t) (hpeer : peer ∈ t.connected) :
    StillWired peer t t' ∧ ∀ r' ∈ t'.todo, r'.outstanding peer = true → r'.pkt ∉ pkts := by
  induction hreplied with
  | nil hm => exact ⟨hm.stillWired h hpeer, fun _ _ _ => List.not_mem_nil⟩
  | cons hm x hserves hreply _ ih =>
    have hbefore := hm.stillWired h hpeer
    obtain ⟨hgoes, hfinish⟩ := recvReply_eq_some.mp hreply
    obtain ⟨t₂, ht₂, hretired⟩ := x.retired hC hbefore.ok hbefore.connected hserves hgoes
    obtain rfl := Option.some.inj (hreply.symm.trans ht₂)
    have hafter := (finishReply_meanwhile hbefore.ok hbefore.connected hfinish).stillWired
      hbefore.ok hbefore.connected
    obtain ⟨hrest, hnot⟩ := ih hafter.ok hafter.connected
    refine ⟨(hbefore.trans hafter).trans hrest, fun r' hr' hout hmem => ?_⟩
    rcases List.mem_cons.mp hmem with heq | hmem
    · obtain ⟨r, hr, hpkt, hout'⟩ := hrest.noneNew r' hr' hout
      exact Bool.false_ne_true ((hretired.notAwaited r hr (hpkt.trans heq)).symm.trans hout')
    · exact hnot r' hr' hout hmem

omit [Digest D] in
/-- The counts are right if no request was dropped. -/
theorem accounted_of_run {run : List (TodoState D Q × TodoOp D Q)} (hrun : TodoRun run t)
    (hno : ∀ step ∈ run, ∀ block : D, step.2 ≠ .forget block) : Accounted t := by
  induction hrun with
  | start => exact fun _ hp => absurd hp List.not_mem_nil
  | step op hrun hadm happly ih =>
    refine (accounted_step (todoOk_of_run hrun)
      (ih fun step hstep => hno step (List.mem_append_left _ hstep)) hadm happly).mpr fun hleak => ?_
    cases op with
    | forget block => exact hno _ (List.mem_append_right _ (List.mem_singleton_self _)) block rfl
    | _ => exact hleak

/-- **When a reply retires its request.** In every state of the requests that a run reaches,
a request outstanding for a peer is retired by the peer's reply exactly if the reply serves
and the program goes on; and once the replies have come to all requests outstanding for the
peer, and have all served, the syncing with it is over. -/
theorem request_retired_iff (hC : Function.Injective E.crypto.doubleSha)
    {run : List (TodoState D Q × TodoOp D Q)} (hrun : TodoRun run t) :
    (∀ {s p : State D} {pkt : TodoPkt D} {reply : Reply D} {peer : Fin maxPeers}
      {r : TodoRequest D} (weAreSyncing : Bool), Exchange E s p pkt reply → r ∈ t.todo →
      r.pkt = pkt → r.outstanding peer = true →
      (Retired E weAreSyncing s t peer pkt reply ↔
        ReplyServes E.crypto s p pkt ∧ GoesOn E weAreSyncing s peer reply)) ∧
    ∀ {peer : Fin maxPeers} {pkts : List (TodoPkt D)} {t' : TodoState D Q},
      (∀ step ∈ run, ∀ block : D, step.2 ≠ .forget block) → peer ∈ t.connected →
      (∀ r ∈ t.todo, r.outstanding peer = true → r.pkt ∈ pkts) → Replied E peer t pkts t' →
      ∀ q ∈ t'.peers, q.peerNum = peer → finishedSyncing true q = true := by
  have hok := todoOk_of_run hrun
  constructor
  · intro s p pkt reply peer r weAreSyncing x hr hpkt hout
    have hpeer : peer ∈ t.connected := by
      refine hok.asked_connected r hr peer ?_
      unfold TodoRequest.outstanding at hout
      exact (Bool.and_eq_true_iff.mp hout).1
    exact ⟨fun hretired => ⟨x.serves hC hok hpeer hr hpkt hout hretired,
      (retired_iff_finished.mp hretired).1⟩, fun h => x.retired hC hok hpeer h.1 h.2⟩
  · rintro peer pkts t' hno hpeer hall hreplied q hq rfl
    obtain ⟨hwired, hnot⟩ := hreplied.stillWired hC hok hpeer
    have hnone : t'.outstanding q.peerNum = 0 := by
      refine List.countP_eq_zero.mpr fun r' hr' hout => ?_
      obtain ⟨r, hr, hpkt, hout'⟩ := hwired.noneNew r' hr' hout
      exact hnot r' hr' hout (hpkt ▸ hall r hr hout')
    have hcount := hwired.accounted (accounted_of_run hrun hno) q hq
    unfold finishedSyncing
    rw [Bool.true_and, beq_iff_eq]
    exact UInt32.toNat_inj.mp (hcount.trans hnone)

end

-- ---------------------------------------------------------------------------
-- An exchange
-- ---------------------------------------------------------------------------

/-- A peer is asked for this. -/
def askedFor (pkt : TodoPkt IdealDigest) : TodoState IdealDigest Unit :=
  ((TodoState.init.allocPeer.newTodoRequest pkt).getTodoPkt ⟨firstPeer, 0, []⟩).1

/-- The request, as it stands then. -/
def askedRequest (pkt : TodoPkt IdealDigest) : TodoRequest IdealDigest :=
  ⟨pkt, Function.update (fun _ => false) firstPeer true, fun _ => false⟩

theorem todoRun_askedFor (pkt : TodoPkt IdealDigest) :
    ∃ run, TodoRun run (askedFor pkt) ∧ (∀ step ∈ run, ∀ block, step.2 ≠ .forget block) :=
  ⟨_, .step (.getPkt firstPeer) (.step (.add pkt) (.step .connect .start trivial rfl) trivial rfl)
    List.mem_cons_self rfl, by simp⟩

theorem hashedNode_find : blockFindAny hashedNode (hashBlock idealCrypto genesisParts) = some 0 := by
  decide +kernel

/-- A node asks another for the children of the genesis block. -/
theorem exchange_children : Exchange idealEnv hashedNode hashedNode
    (.getChildren (hashBlock idealCrypto genesisParts))
    (.children (newPktChildren (hashBlock idealCrypto genesisParts) [])) where
  reach := .start _ _ _ _ _ _
  peerReach := .start _ _ _ _ _ _
  genesis := ⟨genesisParts, ⟨rfl, rfl, rfl, rfl, rfl⟩, rfl⟩
  peerGenesis := ⟨genesisParts, ⟨rfl, rfl, rfl, rfl, rfl⟩, rfl⟩
  asked := Option.isSome_iff_exists.mpr ⟨0, hashedNode_find⟩
  sent := by
    refine ⟨fun _ => false, 0, hashedNode, ?_⟩
    show Except.ok (hashedNode, Except.ok (some (recvGetChildren hashedNode _))) = _
    unfold recvGetChildren
    rw [hashedNode_find]
    rfl

theorem serves_children : ReplyServes idealCrypto hashedNode hashedNode
    (.getChildren (hashBlock idealCrypto genesisParts)) := by
  refine ⟨0, hashedNode_find, ?_⟩
  show _ ≤ 44 % 2 ^ 32 ∧ (44 % 2 ^ 32 - _) % _ = 0
  decide

/-- A block on the genesis block that the peer has. -/
def exchangedBlock : BlockParts IdealDigest :=
  sampleBlock (hashBlock idealCrypto genesisParts) 1 4 []

/-- A node asks another for a block: its header passes. -/
theorem exchange_block : ∃ p : State IdealDigest,
    Exchange idealEnv hashedNode p (.getBlock (hashBlock idealCrypto exchangedBlock))
      (.block exchangedBlock) ∧
    ReplyServes idealCrypto hashedNode p (.getBlock (hashBlock idealCrypto exchangedBlock)) ∧
    GoesOn idealEnv true hashedNode firstPeer (.block exchangedBlock) := by
  have hrun : (nodeStep idealEnv hashedNode (sampleHeader exchangedBlock)).toOption.any (fun p =>
      decide (blockFindAny p (hashBlock idealCrypto exchangedBlock) = some 1) &&
        decide ((p.blk 0).sha = hashBlock idealCrypto genesisParts) &&
        decide ((p.blk 0).hdr = genesisParts.hdr) &&
        decide ((p.blk 0).shardNums = genesisParts.shardNums) &&
        decide ((p.blk 0).merkles = genesisParts.merkles) &&
        decide ((p.blk 0).prevTxhashes = genesisParts.prevTxhashes) &&
        decide ((p.blk 0).tailer = genesisParts.tailer)) = true := by
    decide +kernel
  have hheader : (checkBlockHeader idealCrypto hashedNode exchangedBlock).toOption
      = some (Ecode.none, some 0) := by
    decide +kernel
  have hhandled : (recvBlockFromPeer idealCrypto hashedNode ⟨firstPeer, true⟩
      exchangedBlock).toOption.isSome = true := by
    decide +kernel
  obtain ⟨p, hstep, hfacts⟩ := (Option.any_eq_true _ _).mp hrun
  simp only [Bool.and_eq_true, decide_eq_true_eq] at hfacts
  obtain ⟨⟨⟨⟨⟨⟨hfind, hsha⟩, hhdr⟩, hnums⟩, hmerkles⟩, hprevs⟩, htailer⟩ := hfacts
  have hstart : NodeReach idealEnv hashedNode := .start _ _ _ _ _ _
  have hreach : NodeReach idealEnv p := .step _ hstart (eq_ok_of_toOption hstep)
  have hgenesis : (p.blk 0).Hashed idealCrypto :=
    ⟨genesisParts, ⟨hhdr, hnums, hmerkles, hprevs, htailer⟩, hsha⟩
  have hof : (p.blk 1).IsOf exchangedBlock := by
    obtain ⟨hb, hsha⟩ := blockFindAny_spec hfind
    exact (hashed_of_nodeReach hreach hgenesis hb).isOf idealCrypto_injective hsha
  refine ⟨p, ⟨hstart, hreach, ⟨genesisParts, ⟨rfl, rfl, rfl, rfl, rfl⟩, rfl⟩, hgenesis, trivial,
    fun _ => false, 0, p, ?_⟩, fun b q hb hq => ⟨0, ?_⟩, ?_⟩
  · show recvGetBlock p _ = _
    unfold recvGetBlock
    simp only [hfind, hof.parts_eq, deref]
    rfl
  · obtain rfl : (1 : Nat) = b := Option.some.inj (hfind.symm.trans hb)
    obtain rfl := hof.unique hq
    exact eq_ok_of_toOption hheader
  · obtain ⟨r, hr⟩ := Option.isSome_iff_exists.mp hhandled
    exact ⟨r, eq_ok_of_toOption hr⟩

/-- The block that was asked for retires its request, and that there are no children theirs;
then the syncing is over. -/
theorem request_retired_iff_replies :
    (∃ p : State IdealDigest, Exchange idealEnv hashedNode p
      (.getBlock (hashBlock idealCrypto exchangedBlock)) (.block exchangedBlock) ∧
      Retired idealEnv true hashedNode (askedFor (.getBlock (hashBlock idealCrypto exchangedBlock)))
        firstPeer (.getBlock (hashBlock idealCrypto exchangedBlock)) (.block exchangedBlock)) ∧
    ∃ t', Replied idealEnv firstPeer
      (askedFor (.getChildren (hashBlock idealCrypto genesisParts)))
      [.getChildren (hashBlock idealCrypto genesisParts)] t' ∧
      ∀ q ∈ t'.peers, q.peerNum = firstPeer → finishedSyncing true q = true := by
  have hmem : ∀ pkt, askedRequest pkt ∈ (askedFor pkt).todo :=
    fun pkt => List.mem_singleton_self _
  have hout : ∀ pkt, (askedRequest pkt).outstanding firstPeer = true := fun _ => rfl
  constructor
  · obtain ⟨p, hexchange, hserves, hgoes⟩ := exchange_block
    obtain ⟨run, hrun, -⟩ := todoRun_askedFor (.getBlock (hashBlock idealCrypto exchangedBlock))
    have hiff := @request_retired_iff _ _ _ _ idealEnv _ idealCrypto_injective run hrun
    exact ⟨p, hexchange, (hiff.1 true hexchange (hmem _) rfl (hout _)).mpr ⟨hserves, hgoes⟩⟩
  · obtain ⟨run, hrun, hno⟩ := todoRun_askedFor (.getChildren (hashBlock idealCrypto genesisParts))
    have hiff := @request_retired_iff _ _ _ _ idealEnv _ idealCrypto_injective run hrun
    obtain ⟨t', ht', -⟩ := (hiff.1 true exchange_children (hmem _) rfl (hout _)).mpr
      ⟨serves_children, _, rfl⟩
    have hreplied : Replied idealEnv firstPeer
        (askedFor (.getChildren (hashBlock idealCrypto genesisParts)))
        [.getChildren (hashBlock idealCrypto genesisParts)] t' :=
      .cons .refl exchange_children serves_children ht' (.nil .refl)
    refine ⟨t', hreplied, hiff.2 hno (List.mem_singleton_self _) (fun r hr _ => ?_) hreplied⟩
    obtain rfl := List.mem_singleton.mp hr
    exact List.mem_singleton_self _

end Pettycoin
