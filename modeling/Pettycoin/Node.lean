import Pettycoin.RecvComplain

/-!
# Pettycoin — the node

`pkt_in` of `peer.c`, `sendrawtransaction.c`, and the states a node can come to:
it starts with the genesis block (`new_state`, an empty block file), and then
packets from peers, blocks from its generator, transactions from the command
line and the clock move it on, in any order.

* `pktIn` — a packet from a peer;
* `sendrawtransaction` — a transaction from the command line;
* `nodeStep`, `NodeReach` — an event, and the states that events lead to.
-/

namespace Pettycoin

open ExceptRules

variable {D : Type} [Digest D] [DecidableEq D]

/-- The packets that bring in blocks, transactions and complaints, taken apart. -/
inductive Packet (D : Type)
  | block (p : BlockParts D)
  | tx (tx : Tx D)
  | hashesInBlock (pkt : HashProof D)
  | shard (pkt : PktShard D)
  | txInBlock (t : ProvenTx D)
  | txBadInput (inputnum : Nat) (tx inTx : Tx D)
  | txBadAmount (tx : Tx D) (inputs : List (Tx D))
  | txDoublespend (pkt : PktTxDoublespend D)
  | complainTxMisorder (t1 t2 : ProvenTx D)
  | complainTxInvalid (error : Ecode) (proof : Proof D) (tx : TxBlob D) (refs : List UInt8)
  | complainTxBadInput (inputnum : Nat) (t : ProvenTx D) (inTx : Tx D)
  | complainTxBadAmount (t : ProvenTx D) (inputs : List (Tx D))
  | complainDoublespend (input1 input2 : Nat) (t1 t2 : ProvenTx D)
  | complainBadInputRef (inputnum : Nat) (t input : ProvenTx D)
  | complainClaimInputInvalid (claim reward : ProvenTx D)

/-- The complaint a packet stands for when it is passed on. A transaction that
could not be unmarshalled is only its bytes. -/
def invalidTxComplaint (error : Ecode) (proof : Proof D) (tx : TxBlob D) : Complaint D :=
  match tx.unmarshalled with
  | .ok tx => .txInvalid error ⟨proof, tx, []⟩
  | .error _ => .txMalformed error proof tx.bytes

/-- The `switch` of `pkt_in`. -/
def recvPacket (E : Env D) (s : State D) (peer : Peer) (pkt : Packet D) :
    Res (State D × Ecode) :=
  let C := E.crypto
  match pkt with
  | .block p => recvBlockFromPeer C s peer p
  | .tx tx => recvTx E s peer tx
  | .hashesInBlock pkt => recvHashesInBlock E s peer pkt
  | .shard pkt => recvShard E s (some peer) pkt
  | .txInBlock t => recvTxInBlock E s (some peer) t
  | .txBadInput inputnum tx inTx => recvTxBadInput E s inputnum tx inTx
  | .txBadAmount tx inputs => recvTxBadAmount E s tx inputs
  | .txDoublespend pkt => recvTxDoublespend E s pkt
  | .complainTxMisorder t1 t2 =>
    runVerdict E s peer (.txMisorder t1 t2)
      (complainTxMisorderVerdict E t1 t2 (provenTxBlock C s t1) (provenTxBlock C s t2))
  | .complainTxInvalid error proof tx refs =>
    runVerdict E s peer (invalidTxComplaint error proof tx)
      (complainTxInvalidVerdict C s error proof tx refs)
  | .complainTxBadInput inputnum t inTx =>
    runVerdict E s peer (.txBadInput inputnum t inTx)
      (complainTxBadInputVerdict E s inputnum t inTx (provenTxBlock C s t))
  | .complainTxBadAmount t inputs =>
    runVerdict E s peer (.txBadAmount t inputs)
      (complainTxBadAmountVerdict E s t inputs (provenTxBlock C s t))
  | .complainDoublespend input1 input2 t1 t2 =>
    runVerdict E s peer (.doublespend input1 input2 t1 t2)
      (complainDoublespendVerdict s input1 input2 t1 t2 (provenTxBlock C s t1)
        (provenTxBlock C s t2))
  | .complainBadInputRef inputnum t input =>
    runVerdict E s peer (.badInputRef inputnum t input)
      (complainBadInputRefVerdict C s inputnum t input (provenTxBlock C s t)
        (provenTxBlock C s input))
  | .complainClaimInputInvalid claim reward => do
    let verdict ← complainClaimVerdict C s claim reward (provenTxBlock C s claim)
      (provenTxBlock C s reward)
    runVerdict E s peer (.claimInputInvalid claim reward) verdict

/-- `pkt_in()`: after a packet that is fine, pending is rechecked if need be. -/
def pktIn (E : Env D) (s : State D) (peer : Peer) (pkt : Packet D) :
    Res (State D × Ecode) := do
  let (s, e) ← recvPacket E s peer pkt
  if e ≠ .none then .ok (s, e)
  else
    let s ← recheckPendingTxs E s
    .ok (s, .none)

/-- `json_sendrawtransaction()`: `false` if the transaction is refused. -/
def sendrawtransaction (E : Env D) (s : State D) (tx : Tx D) : Res (State D × Bool) := do
  if checkTx E.crypto s tx none ≠ .none then .ok (s, false)
  else
    let (s, r) ← addPendingTx E s tx
    match r.ierr with
    | .ok => .ok (s.emit (.sendTxToPeers none tx), true)
    | .unknown => do
      let inp ← deref (txInput tx r.badInputNum)
      .ok ((s.emit (.todoAddGetTx inp.input)).emit (.sendTxToPeers none tx), true)
    | _ => .ok (s, false)

/-- What can happen to a node. -/
inductive NodeEvent (D : Type)
  | packet (peer : Peer) (pkt : Packet D)
  | generator (p : BlockParts D) (shards : List (PktShard D))
  | sendrawtransaction (tx : Tx D)
  | clock (now : UInt32)

/-- The node deals with an event. -/
def nodeStep (E : Env D) (s : State D) : NodeEvent D → Res (State D)
  | .packet peer pkt => do
    let (s, _) ← pktIn E s peer pkt
    .ok s
  | .generator p shards => do
    let (s, _) ← recvBlockFromGenerator E s p shards
    .ok s
  | .sendrawtransaction tx => do
    let (s, _) ← sendrawtransaction E s tx
    .ok s
  | .clock now => .ok { s with now := now }

/-- The node handles these events one after the other. -/
def nodeRun (E : Env D) (s : State D) (events : List (NodeEvent D)) : Res (State D) :=
  events.foldlM (nodeStep E) s

/-- `--require-fees` and `--require-gateway-fees`. -/
structure FeeOptions where
  requireFees : Bool
  requireGatewayFees : Bool

/-- The node when it is up: the block file was empty, and is written from now on. -/
def startNode (genesis : Block D) (now : UInt32) (opts : FeeOptions) : State D :=
  { newState genesis now with
    saving := true
    requireNonGatewayTxFee := opts.requireFees
    requireGatewayTxFee := opts.requireGatewayFees }

/-- The states a node reaches. -/
inductive NodeReach (E : Env D) : State D → Prop
  | start (sha merkle : D) (nonce2 : Bytes 13) (tailer : BlockTailer) (now : UInt32)
      (opts : FeeOptions) :
    NodeReach E (startNode (genesisBlock sha merkle nonce2 tailer) now opts)
  | step {s s' : State D} (event : NodeEvent D) :
    NodeReach E s → nodeStep E s event = .ok s' → NodeReach E s'

end Pettycoin
