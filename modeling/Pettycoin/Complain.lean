import Pettycoin.Pending

/-!
# Pettycoin — complaints

`complain.c`: a block found invalid takes its descendants with it, its
transactions go back to pending, and the heads are recalculated.

* `complaintOnAll` — the recursion over the blocks below;
* `publishComplaint` — what is done once a complaint is made;
* `complainDoublespend`, `complainMisorder` — two of the complaints, which look up
  what they show.
-/

namespace Pettycoin

open ExceptRules

variable {D : Type} [Digest D] [DecidableEq D]

/-- The places in a block, in order. -/
def blockPlaces (b : Block D) : List (Nat × Nat) :=
  (List.range b.numShards).flatMap fun shard =>
    (List.range (b.shardSize shard)).map fun txoff => (shard, txoff)

/-- What `complaint_on_all` does to the block itself. -/
def complaintOn (E : Env D) (complaint : Complaint D) (s : State D) (block : BlockId) :
    Res (State D) :=
  let s := s.modBlock block fun blk => { blk with complaint := some complaint }
  let s := blockToPending s block
  (blockPlaces (s.blk block)).foldlM
    (fun s place => removeTxFromHashes E s block place.1 place.2) s

/-- `complaint_on_all()`. -/
def complaintOnAll (E : Env D) (complaint : Complaint D) :
    Nat → State D → BlockId → Res (State D)
  | 0, s, _ => .ok s
  | fuel + 1, s, block => do
    let s ← complaintOn E complaint s block
    (s.children block).foldlM (complaintOnAll E complaint fuel) s

/-- `publish_complaint()`. A block that has a complaint already keeps it. -/
def publishComplaint (E : Env D) (s : State D) (block : BlockId) (complaint : Complaint D)
    (origin : Option Nat) : Res (State D) := do
  if (s.blk block).complaint.isSome then .ok s
  else
    let s ← complaintOnAll E complaint s.numBlocks s block
    let s ← recheckPendingTxs E s
    let s ← updateBlockPtrsInvalidated s block
    .ok (s.emit (.broadcastToPeers complaint origin))

/-- `assert(ptr)`, and what it points to. -/
def deref {α : Type} : Option α → Res α
  | some a => .ok a
  | none => .error .nullPointer

/-- The transaction at a place with its refs and a proof of it. -/
def provenTxAt (C : Crypto D) (s : State D) (b : BlockId) (shard txoff : Nat) :
    Res (ProvenTx D) := do
  let proof ← createProof C s b shard txoff
  let tx ← deref (blockGetTx s b shard txoff)
  let refs ← deref (blockGetRefs s b shard txoff)
  .ok ⟨proof, tx, refs⟩

/-- `complain_bad_input()`. -/
def complainBadInput (E : Env D) (s : State D) (block : BlockId) (tx : ProvenTx D)
    (badInput : Nat) (intx : Tx D) : Res (State D) := do
  let _ ← deref (txInput tx.tx badInput)
  publishComplaint E s block (.txBadInput badInput tx intx) none

/-- `complain_bad_amount()`. -/
def complainBadAmount (E : Env D) (s : State D) (block : BlockId) (tx : ProvenTx D)
    (intx : List (Tx D)) : Res (State D) :=
  publishComplaint E s block (.txBadAmount tx intx) none

/-- `complain_misorder()`: `tx` is misordered against the one at `conflictTxoff`. -/
def complainMisorder (E : Env D) (s : State D) (block : BlockId) (tx : ProvenTx D)
    (conflictTxoff : Nat) : Res (State D) := do
  let conflict ← provenTxAt E.crypto s block tx.proof.pos.shard.toNat conflictTxoff
  publishComplaint E s block (.txMisorder tx conflict) none

/-- `complain_bad_input_ref()`: `tx.refs[badRefnum]` names the wrong transaction.
What is there may be known as a hash only, and then there is nothing to show. -/
def complainBadInputRef (E : Env D) (s : State D) (block : BlockId) (tx : ProvenTx D)
    (badRefnum : Nat) (blockReferredTo : BlockId) : Res (State D) := do
  let badRef ← deref tx.refs[badRefnum]?
  let input ← provenTxAt E.crypto s blockReferredTo badRef.shard.toNat badRef.txoff.toNat
  publishComplaint E s block (.badInputRef badRefnum tx input) none

/-- A side of `complain_doublespend`. -/
structure Spend (D : Type) where
  block : BlockId
  input : Nat
  proof : Proof D
  tx : Tx D
  /-- `NULL` for a place known as a hash. -/
  refs : Option (List InputRef)

/-- `complain_doublespend()`: the first block comes first, so the second is bad. -/
def complainDoublespend (E : Env D) (s : State D) (one two : Spend D) : Res (State D) := do
  assert (blockPreceeds s one.block two.block) .doublespendOrder
  let refs1 ← deref one.refs
  let refs2 ← deref two.refs
  publishComplaint E s two.block
    (.doublespend one.input two.input ⟨one.proof, one.tx, refs1⟩ ⟨two.proof, two.tx, refs2⟩)
    none

/-- `complain_bad_claim()`. -/
def complainBadClaim (E : Env D) (s : State D) (claimBlock : BlockId) (claim : ProvenTx D)
    (rewardBlock : BlockId) (rewardShard rewardTxoff : Nat) : Res (State D) := do
  let reward ← provenTxAt E.crypto s rewardBlock rewardShard rewardTxoff
  publishComplaint E s claimBlock (.claimInputInvalid claim reward) none

end Pettycoin
