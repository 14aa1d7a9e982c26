import Pettycoin.Recv

/-!
# Pettycoin — receiving complaints

`recv_complain.c`, and the handlers of `peer.c` for reports about transactions
that may not be in a block (`recv_tx_bad_input`, `recv_tx_bad_amount`,
`recv_tx_doublespend`).

A handler takes what its packet unmarshals to, and what `unmarshal_proven_tx`
makes of each transaction with a proof. A handler of a complaint comes to a
`Verdict`, which `runVerdict` carries out.

* `unmarshalAndCheckBadAmount` — the inputs of a transaction, added up;
* `complainDoublespendVerdict`, `complainClaimVerdict` — two of the verdicts;
* `recvTxDoublespend` — the loop that starts over.
-/

namespace Pettycoin

open ExceptRules

variable {D : Type} [Digest D] [DecidableEq D]

-- ---------------------------------------------------------------------------
-- Transactions with a proof
-- ---------------------------------------------------------------------------

/-- The end of `unmarshal_proven_tx`, once the bytes are taken apart: the block. -/
def provenTxBlock (C : Crypto D) (s : State D) (t : ProvenTx D) : Except Ecode BlockId :=
  match blockFindAny s t.proof.pos.block with
  | none => .error .unknownBlock
  | some b =>
    match checkTx C s t.tx (some b) with
    | .none => if checkProof C t.proof (s.blk b) t.tx t.refs then .ok b else .error .badProof
    | e => .error e

/-- What a handler of a complaint decides. -/
inductive Verdict (D : Type)
  /-- Return an error to the peer. -/
  | refuse (e : Ecode)
  /-- `todo_add_get_block`: the block is not known. -/
  | askFor (block : D)
  /-- `publish_complaint`. -/
  | publish (block : BlockId)
deriving DecidableEq

/-- Carry out a verdict about a complaint. -/
def runVerdict (E : Env D) (s : State D) (peer : Peer) (complaint : Complaint D) :
    Verdict D → Res (State D × Ecode)
  | .refuse e => .ok (s, e)
  | .askFor block => .ok (s.emit (.todoAddGetBlock block), .none)
  | .publish block => do
    let s ← publishComplaint E s block complaint (some peer.id)
    .ok (s, .none)

/-- Go on with the block of a transaction, or ask for it. -/
def withBlock (t : ProvenTx D) (b : Except Ecode BlockId) (next : BlockId → Verdict D) :
    Verdict D :=
  match b with
  | .ok b => next b
  | .error .unknownBlock => .askFor t.proof.pos.block
  | .error e => .refuse e

-- ---------------------------------------------------------------------------
-- recv_complain.c
-- ---------------------------------------------------------------------------

/-- `verify_problem_input()`: the verdict on the input, and its amount. -/
def verifyProblemInput (E : Env D) (tx : Tx D) (inputNum : Nat) (inTx : Tx D) :
    Except Ecode (InputEcode × UInt32) :=
  if txType tx = .claim then .error .badInputnum
  else
    match txInput tx inputNum, getTxInputAddress E.crypto tx with
    | some inp, some addr =>
      if inp.input ≠ hashTx E.crypto inTx then .error .badInput
      else
        match checkSimpleInput E inp inTx addr with
        | some amount => .ok (.ok, amount)
        | none => .ok (.bad, 0)
    | _, _ => .error .badInputnum

/-- The loop of `unmarshal_and_check_bad_amount`, from input `i` on. It stops at the
end of the packet, or when there is one for each input. -/
def badAmountTotal (E : Env D) (s : State D) (tx : Tx D) :
    List (Tx D) → Nat → UInt32 → Except Ecode UInt32
  | [], _, total => .ok total
  | inTx :: rest, i, total =>
    match checkTx E.crypto s inTx none with
    | .none =>
      match verifyProblemInput E tx i inTx with
      | .error e => .error e
      | .ok (.ok, amount) => badAmountTotal E s tx rest (i + 1) (total + amount)
      | .ok _ => .error .badInput
    | e => .error e

/-- `unmarshal_and_check_bad_amount()`: `.none` if the inputs do not add up. The
fee is not counted. -/
def unmarshalAndCheckBadAmount (E : Env D) (s : State D) (tx : Tx D) (inputs : List (Tx D)) :
    Ecode :=
  if numInputs tx = 0 then .badInputnum
  else
    match badAmountTotal E s tx (inputs.take (numInputs tx)) 0 0 with
    | .error e => e
    | .ok total =>
      if inputs.length ≠ numInputs tx then .invalidLen
      else if total = txAmountSent tx then .complaintInvalid
      else .none

/-- `recv_complain_tx_misorder()`. -/
def complainTxMisorderVerdict (E : Env D) (t1 t2 : ProvenTx D) (b1 b2 : Except Ecode BlockId) :
    Verdict D :=
  withBlock t1 b1 fun _ =>
    match b2 with
    | .error e => .refuse e
    | .ok b2 =>
      let pos1 := t1.proof.pos
      let pos2 := t2.proof.pos
      if pos1.block ≠ pos2.block then .refuse .badMisorderPos
      else if pos1.shard ≠ pos2.shard then .refuse .badMisorderPos
      else if pos1.txoff < pos2.txoff then
        if txCmp E.crypto E.past t1.tx t2.tx = .lt then .refuse .complaintInvalid
        else .publish b2
      else if pos1.txoff > pos2.txoff then
        if txCmp E.crypto E.past t1.tx t2.tx = .gt then .refuse .complaintInvalid
        else .publish b2
      else .refuse .badMisorderPos

/-- What `recv_complain_tx_invalid` has of a transaction that may be malformed:
its bytes, and what `unmarshal_tx` makes of them. -/
structure TxBlob (D : Type) where
  bytes : List UInt8
  unmarshalled : Except Ecode (Tx D)

/-- `recv_complain_tx_invalid()`. The refs are what is left of the packet, and the
packet is refused unless nothing is. -/
def complainTxInvalidVerdict (C : Crypto D) (s : State D) (error : Ecode) (proof : Proof D)
    (tx : TxBlob D) (refs : List UInt8) : Verdict D :=
  match blockFindAny s proof.pos.block with
  | none => .askFor proof.pos.block
  | some b =>
    let e :=
      match tx.unmarshalled with
      | .error e => e
      | .ok tx => checkTx C s tx (some b)
    if e = .none then .refuse .complaintInvalid
    else if refs.length ≠ 0 then .refuse .invalidLen
    else if e ≠ error then .refuse .complaintInvalid
    else if !checkProofByhash C proof (s.blk b) ⟨C.doubleSha tx.bytes, C.doubleSha refs⟩ then
      .refuse .badProof
    else .publish b

/-- `recv_complain_tx_bad_input()`. -/
def complainTxBadInputVerdict (E : Env D) (s : State D) (inputnum : Nat) (t : ProvenTx D)
    (inTx : Tx D) (b : Except Ecode BlockId) : Verdict D :=
  withBlock t b fun b =>
    match checkTx E.crypto s inTx none with
    | .none =>
      match verifyProblemInput E t.tx inputnum inTx with
      | .error e => .refuse e
      | .ok (.ok, _) => .refuse .complaintInvalid
      | .ok _ => .publish b
    | e => .refuse e

/-- `recv_complain_tx_bad_amount()`. -/
def complainTxBadAmountVerdict (E : Env D) (s : State D) (t : ProvenTx D) (inputs : List (Tx D))
    (b : Except Ecode BlockId) : Verdict D :=
  withBlock t b fun b =>
    match unmarshalAndCheckBadAmount E s t.tx inputs with
    | .none => .publish b
    | e => .refuse e

/-- `recv_complain_doublespend()`. -/
def complainDoublespendVerdict (s : State D) (input1 input2 : Nat) (t1 t2 : ProvenTx D)
    (b1 b2 : Except Ecode BlockId) : Verdict D :=
  withBlock t1 b1 fun b1 =>
    match txInput t1.tx input1 with
    | none => .refuse .badInputnum
    | some inp1 =>
      withBlock t2 b2 fun b2 =>
        match txInput t2.tx input2 with
        | none => .refuse .badInputnum
        | some inp2 =>
          if !sameOutput inp1 inp2 then .refuse .badInput
          else if !blockPreceeds s b1 b2 then .refuse .badDoublespendBlocks
          else .publish b2

/-- `recv_complain_bad_input_ref()`. -/
def complainBadInputRefVerdict (C : Crypto D) (s : State D) (inputnum : Nat)
    (t input : ProvenTx D) (b inb : Except Ecode BlockId) : Verdict D :=
  withBlock t b fun b =>
    match txInput t.tx inputnum, t.refs[inputnum]? with
    | some inp, some ref =>
      withBlock input inb fun inb =>
        if blockAncestor s b ref.blocksAgo.toNat ≠ some inb then .refuse .badInput
        else if input.proof.pos.shard ≠ ref.shard then .refuse .badInput
        else if input.proof.pos.txoff ≠ ref.txoff then .refuse .badInput
        else if inp.input = hashTx C input.tx then .refuse .complaintInvalid
        else .publish b
    | _, _ => .refuse .badInputnum

/-- The claim of `recv_complain_claim_input_invalid` is right after all. -/
def claimIsValid (C : Crypto D) (s : State D) (claim reward : ProvenTx D) (claimB rewardB : BlockId)
    (inp : Input D) (addr : Address) : Res Bool := do
  let pos := reward.proof.pos
  let amount ← checkClaimInput C s claimB inp rewardB pos.shard.toNat pos.txoff.toNat reward.tx
    addr
  .ok (amount.any (correctAmount claim.tx ·))

/-- `recv_complain_claim_input_invalid()`. -/
def complainClaimVerdict (C : Crypto D) (s : State D) (claim reward : ProvenTx D)
    (claimB rewardB : Except Ecode BlockId) : Res (Verdict D) :=
  match claimB, rewardB with
  | .ok claimB, .ok rewardB =>
    match claim.tx with
    | .claim t => do
      if t.input.input ≠ hashTx C reward.tx then .ok (.refuse .complaintInvalid)
      else
        let valid ← claimIsValid C s claim reward claimB rewardB t.input
          (C.pubkeyToAddr t.inputKey)
        .ok (if valid then .refuse .complaintInvalid else .publish claimB)
    | _ => .ok (.refuse .complaintInvalid)
  | .ok _, rewardB => .ok (withBlock reward rewardB fun _ => .refuse .complaintInvalid)
  | claimB, _ => .ok (withBlock claim claimB fun _ => .refuse .complaintInvalid)

-- ---------------------------------------------------------------------------
-- Reports about transactions
-- ---------------------------------------------------------------------------

/-- Complain about each block a bad transaction is in. -/
def complainInBlocks (C : Crypto D) (complain : State D → BlockId → ProvenTx D → Res (State D))
    (tx : Tx D) : List (TxhashElem D) → State D → Res (State D)
  | [], s => .ok s
  | te :: rest, s =>
    match te.loc with
    | .pending _ => complainInBlocks C complain tx rest s
    | .inBlock b shard txoff =>
      if s.txhash.contains te then do
        let proof ← createProof C s b shard txoff
        let refs ← deref (blockGetRefs s b shard txoff)
        let s ← complain s b ⟨proof, tx, refs⟩
        complainInBlocks C complain tx rest s
      else complainInBlocks C complain tx rest s

/-- `recv_tx_bad_input()`. -/
def recvTxBadInput (E : Env D) (s : State D) (inputnum : Nat) (tx inTx : Tx D) :
    Res (State D × Ecode) := do
  let e := checkTx E.crypto s tx none
  if e ≠ .none then .ok (s, e)
  else
    let e := checkTx E.crypto s inTx none
    if e ≠ .none then .ok (s, e)
    else
      match verifyProblemInput E tx inputnum inTx with
      | .error e => .ok (s, e)
      | .ok (.ok, _) => .ok (s, .complaintInvalid)
      | .ok _ => do
        let s ← complainInBlocks E.crypto
          (fun s b t => complainBadInput E s b t inputnum inTx) tx
          (txhashVals s (hashTx E.crypto tx)) s
        let s ← dropPendingTx E s tx
        .ok (s, .none)

/-- `recv_tx_bad_amount()`: the inputs it complains with are never set. -/
def recvTxBadAmount (E : Env D) (s : State D) (tx : Tx D) (inputs : List (Tx D)) :
    Res (State D × Ecode) := do
  let e := checkTx E.crypto s tx none
  if e ≠ .none then .ok (s, e)
  else
    let e := unmarshalAndCheckBadAmount E s tx inputs
    if e ≠ .none then .ok (s, e)
    else
      let s ← complainInBlocks E.crypto (fun _ _ _ => .error .uninitialised) tx
        (txhashVals s (hashTx E.crypto tx)) s
      let s ← dropPendingTx E s tx
      .ok (s, .none)

/-- `struct protocol_pkt_tx_doublespend`, taken apart. -/
structure PktTxDoublespend (D : Type) where
  input1 : Nat
  input2 : Nat
  txA : Tx D
  txB : Tx D

/-- `te1` or `te2` of `recv_tx_doublespend`, with the transaction and the input. -/
structure SpendAt (D : Type) where
  block : BlockId
  shardnum : Nat
  txoff : Nat
  input : Nat
  tx : Tx D

/-- What the inner loop of `recv_tx_doublespend` makes of two elements: the two
sides, the earlier one first. -/
def spendSides (s : State D) (pkt : PktTxDoublespend D) (teA teB : TxhashElem D) :
    Option (SpendAt D × SpendAt D) :=
  match teA.loc, teB.loc with
  | .inBlock ba sharda txoffa, .inBlock bb shardb txoffb =>
    let a : SpendAt D := ⟨ba, sharda, txoffa, pkt.input1, pkt.txA⟩
    let b : SpendAt D := ⟨bb, shardb, txoffb, pkt.input2, pkt.txB⟩
    if blockPreceeds s ba bb then some (a, b)
    else if blockPreceeds s bb ba then some (b, a)
    else none
  | _, _ => none

/-- The first pair of elements, in the order of the two loops of
`recv_tx_doublespend`, that is on one chain. -/
def nextSpends (C : Crypto D) (s : State D) (pkt : PktTxDoublespend D) :
    Option (SpendAt D × SpendAt D) :=
  (txhashVals s (hashTx C pkt.txA)).findSome? fun teA =>
    (txhashVals s (hashTx C pkt.txB)).findSome? fun teB => spendSides s pkt teA teB

/-- One side as `complain_doublespend` takes it. -/
def spendOf (C : Crypto D) (s : State D) (side : SpendAt D) : Res (Spend D) := do
  let proof ← createProof C s side.block side.shardnum side.txoff
  .ok { block := side.block, input := side.input, proof := proof, tx := side.tx
        refs := blockGetRefs s side.block side.shardnum side.txoff }

/-- The call of `complain_doublespend` that one turn of the loop makes, if any. -/
def doublespendCall (C : Crypto D) (s : State D) (pkt : PktTxDoublespend D) :
    Res (Option (Spend D × Spend D)) :=
  match nextSpends C s pkt with
  | none => .ok none
  | some (one, two) => do
    let one ← spendOf C s one
    let two ← spendOf C s two
    .ok (some (one, two))

/-- The loop of `recv_tx_doublespend`: `goto again` after every complaint. Each
takes an element out of `txhash` unless the block has a complaint already, and
then nothing changes any more. -/
def complainDoublespends (E : Env D) (pkt : PktTxDoublespend D) :
    Nat → State D → Res (State D)
  | 0, _ => .error .diverges
  | fuel + 1, s => do
    match ← doublespendCall E.crypto s pkt with
    | none => .ok s
    | some (one, two) => do
      let s ← complainDoublespend E s one two
      complainDoublespends E pkt fuel s

/-- The checks of `recv_tx_doublespend`. -/
def checkPktTxDoublespend (C : Crypto D) (s : State D) (pkt : PktTxDoublespend D) : Ecode :=
  match checkTx C s pkt.txA none with
  | .none =>
    match txInput pkt.txA pkt.input1 with
    | none => .badInputnum
    | some inpA =>
      match checkTx C s pkt.txB none with
      | .none =>
        match txInput pkt.txB pkt.input2 with
        | none => .badInputnum
        | some inpB => if sameOutput inpA inpB then .none else .badInput
      | e => e
  | e => e

/-- `recv_tx_doublespend()` drops both transactions from pending. -/
def dropBoth (E : Env D) (s : State D) (pkt : PktTxDoublespend D) : Res (State D) := do
  let s ← dropPendingTx E s pkt.txA
  dropPendingTx E s pkt.txB

/-- `recv_tx_doublespend()`. -/
def recvTxDoublespend (E : Env D) (s : State D) (pkt : PktTxDoublespend D) :
    Res (State D × Ecode) := do
  let e := checkPktTxDoublespend E.crypto s pkt
  if e ≠ .none then .ok (s, e)
  else
    let s ← dropBoth E s pkt
    let s ← complainDoublespends E pkt (s.txhash.length + 1) s
    .ok (s, .badInput)

end Pettycoin
