import Pettycoin.CheckTx

/-!
# Pettycoin — input references and pending transactions

`input_refs.c`, `create_refs.c` and `pending.c`. The network is the test
network.

* `createRefs`, `checkRefs` — refs, as they are made and as they are checked;
* `addPendingTx`, `insertPendingTx` — a transaction is taken in;
* `recheckPendingTxs` — all of them are taken in once more;
* `dropPendingTx` — one of them is dropped.
-/

namespace Pettycoin

open ExceptRules

variable {D : Type} [Digest D] [DecidableEq D]

-- ---------------------------------------------------------------------------
-- input_refs.c
-- ---------------------------------------------------------------------------

/-- `check_ref()`. -/
def checkRef (s : State D) (block : BlockId) (ref : InputRef) : Ecode :=
  match blockAncestor s block ref.blocksAgo.toNat with
  | none => .refBadBlocksAgo
  | some b =>
    if (s.blk b).tailer.timestamp + protocolTxHorizonSecs true < (s.blk block).tailer.timestamp
    then .refBadBlocksAgo
    else if ref.shard.toNat ≥ (s.blk b).numShards then .refBadShard
    else if ref.txoff.toNat ≥ (s.blk b).shardSize ref.shard.toNat then .refBadTxoff
    else .none

/-- `check_refs()`: the first error. -/
def checkRefs (s : State D) (block : BlockId) (refs : List InputRef) : Ecode :=
  ((refs.map (checkRef s block)).find? (· ≠ .none)).getD .none

/-- What is at the place a ref names. -/
def referredTo (C : Crypto D) (s : State D) (block : BlockId) (ref : InputRef) :
    Option (BlockId × Option (TxRefHash D)) :=
  (blockAncestor s block ref.blocksAgo.toNat).map fun b =>
    (b, txrefhashInShard C (s.shardOf b ref.shard.toNat) ref.txoff.toNat)

/-- The loop of `check_tx_refs`, from ref `i` on; `unknown` is the last one that
names a place not known. -/
def checkTxRefsFrom (C : Crypto D) (s : State D) (block : BlockId) :
    List (Input D × InputRef) → (i : Nat) → (unknown : Option (Nat × BlockId)) →
    Res (RefEcode × Option (Nat × BlockId))
  | [], _, none => .ok (.ok, none)
  | [], _, some bad => .ok (.unknown, some bad)
  | (inp, ref) :: rest, i, unknown =>
    match referredTo C s block ref with
    | none => .error .nullPointer
    | some (b, none) => checkTxRefsFrom C s block rest (i + 1) (some (i, b))
    | some (b, some h) =>
      if h.txhash ≠ inp.input then .ok (.badHash, some (i, b))
      else checkTxRefsFrom C s block rest (i + 1) unknown

/-- `check_tx_refs()`, with the number of the bad ref and the block it names. -/
def checkTxRefs (C : Crypto D) (s : State D) (block : BlockId) (tx : Tx D)
    (refs : List InputRef) : Res (RefEcode × Option (Nat × BlockId)) := do
  assert (checkRefs s block refs = .none) .checkTxRefs
  checkTxRefsFrom C s block ((txInputs tx).zip refs) 0 none

-- ---------------------------------------------------------------------------
-- create_refs.c
-- ---------------------------------------------------------------------------

/-- `CLOSE_TO_HORIZON`. -/
def closeToHorizon : UInt32 := 3600

/-- `resolve_input()`. -/
def resolveInput (s : State D) (prevBlock : BlockId) (inp : Input D) (offset : UInt32) :
    Option InputRef :=
  match txhashGettxAncestor s inp.input prevBlock with
  | none => none
  | some (b, shard, txoff) =>
    if (s.blk b).tailer.timestamp + protocolTxHorizonSecs true - closeToHorizon < s.now then none
    else
      some { blocksAgo := (s.blk prevBlock).hdr.depth - (s.blk b).hdr.depth + offset
             shard := UInt16.ofNat shard, txoff := UInt8.ofNat txoff, unused := 0 }

/-- `create_refs()`: `NULL` (`none`) unless every input is found. -/
def createRefs (s : State D) (block : BlockId) (tx : Tx D) (offset : UInt32) :
    Option (List InputRef) :=
  (txInputs tx).mapM fun inp => resolveInput s block inp offset

-- ---------------------------------------------------------------------------
-- pending.c
-- ---------------------------------------------------------------------------

/-- The shards of the pending block: `ARRAY_SIZE(pending->pend)`. -/
def pendShards : Nat := 2 ^ protocolInitialShardOrder.toNat

/-- The binary search of `find_pending_in_arr` between `pos` and `stop`. When it
finds the transaction, `pos` is still where the search had narrowed to. -/
def findPendingFrom (E : Env D) (pend : List (PendingTx D)) (tx : Tx D) :
    Nat → Nat → Nat → Bool × Nat
  | 0, pos, _ => (false, pos)
  | fuel + 1, pos, stop =>
    if pos < stop then
      let halfway := (pos + stop) / 2
      match pend[halfway]? with
      | none => (false, pos)
      | some p =>
        match txCmp E.crypto E.past tx p.tx with
        | .lt => findPendingFrom E pend tx fuel pos halfway
        | .gt => findPendingFrom E pend tx fuel (halfway + 1) stop
        | .eq => (true, pos)
    else (false, pos)

/-- `find_pending_in_arr()`: whether it is there, and if not, where it belongs. -/
def findPendingInArr (E : Env D) (pend : List (PendingTx D)) (tx : Tx D) : Bool × Nat :=
  findPendingFrom E pend tx (pend.length + 1) 0 pend.length

/-- Replace one array of the pending block. -/
def setPend (s : State D) (shard : Nat) (pend : List (PendingTx D)) : State D :=
  s.modPending fun p => { p with pend := Function.update p.pend shard pend }

/-- `insert_pending_tx()`: `false` when no refs can be made. -/
def insertPendingTx (E : Env D) (s : State D) (tx : Tx D) : Res (State D × Bool) := do
  let known := s.longestKnowns.headD 0
  let shard := shardOfTx E.crypto E.past tx (nextShardOrder known)
  let pend := s.pending.pend shard
  if pend.length = 255 then .ok (addToUnknownPending s tx, true)
  else
    let (found, pos) := findPendingInArr E pend tx
    assert (!found) .pendingTwice
    match createRefs s known tx 1 with
    | none => .ok (s, false)
    | some refs =>
      let s := setPend s shard (pend.insertIdx pos ⟨tx, refs⟩)
      .ok (s.emit (.tellGeneratorNewPending shard pos), true)

/-- `find_pending_doublespend()`. -/
def findPendingDoublespend (s : State D) (tx : Tx D) : Bool :=
  (txInputs tx).any fun inp =>
    (inputhashVals s inp.input inp.output).any fun ie =>
      (txhashGetPendingTx s ie.usedBy).isSome

/-- What `add_pending_tx` returns. -/
structure AddPending where
  ierr : InputEcode
  badInputNum : Nat
  /-- `too_old`, when it is set. -/
  tooOld : Option Bool
deriving DecidableEq

/-- A transaction that does not pay the fee the node requires. -/
def dropsFeeless (s : State D) (tx : Tx D) : Bool :=
  match txType tx with
  | .fromGateway => s.requireGatewayTxFee && !txPaysFee tx
  | _ => s.requireNonGatewayTxFee && !txPaysFee tx

/-- The end of `add_pending_tx`: the transaction, with inputs that are fine
(`.ok`) or unknown, is put into pending. -/
def keepPendingTx (E : Env D) (s : State D) (tx : Tx D) (ierr : InputEcode)
    (badInputNum : Nat) : Res (State D × AddPending) := do
  if dropsFeeless s tx then .ok (s, ⟨.ok, badInputNum, none⟩)
  else
    let (s, kept) ←
      if ierr = .unknown then .ok (addToUnknownPending s tx, true) else insertPendingTx E s tx
    if !kept then .ok (s, ⟨.bad, badInputNum, some true⟩)
    else
      let s ← addPendingTxToHashes E s tx
      .ok (s, ⟨ierr, badInputNum, none⟩)

/-- `add_pending_tx()`. -/
def addPendingTx (E : Env D) (s : State D) (tx : Tx D) : Res (State D × AddPending) := do
  let sha := hashTx E.crypto tx
  let known := s.longestKnowns.headD 0
  if (txhashGettxAncestor s sha known).isSome then .ok (s, ⟨.ok, 0, none⟩)
  else if (txhashGetPendingTx s sha).isSome then .ok (s, ⟨.ok, 0, none⟩)
  else
    let (ierr, badInputNum) ← checkTxInputs E s known none tx
    let ierr := if ierr = .ok && findPendingDoublespend s tx then .doublespend else ierr
    match ierr with
    | .ok | .unknown => keepPendingTx E s tx ierr badInputNum
    | _ => .ok (s, ⟨ierr, badInputNum, some false⟩)

/-- `num_pending_known()`. -/
def numPendingKnown (s : State D) : Nat :=
  ((List.range pendShards).map fun shard => (s.pending.pend shard).length).sum

/-- Everything pending, in the order `recheck_pending_txs` collects it. -/
def pendingTxs (p : PendingBlock D) : List (Tx D) :=
  (List.range pendShards).flatMap (fun shard => (p.pend shard).map PendingTx.tx) ++ p.unknownTx

/-- The pending block is freed, and with it every element allocated on it. -/
def freePending (s : State D) : State D :=
  { s with
    pending := newPendingBlock
    txhash := s.txhash.filter fun te =>
      match te.loc with
      | .pending _ => false
      | .inBlock _ _ _ => true
    inputhash := s.inputhash.filter fun ie => !ie.onPending }

/-- `recheck_pending_txs()`: take everything out of pending and add it again. -/
def recheckPendingTxs (E : Env D) (s : State D) : Res (State D) := do
  if !s.pending.needsRecheck then .ok s
  else
    let s := s.modPending fun p => { p with needsRecheck := false }
    if s.pending.numUnknown = 0 && numPendingKnown s = 0 then .ok s
    else
      let txs := pendingTxs s.pending
      let s := freePending (txs.foldl (removePendingTxFromHashes E) s)
      let s ← txs.foldlM (fun s tx => do
        let (s, _) ← addPendingTx E s tx
        .ok s) s
      .ok (s.emit .restartGenerating)

/-- `drop_pending_tx()`: off the lists; the hash tables keep it. -/
def dropPendingTx (E : Env D) (s : State D) (tx : Tx D) : Res (State D) :=
  if (txhashGetPendingTx s (hashTx E.crypto tx)).isNone then .ok s
  else
    let shard := shardOfTx E.crypto E.past tx (nextShardOrder (s.longestKnowns.headD 0))
    let pend := s.pending.pend shard
    let (found, pos) := findPendingInArr E pend tx
    if found then .ok ((setPend s shard (pend.eraseIdx pos)).emit .restartGenerating)
    else if s.pending.unknownTx.any fun tx' => marshalTx tx' == marshalTx tx then
      .ok (s.modPending fun p =>
        { p with
          unknownTx := p.unknownTx.eraseP fun tx' => marshalTx tx' == marshalTx tx
          numUnknown := p.numUnknown - 1 })
    else .error .pendingMissing

end Pettycoin
