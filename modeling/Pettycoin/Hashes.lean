import Pettycoin.Chain

/-!
# Pettycoin — the two hash tables

`txhash.c`, `inputhash.c` and `tx_in_hashes.c`: which transaction is where, and
which transaction spends which output.

`txhash_gettx` and `txhash_tx` assert that a recorded slot is not empty. They
are plain functions here: the assertion holds in every state a node reaches
(`TxhashSound`).

* `txhashGettxAncestor` — the transaction a block builds on;
* `addTxToHashes`, `removeTxFromHashes` — a slot is filled, a block is out;
* `txhashGetPendingTx` — a transaction that is in no block.
-/

namespace Pettycoin

variable {D : Type} [Digest D] [DecidableEq D]

-- ---------------------------------------------------------------------------
-- txhash.c
-- ---------------------------------------------------------------------------

/-- `enum tx_status`, as `txhash_gettx` takes it. -/
inductive TxStatus
  | inBlock
  | pending
deriving DecidableEq

/-- What `txhash_firstval` and `txhash_nextval` go through. -/
def txhashVals (s : State D) (sha : D) : List (TxhashElem D) :=
  s.txhash.filter fun te => te.sha == sha

/-- `txhash_gettx()`: the transaction itself, whichever block it is in. With
`.inBlock` a pending one does not count. -/
def txhashGettx (s : State D) (sha : D) (status : TxStatus) : Option (Tx D) :=
  (txhashVals s sha).findSome? fun te =>
    match te.loc with
    | .pending tx => if status = .inBlock then none else some tx
    | .inBlock b shard txoff => blockGetTx s b shard txoff

/-- What `txhash_del_tx` compares: the block and the place in it, or the bytes. -/
def sameWhere : TxWhere D → TxWhere D → Bool
  | .inBlock b shard txoff, .inBlock b' shard' txoff' =>
    b == b' && shard == shard' && txoff == txoff'
  | .pending tx, .pending tx' => marshalTx tx == marshalTx tx'
  | _, _ => false

/-- `txhash_del_tx()`: delete the first element met that is the one meant. -/
def txhashDelTx (s : State D) (loc : TxWhere D) (sha : D) : State D :=
  { s with txhash := s.txhash.eraseP fun te => te.sha == sha && sameWhere te.loc loc }

/-- `txhash_add_tx()`. -/
def txhashAddTx (E : Env D) (s : State D) (loc : TxWhere D) (sha : D) : State D :=
  { s with txhash := E.txLayout.add s.txhash ⟨sha, loc⟩ }

-- ---------------------------------------------------------------------------
-- inputhash.c
-- ---------------------------------------------------------------------------

/-- What `inputhash_firstval` and `inputhash_nextval` go through. -/
def inputhashVals (s : State D) (tx : D) (outputNum : UInt16) : List (InputhashElem D) :=
  s.inputhash.filter fun ie => ie.tx == tx && ie.outputNum == outputNum

/-- `inputhash_add_tx()`. -/
def inputhashAddTx (E : Env D) (s : State D) (onPending : Bool) (tx : Tx D) : State D :=
  (txInputs tx).foldl
    (fun s inp =>
      { s with inputhash := E.inputLayout.add s.inputhash
                ⟨inp.input, inp.output, hashTx E.crypto tx, onPending⟩ })
    s

/-- `inputhash_del_tx()`: for each input, one element of this transaction. -/
def inputhashDelTx (E : Env D) (s : State D) (tx : Tx D) : State D :=
  (txInputs tx).foldl
    (fun s inp =>
      { s with inputhash := s.inputhash.eraseP fun ie =>
                ie.tx == inp.input && ie.outputNum == inp.output
                  && ie.usedBy == hashTx E.crypto tx })
    s

-- ---------------------------------------------------------------------------
-- tx_in_hashes.c
-- ---------------------------------------------------------------------------

/-- `add_txhash_to_hashes()`. -/
def addTxhashToHashes (E : Env D) (s : State D) (b : BlockId) (shard txoff : Nat)
    (txhash : D) : State D :=
  txhashAddTx E s (.inBlock b shard txoff) txhash

/-- The inputs are recorded when the transaction is first heard of. -/
def recordInputs (E : Env D) (s : State D) (onPending : Bool) (tx : Tx D) : State D :=
  if (txhashGettx s (hashTx E.crypto tx) .pending).isNone then inputhashAddTx E s onPending tx
  else s

/-- `add_tx_to_hashes()`. -/
def addTxToHashes (E : Env D) (s : State D) (b : BlockId) (shard txoff : Nat)
    (tx : Tx D) : State D :=
  addTxhashToHashes E (recordInputs E s false tx) b shard txoff (hashTx E.crypto tx)

/-- `upgrade_tx_in_hashes()`. It is called with the hash of the transaction. -/
def upgradeTxInHashes (E : Env D) (s : State D) (tx : Tx D) : State D :=
  recordInputs E s false tx

/-- Drop the inputs of a transaction that is no longer known at all. -/
def forgetInputs (E : Env D) (s : State D) (tx : Tx D) : State D :=
  if (txhashGettx s (hashTx E.crypto tx) .pending).isNone then inputhashDelTx E s tx else s

/-- `remove_tx_from_hashes()`. An empty slot is hashed as a transaction. -/
def removeTxFromHashes (E : Env D) (s : State D) (b : BlockId) (shard txoff : Nat) :
    Res (State D) :=
  match (s.shardOf b shard).u txoff with
  | .tx tx _ =>
    .ok (forgetInputs E (txhashDelTx s (.inBlock b shard txoff) (hashTx E.crypto tx)) tx)
  | .hash h => .ok (txhashDelTx s (.inBlock b shard txoff) h.txhash)
  | .unknown => .error .unknownSlot

/-- `txhash_get_pending_tx()`. -/
def txhashGetPendingTx (s : State D) (sha : D) : Option (Tx D) :=
  (txhashVals s sha).findSome? fun te =>
    match te.loc with
    | .pending tx => some tx
    | .inBlock _ _ _ => none

/-- `add_pending_tx_to_hashes()`. -/
def addPendingTxToHashes (E : Env D) (s : State D) (tx : Tx D) : Res (State D) := do
  let txhash := hashTx E.crypto tx
  assert (txhashGetPendingTx s txhash).isNone .pendingTwice
  .ok (txhashAddTx E (recordInputs E s true tx) (.pending tx) txhash)

/-- `remove_pending_tx_from_hashes()`. -/
def removePendingTxFromHashes (E : Env D) (s : State D) (tx : Tx D) : State D :=
  forgetInputs E (txhashDelTx s (.pending tx) (hashTx E.crypto tx)) tx

/-- `txhash_gettx_ancestor()`: the first element in a block at or before `b`. -/
def txhashGettxAncestor (s : State D) (sha : D) (b : BlockId) :
    Option (BlockId × Nat × Nat) :=
  (txhashVals s sha).findSome? fun te =>
    match te.loc with
    | .pending _ => none
    | .inBlock b' shard txoff => if blockPreceeds s b' b then some (b', shard, txoff) else none

/-- `txhash_tx()`. -/
def txhashTx (s : State D) (te : TxhashElem D) : Option (Tx D) :=
  match te.loc with
  | .inBlock b shard txoff => txFor (s.shardOf b shard) txoff
  | .pending tx => some tx

end Pettycoin
