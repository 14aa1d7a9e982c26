import Pettycoin.Protocol

/-!
# Pettycoin — transactions

`tx.h`, `tx.c`, `hash_tx.c`, `signature.c`, `shard.h`, `shard.c` and
`tx_cmp.c`: the accessors of a transaction, the bytes it occupies, what is
hashed of it and how transactions are ordered and sharded.

`findOutput`, `shardOfTx` and `txCmp` index the payments that follow a gateway
transaction without (or with an off-by-one) bound check. What memory holds
there is the parameter `past`, one payment's worth of bytes for each
transaction.

* `marshalTx`, `hashTx`, `sighashTx` — the bytes, and what is hashed of them;
* `txAmountSent`, `findOutput` — what is sent, and to whom;
* `shardOfTx`, `txCmp` — where a transaction belongs.
-/

namespace Pettycoin

variable {D : Type} [Digest D]

-- ---------------------------------------------------------------------------
-- Layout
-- ---------------------------------------------------------------------------

/-- The bytes of a `struct protocol_input`. -/
def marshalInput (i : Input D) : List UInt8 :=
  Digest.bytes i.input ++ le16 i.output ++ le16 i.unused

/-- The bytes of a `struct protocol_gateway_payment`. -/
def marshalPayment (p : GatewayPayment) : List UInt8 :=
  le32 p.sendAmount ++ p.outputAddr.1

/-- The bytes of a `struct protocol_signature`. -/
def marshalSignature (s : Signature) : List UInt8 := s.r.1 ++ s.s.1

/-- The bytes of a `struct protocol_input_ref`. -/
def marshalInputRef (r : InputRef) : List UInt8 :=
  le32 r.blocksAgo ++ le16 r.shard ++ [r.txoff, r.unused]

/-- The number `hdr.type` carries for each kind of transaction. -/
def TxType.toByte : TxType → UInt8
  | .normal => 0
  | .fromGateway => 1
  | .toGateway => 2
  | .claim => 3

/-- `hdr.type`: the kind, with `PROTOCOL_FEE_TYPE` set when the fee is paid. -/
def typeByte (type : TxType) (paysFee : Bool) : UInt8 :=
  type.toByte ||| (if paysFee then 0x80 else 0)

/-- The bytes before the signature. -/
def marshalTxHead : Tx D → List UInt8
  | .normal t =>
    [t.version, typeByte .normal t.paysFee, t.features] ++ t.inputKey.1
      ++ t.outputAddr.1 ++ le32 t.sendAmount ++ le32 t.changeAmount
      ++ le32 (UInt32.ofNat t.inputs.length)
  | .fromGateway t =>
    [t.version, typeByte .fromGateway t.paysFee, t.features] ++ t.gatewayKey.1
      ++ le16 (UInt16.ofNat t.outputs.length) ++ le16 t.unused
  | .toGateway t =>
    [t.version, typeByte .toGateway t.paysFee, t.features] ++ t.inputKey.1
      ++ t.toGatewayAddr.1 ++ le32 t.sendAmount ++ le32 t.changeAmount
      ++ le32 (UInt32.ofNat t.inputs.length)
  | .claim t =>
    [t.version, typeByte .claim t.paysFee, t.features] ++ t.inputKey.1
      ++ le32 t.amount ++ marshalInput t.input

/-- The records after the signature. -/
def marshalTxTail : Tx D → List UInt8
  | .normal t => t.inputs.flatMap marshalInput
  | .fromGateway t => t.outputs.flatMap marshalPayment
  | .toGateway t => t.inputs.flatMap marshalInput
  | .claim _ => []

/-- `get_signature()`. -/
def getSignature : Tx D → Signature
  | .normal t => t.signature
  | .fromGateway t => t.signature
  | .toGateway t => t.signature
  | .claim t => t.signature

/-- The memory a transaction occupies: `marshal_tx_len` bytes. -/
def marshalTx (tx : Tx D) : List UInt8 :=
  marshalTxHead tx ++ marshalSignature (getSignature tx) ++ marshalTxTail tx

/-- The refs that follow a transaction in a block. -/
def marshalRefs (refs : List InputRef) : List UInt8 := refs.flatMap marshalInputRef

-- ---------------------------------------------------------------------------
-- Accessors
-- ---------------------------------------------------------------------------

/-- `tx_type()`. -/
def txType : Tx D → TxType
  | .normal _ => .normal
  | .fromGateway _ => .fromGateway
  | .toGateway _ => .toGateway
  | .claim _ => .claim

/-- `tx_pays_fee()`. -/
def txPaysFee : Tx D → Bool
  | .normal t => t.paysFee
  | .fromGateway t => t.paysFee
  | .toGateway t => t.paysFee
  | .claim t => t.paysFee

/-- The inputs `tx_input()` indexes. -/
def txInputs : Tx D → List (Input D)
  | .normal t => t.inputs
  | .fromGateway _ => []
  | .toGateway t => t.inputs
  | .claim t => [t.input]

/-- `num_inputs()`. -/
def numInputs (tx : Tx D) : Nat := (txInputs tx).length

/-- `tx_input()`: `none` is `NULL`. -/
def txInput (tx : Tx D) (num : Nat) : Option (Input D) := (txInputs tx)[num]?

/-- `num_outputs()`. -/
def numOutputs : Tx D → Nat
  | .normal _ => 2
  | .fromGateway t => t.outputs.length
  | .toGateway _ => 0
  | .claim _ => 1

/-- `get_tx_input_address()`: it aborts (`none`) on a `TX_FROM_GATEWAY`. -/
def getTxInputAddress (C : Crypto D) : Tx D → Option Address
  | .normal t => some (C.pubkeyToAddr t.inputKey)
  | .fromGateway _ => none
  | .toGateway t => some (C.pubkeyToAddr t.inputKey)
  | .claim t => some (C.pubkeyToAddr t.inputKey)

/-- `tx_amount_sent()`, summed in 32 bits. -/
def txAmountSent : Tx D → UInt32
  | .normal t => t.sendAmount + t.changeAmount
  | .fromGateway t => t.outputs.foldl (fun total out => total + out.sendAmount) 0
  | .toGateway t => t.sendAmount + t.changeAmount
  | .claim t => t.amount

/-- `get_from_gateway_outputs(tx)[i]`: beyond the payments, whatever is there. -/
def gatewayOutput (past : TxFromGateway → GatewayPayment) (t : TxFromGateway)
    (i : Nat) : GatewayPayment :=
  t.outputs[i]?.getD (past t)

/-- `find_output()`: the address and amount of an output. A gateway payment is
looked up for every number up to and including `num_outputs`. -/
def findOutput (C : Crypto D) (past : TxFromGateway → GatewayPayment) (tx : Tx D)
    (outputNum : UInt16) : Option (Address × UInt32) :=
  match tx with
  | .fromGateway t =>
    if outputNum.toNat > t.outputs.length then none
    else
      let out := gatewayOutput past t outputNum.toNat
      some (out.outputAddr, out.sendAmount)
  | .normal t =>
    if outputNum = 0 then some (t.outputAddr, t.sendAmount)
    else if outputNum = 1 then some (C.pubkeyToAddr t.inputKey, t.changeAmount)
    else none
  | .claim t =>
    if outputNum = 0 then some (C.pubkeyToAddr t.inputKey, t.amount) else none
  | .toGateway _ => none

/-- Two inputs name the same output of the same transaction. -/
def sameOutput [DecidableEq D] (a b : Input D) : Bool :=
  a.input == b.input && a.output == b.output

/-- `find_matching_input()`: which input spends that output; it aborts (`none`)
when no input does. -/
def findMatchingInput [DecidableEq D] (tx : Tx D) (inp : Input D) : Option Nat :=
  (txInputs tx).findIdx? (sameOutput · inp)

-- ---------------------------------------------------------------------------
-- Hashing and signatures
-- ---------------------------------------------------------------------------

/-- `hash_tx()`. -/
def hashTx (C : Crypto D) (tx : Tx D) : D := C.doubleSha (marshalTx tx)

/-- `hash_refs()`. -/
def hashRefs (C : Crypto D) (refs : List InputRef) : D := C.doubleSha (marshalRefs refs)

/-- `hash_tx_and_refs()`. -/
def hashTxAndRefs (C : Crypto D) (tx : Tx D) (refs : List InputRef) : TxRefHash D :=
  ⟨hashTx C tx, hashRefs C refs⟩

/-- `sighash_tx()`: everything but the signature. -/
def sighashTx (C : Crypto D) (tx : Tx D) : D :=
  C.doubleSha (marshalTxHead tx ++ marshalTxTail tx)

/-- `check_tx_sign()`: `S` must be even, and the signature must verify. -/
def checkTxSign (C : Crypto D) (tx : Tx D) (key : Pubkey) : Bool :=
  let signature := getSignature tx
  (signature.s.1[31]?.getD 0 &&& 1 == 0) && C.ecdsaVerify (sighashTx C tx) key signature

-- ---------------------------------------------------------------------------
-- Shards and order
-- ---------------------------------------------------------------------------

/-- `shard_of()`: the top `shard_order` bits of the address. -/
def shardOf (addr : Address) (shardOrder : UInt8) : Nat :=
  ((addr.1[0]?.getD 0).toNat * 256 + (addr.1[1]?.getD 0).toNat)
    >>> (16 - shardOrder.toNat)

/-- The address a transaction is ordered and sharded by. -/
def txHomeAddress (C : Crypto D) (past : TxFromGateway → GatewayPayment) :
    Tx D → Address
  | .normal t => C.pubkeyToAddr t.inputKey
  | .toGateway t => C.pubkeyToAddr t.inputKey
  | .claim t => C.pubkeyToAddr t.inputKey
  | .fromGateway t => (gatewayOutput past t 0).outputAddr

/-- `shard_of_tx()`. -/
def shardOfTx (C : Crypto D) (past : TxFromGateway → GatewayPayment) (tx : Tx D)
    (shardOrder : UInt8) : Nat :=
  shardOf (txHomeAddress C past tx) shardOrder

/-- `memcmp()` over the shorter of two areas. -/
def memcmp : List UInt8 → List UInt8 → Ordering
  | x :: xs, y :: ys => (compare x y).then (memcmp xs ys)
  | _, _ => .eq

/-- `tx_cmp()`: by address, then by bytes, the shorter first. -/
def txCmp (C : Crypto D) (past : TxFromGateway → GatewayPayment) (a b : Tx D) : Ordering :=
  ((memcmp (txHomeAddress C past a).1 (txHomeAddress C past b).1).then
    (memcmp (marshalTx a) (marshalTx b))).then
    (compare (marshalTx a).length (marshalTx b).length)

end Pettycoin
