import Mathlib.Algebra.Order.Ring.Nat
import Mathlib.Data.List.Basic

/-!
# Pettycoin — the protocol's data

The structures of `protocol.h` and `protocol_ecode.h`, with the constants the
node's logic reads. Fixed-width fields keep their widths. A field that counts
the records following a structure (`num_inputs`, `num_outputs`) is the length
of the list that holds those records, so that a count which disagrees with its
records cannot be written down.

Two things come from outside the repository and are parameters:

* `Digest` — the 32 bytes of a double SHA256. Only what the node relies on is
  kept: a digest is written as bytes, where one ends in a message is determined
  by the bytes, and single bytes of it can be looked at. The real digests are `Bytes 32`
  (`instDigestBytes`).
* `Crypto` — SHA256 applied twice, `pubkey_to_addr` (SHA256 then RIPEMD160)
  and the ECDSA verification, all from OpenSSL.
-/

namespace Pettycoin

-- ---------------------------------------------------------------------------
-- Bytes
-- ---------------------------------------------------------------------------

/-- A field of exactly `n` bytes. -/
abbrev Bytes (n : Nat) := { l : List UInt8 // l.length = n }

/-- `n` zero bytes. -/
def Bytes.zero (n : Nat) : Bytes n := ⟨List.replicate n 0, List.length_replicate⟩

/-- `le16` on the wire. -/
def le16 (x : UInt16) : List UInt8 := [x.toUInt8, (x >>> 8).toUInt8]

/-- `le32` on the wire. -/
def le32 (x : UInt32) : List UInt8 :=
  [x.toUInt8, (x >>> 8).toUInt8, (x >>> 16).toUInt8, (x >>> 24).toUInt8]

@[simp] theorem le16_length (x : UInt16) : (le16 x).length = 2 := rfl
@[simp] theorem le32_length (x : UInt32) : (le32 x).length = 4 := rfl

-- ---------------------------------------------------------------------------
-- Digests and the cryptography the node calls
-- ---------------------------------------------------------------------------

/-- `struct protocol_double_sha`: a digest, as it is written into messages. -/
class Digest (D : Type) where
  bytes : D → List UInt8
  /-- All zero bytes: what `merkle_recurse` pads a shard with. -/
  zero : D
  /-- `sha[i]`. -/
  sha : D → Nat → UInt8
  /-- A reader of a message knows where a digest ends and what it was. -/
  bytes_append_inj : ∀ {a b : D} {x y : List UInt8},
    bytes a ++ x = bytes b ++ y → a = b ∧ x = y

/-- The digests of the running program: `u8 sha[SHA256_DIGEST_LENGTH]`. -/
instance instDigestBytes : Digest (Bytes 32) where
  bytes d := d.1
  zero := Bytes.zero 32
  sha d i := d.1[i]?.getD 0
  bytes_append_inj {a b x y} h := by
    obtain ⟨hab, hxy⟩ := List.append_inj h (a.2.trans b.2.symm)
    exact ⟨Subtype.ext hab, hxy⟩

/-- `struct protocol_address`: 20 bytes. -/
abbrev Address := Bytes 20

/-- `struct protocol_pubkey`: 33 bytes. -/
abbrev Pubkey := Bytes 33

/-- `struct protocol_signature`: `r` and `s`. -/
structure Signature where
  r : Bytes 32
  s : Bytes 32
deriving DecidableEq

/-- What the node takes from OpenSSL. -/
structure Crypto (D : Type) where
  /-- SHA256 of SHA256 of a message (`SHA256_Double_Final`). -/
  doubleSha : List UInt8 → D
  /-- RIPEMD160 of the SHA256 of a public key. -/
  pubkeyToAddr : Pubkey → Address
  /-- The curve point parses and the signature verifies for this digest. -/
  ecdsaVerify : D → Pubkey → Signature → Bool

-- ---------------------------------------------------------------------------
-- Constants
-- ---------------------------------------------------------------------------

/-- `PROTOCOL_PREV_BLOCK_TXHASHES`. -/
def protocolPrevBlockTxhashes : Nat := 10
/-- `PROTOCOL_INITIAL_SHARD_ORDER`. -/
def protocolInitialShardOrder : UInt8 := 2
/-- `PROTOCOL_TX_MAX_INPUTS`. -/
def protocolTxMaxInputs : Nat := 4
/-- `PROTOCOL_BLOCK_TARGET_TIME`: seconds between blocks. -/
def protocolBlockTargetTime (testNet : Bool) : UInt32 := if testNet then 10 else 600
/-- `PROTOCOL_TX_HORIZON_SECS`: how long until a transaction is obsolete. -/
def protocolTxHorizonSecs (testNet : Bool) : UInt32 :=
  protocolBlockTargetTime testNet * 60 * 24 * 30
/-- `PROTOCOL_REWARD_PERIOD`. -/
def protocolRewardPeriod : UInt32 := 100
/-- `PROTOCOL_MAX_SATOSHI`. -/
def protocolMaxSatoshi : UInt32 := 0x80000000 / 4
/-- `PROTOCOL_FEE(x)`, in the 32-bit arithmetic of its callers. -/
def protocolFee (x : UInt32) : UInt32 := x * 3 / 1024 + 1
/-- `PROTOCOL_REWARD(total, num_tx)`: 64-bit arithmetic, returned as 32 bits. -/
def protocolReward (total numTx : UInt32) : UInt32 :=
  ((total.toUInt64 * numTx.toUInt64 * 3 + 1024) / 1027).toUInt32

/-- `current_version()`. -/
def currentVersion : UInt8 := 1
/-- `version_ok()`. -/
def versionOk (version : UInt8) : Bool := version == currentVersion

-- ---------------------------------------------------------------------------
-- Transactions
-- ---------------------------------------------------------------------------

/-- `enum protocol_tx_type`. -/
inductive TxType
  | normal
  | fromGateway
  | toGateway
  | claim
deriving DecidableEq, Repr

/-- `struct protocol_input`: which output of which transaction is spent. -/
structure Input (D : Type) where
  input : D
  output : UInt16
  unused : UInt16
deriving DecidableEq

/-- `struct protocol_gateway_payment`. -/
structure GatewayPayment where
  sendAmount : UInt32
  outputAddr : Address
deriving DecidableEq

/-- `struct protocol_tx_normal` and the inputs that follow it. -/
structure TxNormal (D : Type) where
  version : UInt8
  /-- The top bit of `type`. -/
  paysFee : Bool
  features : UInt8
  inputKey : Pubkey
  outputAddr : Address
  sendAmount : UInt32
  changeAmount : UInt32
  signature : Signature
  inputs : List (Input D)
  numInputs_lt : inputs.length < 2 ^ 32
deriving DecidableEq

/-- `struct protocol_tx_from_gateway` and the payments that follow it. -/
structure TxFromGateway where
  version : UInt8
  paysFee : Bool
  features : UInt8
  gatewayKey : Pubkey
  unused : UInt16
  signature : Signature
  outputs : List GatewayPayment
  numOutputs_lt : outputs.length < 2 ^ 16
deriving DecidableEq

/-- `struct protocol_tx_to_gateway` and the inputs that follow it. -/
structure TxToGateway (D : Type) where
  version : UInt8
  paysFee : Bool
  features : UInt8
  inputKey : Pubkey
  toGatewayAddr : Address
  sendAmount : UInt32
  changeAmount : UInt32
  signature : Signature
  inputs : List (Input D)
  numInputs_lt : inputs.length < 2 ^ 32
deriving DecidableEq

/-- `struct protocol_tx_claim`. -/
structure TxClaim (D : Type) where
  version : UInt8
  paysFee : Bool
  features : UInt8
  inputKey : Pubkey
  amount : UInt32
  input : Input D
  signature : Signature
deriving DecidableEq

/-- `union protocol_tx`, discriminated by the low bits of `hdr.type`. -/
inductive Tx (D : Type)
  | normal (t : TxNormal D)
  | fromGateway (t : TxFromGateway)
  | toGateway (t : TxToGateway D)
  | claim (t : TxClaim D)
deriving DecidableEq

/-- `struct protocol_input_ref`: where in the chain an input's transaction is. -/
structure InputRef where
  blocksAgo : UInt32
  shard : UInt16
  txoff : UInt8
  unused : UInt8
deriving DecidableEq

-- ---------------------------------------------------------------------------
-- Blocks and proofs
-- ---------------------------------------------------------------------------

/-- `struct protocol_block_header`. -/
structure BlockHeader (D : Type) where
  version : UInt8
  featuresVote : UInt8
  shardOrder : UInt8
  nonce2 : Bytes 13
  prevBlock : D
  numPrevTxhashes : UInt32
  depth : UInt32
  feesTo : Address
deriving DecidableEq

/-- `struct protocol_block_tailer`. -/
structure BlockTailer where
  timestamp : UInt32
  difficulty : UInt32
  nonce1 : UInt32
deriving DecidableEq

/-- `struct protocol_position`: a transaction's place in a block. -/
structure Position (D : Type) where
  block : D
  shard : UInt16
  txoff : UInt8
  unused : UInt8
deriving DecidableEq

/-- `struct protocol_proof`: a position and the 8 sibling hashes above it. -/
structure Proof (D : Type) where
  pos : Position D
  /-- `merkles.merkle[i]`, the sibling at level `i` counted from the leaves. -/
  merkle : Fin 8 → D

/-- `struct protocol_txrefhash`: the hash of a transaction and of its refs. -/
structure TxRefHash (D : Type) where
  txhash : D
  refhash : D
deriving DecidableEq

-- ---------------------------------------------------------------------------
-- Error codes
-- ---------------------------------------------------------------------------

/-- `enum protocol_ecode`: the codes the modelled functions return. -/
inductive Ecode
  | none
  | unknownCommand
  | invalidLen
  | unknownErrcode
  | highVersion
  | noInterest
  | wrongGenesis
  | badShardOrder
  | unknownBlock
  | badShardnum
  | blockHighVersion
  | badTimestamp
  | badPrevTxhashes
  | badDifficulty
  | insufficientWork
  | badDepth
  | txHighVersion
  | txTypeUnknown
  | txBadGateway
  | txCrossShards
  | txTooLarge
  | txTooSmall
  | txBadSig
  | txTooManyInputs
  | badProof
  | refBadBlocksAgo
  | refBadShard
  | refBadTxoff
  | badMerkle
  | complaintInvalid
  | badInputnum
  | badInput
  | badMisorderPos
  | badDoublespendBlocks
  | privUnknownPrev
deriving DecidableEq, Repr

/-- `enum input_ecode`. -/
inductive InputEcode
  | ok
  | unknown
  | bad
  | badAmount
  | doublespend
  | claimBad
deriving DecidableEq, Repr

/-- `enum ref_ecode`. -/
inductive RefEcode
  | ok
  | unknown
  | badHash
deriving DecidableEq, Repr

end Pettycoin
