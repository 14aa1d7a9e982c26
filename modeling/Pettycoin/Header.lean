import Pettycoin.CheckTx

/-!
# Pettycoin — block headers

`hash_block.c`, `difficulty.c`, `timestamp.c` and `check_block_header` in
`check_block.c`.

* `hashBlock` — the hash of the parts of a block;
* `beatsTarget`, `getDifficulty` — the target, and the one that is due;
* `checkTimestamp` — the median of the times before;
* `checkBlockHeader` — the checks in their order.
-/

namespace Pettycoin

open ExceptRules

variable {D : Type} [Digest D] [DecidableEq D]

-- ---------------------------------------------------------------------------
-- Hashing
-- ---------------------------------------------------------------------------

/-- The bytes of a `struct protocol_block_header`. -/
def marshalHeader (h : BlockHeader D) : List UInt8 :=
  [h.version, h.featuresVote, h.shardOrder] ++ h.nonce2.1 ++ Digest.bytes h.prevBlock
    ++ le32 h.numPrevTxhashes ++ le32 h.depth ++ h.feesTo.1

/-- The bytes of a `struct protocol_block_tailer`. -/
def marshalTailer (t : BlockTailer) : List UInt8 :=
  le32 t.timestamp ++ le32 t.difficulty ++ le32 t.nonce1

/-- What a block packet carries: the parts that `unmarshal_block` finds, each of
the length the header gives it. -/
structure BlockParts (D : Type) where
  hdr : BlockHeader D
  shardNums : List UInt8
  merkles : List D
  prevTxhashes : List UInt8
  tailer : BlockTailer
  shardNums_length : shardNums.length = 2 ^ hdr.shardOrder.toNat
  merkles_length : merkles.length = 2 ^ hdr.shardOrder.toNat
  prevTxhashes_length : prevTxhashes.length = hdr.numPrevTxhashes.toNat

/-- `hash_block()`. -/
def hashBlock (C : Crypto D) (p : BlockParts D) : D :=
  let hashOfPrev := C.doubleSha p.prevTxhashes
  let hashOfMerkles := C.doubleSha (p.merkles.flatMap Digest.bytes)
  C.doubleSha (Digest.bytes hashOfPrev ++ Digest.bytes hashOfMerkles ++ marshalHeader p.hdr
    ++ p.shardNums ++ marshalTailer p.tailer)

-- ---------------------------------------------------------------------------
-- Difficulty
-- ---------------------------------------------------------------------------

/-- `PROTOCOL_DIFFICULTY_UPDATE_BLOCKS`. -/
def protocolDifficultyUpdateBlocks : UInt32 := 2016

/-- The exponent of a difficulty, in bytes. -/
def difficultyExp (difficulty : UInt32) : Nat := (difficulty >>> 24).toNat

/-- The mantissa of a difficulty. -/
def difficultyMantissa (difficulty : UInt32) : Nat := (difficulty &&& 0x00FFFFFF).toNat

/-- `beats_target()`. -/
def beatsTarget (sha : D) (difficulty : UInt32) : Res Bool := do
  let exp := difficultyExp difficulty
  assert (exp ≤ 32 && 3 ≤ exp) .beatsTarget
  if (List.range' exp (32 - exp)).any fun i => Digest.sha sha i != 0 then .ok false
  else
    let base := (Digest.sha sha (exp - 1)).toNat * 2 ^ 16
      + (Digest.sha sha (exp - 2)).toNat * 2 ^ 8 + (Digest.sha sha (exp - 3)).toNat
    .ok (base < difficultyMantissa difficulty)

/-- `BN_num_bytes()`. -/
def numBytes : Nat → Nat → Nat
  | 0, _ => 0
  | fuel + 1, n => if n = 0 then 0 else numBytes fuel (n / 256) + 1

/-- `encode_difficulty()`: the exponent and the mantissa. -/
def encodeDifficulty (target : Nat) : Res (Nat × Nat) := do
  let exp := numBytes (target.log2 + 1) target
  assert (exp > 3) .encodeDifficulty
  let mantissa := target / 2 ^ (8 * (exp - 3))
  assert (mantissa < 0x00FFFFFF) .encodeDifficulty
  .ok (exp, mantissa)

/-- How long the last period took, within a factor of 4 of the ideal. Times are
compared as unsigned numbers, so that a negative one counts as the longest. -/
def periodTime (ideal : UInt64) (last first : UInt32) : UInt64 :=
  let actual := last.toUInt64 - first.toUInt64
  let actual := if actual < ideal / 4 then ideal / 4 else actual
  if actual > ideal * 4 then ideal * 4 else actual

/-- `get_difficulty()`: what the block after `prev` must have. -/
def getDifficulty (s : State D) (prev : BlockId) : Res UInt32 := do
  let interval := protocolDifficultyUpdateBlocks
  let idealTime : UInt64 := (protocolBlockTargetTime true).toUInt64 * interval.toUInt64
  let prevDifficulty := (s.blk prev).tailer.difficulty
  let depth := (s.blk prev).hdr.depth
  if (depth + 1) % interval ≠ 0 then .ok prevDifficulty
  else
    let start := if depth = interval - 1 then some 0 else blockAncestor s prev interval.toNat
    match start with
    | none => .error .nullPointer
    | some start =>
      let actual := periodTime idealTime (s.blk prev).tailer.timestamp
        (s.blk start).tailer.timestamp
      let target := decodeDifficulty prevDifficulty * actual.toNat / idealTime.toNat
      let (exp, base) ← encodeDifficulty target
      let genesis := (s.blk 0).tailer.difficulty
      if exp > difficultyExp genesis ||
          (exp = difficultyExp genesis && base > difficultyMantissa genesis) then
        .ok genesis
      else .ok (UInt32.ofNat (exp * 2 ^ 24 + base))

-- ---------------------------------------------------------------------------
-- Timestamps
-- ---------------------------------------------------------------------------

/-- The timestamps of `prev` and what comes before it, the genesis block's left out. -/
def recentTimes (s : State D) : Nat → BlockId → List UInt32
  | 0, _ => []
  | n + 1, prev =>
    match (s.blk prev).prev with
    | none => []
    | some p => (s.blk prev).tailer.timestamp :: recentTimes s n p

/-- `check_timestamp()`: after the median of the last 11, and not two hours ahead. -/
def checkTimestamp (s : State D) (timestamp : UInt32) (prev : BlockId) : Bool :=
  let times := (recentTimes s 11 prev).mergeSort (fun a b => a ≤ b)
  match times[times.length / 2]? with
  | some median => timestamp > median && timestamp.toNat < s.now.toNat + 2 * 60 * 60
  | none => timestamp.toNat < s.now.toNat + 2 * 60 * 60

-- ---------------------------------------------------------------------------
-- The header
-- ---------------------------------------------------------------------------

/-- The checks of `check_block_header` against the block before. -/
def checkAgainstPrev (s : State D) (p : BlockParts D) (prev : BlockId) : Res Ecode := do
  if p.hdr.shardOrder ≠ nextShardOrder prev then .ok .badShardOrder
  else if p.hdr.depth ≠ (s.blk prev).hdr.depth + 1 then .ok .badDepth
  else if !checkTimestamp s p.tailer.timestamp prev then .ok .badTimestamp
  else
    let difficulty ← getDifficulty s prev
    if p.tailer.difficulty ≠ difficulty then .ok .badDifficulty else .ok .none

/-- `check_block_header()`: the error, and the block before when it is known. -/
def checkBlockHeader (C : Crypto D) (s : State D) (p : BlockParts D) :
    Res (Ecode × Option BlockId) := do
  if !versionOk p.hdr.version then .ok (.blockHighVersion, none)
  else
    let enough ← beatsTarget (hashBlock C p) p.tailer.difficulty
    if !enough then .ok (.insufficientWork, none)
    else
      match blockFindAny s p.hdr.prevBlock with
      | none => .ok (.privUnknownPrev, none)
      | some prev => do
        let e ← checkAgainstPrev s p prev
        .ok (e, some prev)

end Pettycoin
