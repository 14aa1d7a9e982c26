import Pettycoin.MarshalBlock
import Pettycoin.MerkleProof
import Pettycoin.Recv

/-!
# Pettycoin — the generator

`pettycoin-generate.c`: it keeps a working block, adds the transactions that the
node sends, and tries nonces until the hash beats the target. A `SHA256_CTX` is
what has been hashed with it so far.

It hashes from a midstate that is worked out anew when what it covers changes, and
the block it writes is the one it hashed (`solved_block_is_hashed`).

* `hashed_of_generates` — the midstate after any additions and attempts;
* `solveBlock`, `finishHash` — what is tried and what is then hashed;
* `takesShard_of_hashed` — the shards come to the node as they were hashed;
* `solved_block_is_hashed` — the block written is the block hashed.
-/

namespace Pettycoin

open ExceptRules

-- ---------------------------------------------------------------------------
-- The working block
-- ---------------------------------------------------------------------------

/-- Where the generator stops, or the node as it talks to it. -/
inductive GenFault
  /-- `add_tx`: there is no such shard. -/
  | noShard
  /-- `add_tx`: the shard is full. -/
  | shardFull
  /-- `add_tx`: the offset is past the end of the shard. -/
  | pastEnd
  /-- `add_update`: the shard or the offset does not fit its field. -/
  | overflow
  /-- In a function the node has, too. -/
  | shared (fault : Fault)
deriving DecidableEq

/-- `struct gen_update`. -/
structure GenUpdate (D : Type) where
  shard : UInt16
  txoff : UInt8
  features : UInt32
  hashes : TxRefHash D
deriving DecidableEq

/-- The arguments of the program, and the bytes of `prev_txhashes` that it reads
first, with the byte that says go. -/
structure GenArgs (D : Type) where
  feesTo : Address
  difficulty : UInt32
  prevHash : D
  numPrevTxhashes : UInt32
  depth : UInt32
  shardOrder : UInt8
  nonce : Option (List UInt8)
  prevTxhashes : Bytes (numPrevTxhashes.toNat + 1)

/-- `struct working_block`. Its arrays have the lengths that the header gives them. -/
structure WorkingBlock (D : Type) where
  featureCounts : List UInt32
  numTrans : UInt32
  hdr : BlockHeader D
  shardNums : List UInt8
  merkles : List D
  prevTxhashes : Bytes (hdr.numPrevTxhashes.toNat + 1)
  tailer : BlockTailer
  transHashes : List (List (TxRefHash D))
  hashOfMerkles : D
  hashOfPrevTxhashes : D
  /-- The unfinished hash, without the tailer. -/
  unfinished : List UInt8
  sha : D
  shardNums_length : shardNums.length = 2 ^ hdr.shardOrder.toNat
  merkles_length : merkles.length = 2 ^ hdr.shardOrder.toNat
  transHashes_length : transHashes.length = 2 ^ hdr.shardOrder.toNat

variable {D : Type} [Digest D]

namespace WorkingBlock

/-- `w->num_shards`. -/
def numShards (w : WorkingBlock D) : Nat := 2 ^ w.hdr.shardOrder.toNat

/-- What `write_block` marshals. -/
def parts (w : WorkingBlock D) : BlockParts D where
  hdr := w.hdr
  shardNums := w.shardNums
  merkles := w.merkles
  prevTxhashes := w.prevTxhashes.1.take w.hdr.numPrevTxhashes.toNat
  tailer := w.tailer
  shardNums_length := w.shardNums_length
  merkles_length := w.merkles_length
  prevTxhashes_length := by
    rw [List.length_take, w.prevTxhashes.2]
    omega

/-- The block with other merkles. -/
def withMerkles (w : WorkingBlock D) (merkles : List D)
    (h : merkles.length = 2 ^ w.hdr.shardOrder.toNat) : WorkingBlock D :=
  { w with merkles := merkles, merkles_length := h }

/-- Change one of the merkles. -/
def setMerkle (w : WorkingBlock D) (shard : Nat) (merkle : D) : WorkingBlock D :=
  w.withMerkles (w.merkles.set shard merkle) (by rw [List.length_set, w.merkles_length])

/-- `merkle_hash_shard()`. -/
def merkleHashShard (C : Crypto D) (w : WorkingBlock D) (shard : Nat) : Res (WorkingBlock D) := do
  let merkle ← merkleHashes C (w.transHashes[shard]?.getD []) 0 (w.shardNums[shard]?.getD 0).toNat
  .ok (w.setMerkle shard merkle)

/-- `merkle_hash_changed()`. -/
def merkleHashChanged (C : Crypto D) (w : WorkingBlock D) : WorkingBlock D :=
  { w with hashOfMerkles := C.doubleSha (w.merkles.flatMap Digest.bytes) }

/-- `update_partial_hash()`. -/
def updatePartialHash (w : WorkingBlock D) : WorkingBlock D :=
  { w with unfinished := Digest.bytes w.hashOfPrevTxhashes ++ Digest.bytes w.hashOfMerkles
            ++ marshalHeader w.hdr ++ w.shardNums }

/-- The block before anything is hashed. What has no value yet is zero. -/
def blank (args : GenArgs D) (now : UInt32) : WorkingBlock D where
  featureCounts := List.replicate 8 0
  numTrans := 0
  hdr := { version := currentVersion, featuresVote := 0, shardOrder := args.shardOrder
           nonce2 := Bytes.zero 13, prevBlock := args.prevHash
           numPrevTxhashes := args.numPrevTxhashes, depth := args.depth, feesTo := args.feesTo }
  shardNums := List.replicate (2 ^ args.shardOrder.toNat) 0
  merkles := List.replicate (2 ^ args.shardOrder.toNat) Digest.zero
  prevTxhashes := args.prevTxhashes
  tailer := { timestamp := now, nonce1 := 0, difficulty := args.difficulty }
  transHashes := List.replicate (2 ^ args.shardOrder.toNat) []
  hashOfMerkles := Digest.zero
  hashOfPrevTxhashes := Digest.zero
  unfinished := []
  sha := Digest.zero
  shardNums_length := List.length_replicate
  merkles_length := List.length_replicate
  transHashes_length := List.length_replicate

/-- Hash the previous hashes: they do not change. -/
def hashPrevTxhashes (C : Crypto D) (w : WorkingBlock D) : WorkingBlock D :=
  { w with hashOfPrevTxhashes :=
            C.doubleSha (w.prevTxhashes.1.take w.hdr.numPrevTxhashes.toNat) }

/-- `new_working_block()`. -/
def new (C : Crypto D) (args : GenArgs D) (now : UInt32) : Res (WorkingBlock D) := do
  let w := hashPrevTxhashes C (blank args now)
  let w ← (List.range w.numShards).foldlM (merkleHashShard C) w
  .ok (updatePartialHash (merkleHashChanged C w))

/-- `strncpy()` into a field of `n` bytes: what is left of it is zero. -/
def strncpy (n : Nat) (src : List UInt8) : Bytes n :=
  ⟨src.take n ++ List.replicate (n - src.length) 0, by
    rw [List.length_append, List.length_take, List.length_replicate]
    omega⟩

/-- The nonce argument, if there is one. -/
def setNonce (w : WorkingBlock D) : Option (List UInt8) → WorkingBlock D
  | none => w
  | some nonce => updatePartialHash { w with hdr := { w.hdr with nonce2 := strncpy 13 nonce } }

-- ---------------------------------------------------------------------------
-- Adding a transaction
-- ---------------------------------------------------------------------------

/-- `feature_counts` with the votes of one transaction. -/
def countFeatures (counts : List UInt32) (features : UInt32) : List UInt32 :=
  counts.mapIdx fun i count => if features &&& (1 <<< UInt32.ofNat i) ≠ 0 then count + 1 else count

/-- `new_features`: the bits are only ever cleared. -/
def newFeatures (counts : List UInt32) (numTrans : UInt32) : UInt8 :=
  (counts.mapIdx fun i count => (i, count)).foldl
    (fun features c =>
      if c.2 < numTrans / 2 then features &&& ~~~(1 <<< UInt8.ofNat c.1) else features) 0

/-- Put the hashes where they belong in their shard. -/
def insertHashes (w : WorkingBlock D) (update : GenUpdate D) : WorkingBlock D :=
  let shard := update.shard.toNat
  { w with
    transHashes := w.transHashes.modify shard fun hashes =>
      hashes.insertIdx update.txoff.toNat update.hashes
    shardNums := w.shardNums.modify shard (· + 1)
    numTrans := w.numTrans + 1
    transHashes_length := by rw [List.length_modify, w.transHashes_length]
    shardNums_length := by rw [List.length_modify, w.shardNums_length] }

/-- Count the votes for features. -/
def voteFeatures (w : WorkingBlock D) (features : UInt32) : WorkingBlock D :=
  let counts := countFeatures w.featureCounts features
  { w with
    featureCounts := counts
    hdr := { w.hdr with featuresVote := newFeatures counts w.numTrans } }

/-- An assertion of the generator. -/
def check (cond : Bool) (fault : GenFault) : Except GenFault Unit :=
  if cond then .ok () else .error fault

/-- `add_tx()`. -/
def addTx (C : Crypto D) (w : WorkingBlock D) (update : GenUpdate D) :
    Except GenFault (WorkingBlock D) := do
  let shard := update.shard.toNat
  check (shard < w.shardNums.length) .noShard
  check ((w.shardNums[shard]?.getD 0).toNat < 255) .shardFull
  check (update.txoff ≤ w.shardNums[shard]?.getD 0) .pastEnd
  let w ← (merkleHashShard C (w.insertHashes update) shard).mapError .shared
  .ok (updatePartialHash ((merkleHashChanged C w).voteFeatures update.features))

-- ---------------------------------------------------------------------------
-- Solving
-- ---------------------------------------------------------------------------

/-- `increment_nonce2()`: carry into the next byte while one wraps. -/
def incrementBytes : List UInt8 → List UInt8
  | [] => []
  | b :: rest => if b + 1 ≠ 0 then (b + 1) :: rest else 0 :: incrementBytes rest

theorem incrementBytes_length (l : List UInt8) : (incrementBytes l).length = l.length := by
  induction l with
  | nil => rfl
  | cons b rest ih =>
    unfold incrementBytes
    split_ifs <;> simp [ih]

/-- The next nonce, and at times the next timestamp. -/
def nextNonce (w : WorkingBlock D) (now : UInt32) : WorkingBlock D :=
  let nonce1 := w.tailer.nonce1 + 1
  let w := { w with tailer := { w.tailer with nonce1 := nonce1 } }
  if nonce1 &&& 0xFFFF ≠ 0 then w
  else
    let w := { w with tailer := { w.tailer with timestamp := now } }
    if nonce1 ≠ 0 then w
    else
      -- nonce1 wrapped completely
      updatePartialHash
        { w with hdr := { w.hdr with
            nonce2 := ⟨incrementBytes w.hdr.nonce2.1, by
              rw [incrementBytes_length, w.hdr.nonce2.2]⟩ } }

/-- Finish the hash with the tailer. -/
def finishHash (C : Crypto D) (w : WorkingBlock D) : WorkingBlock D :=
  { w with sha := C.doubleSha (w.unfinished ++ marshalTailer w.tailer) }

/-- `solve_block()`: whether it is solved. -/
def solveBlock (C : Crypto D) (now : UInt32) (w : WorkingBlock D) : Res (WorkingBlock D × Bool) := do
  let w := w.finishHash C
  let beats ← beatsTarget w.sha w.tailer.difficulty
  .ok (if beats then (w, true) else (w.nextNonce now, false))

/-- `write_block()`: the block, and the hashes of each shard. -/
def writeBlock (w : WorkingBlock D) : List UInt8 × List (PktShard D) :=
  (marshalBlock w.parts, (List.range w.numShards).map fun shard =>
    { block := w.sha, shard := UInt16.ofNat shard
      hashes := (w.transHashes[shard]?.getD []).take (w.shardNums[shard]?.getD 0).toNat })

end WorkingBlock

/-- `valid_difficulty()`. -/
def validDifficulty (difficulty : UInt32) : Bool :=
  !(difficultyExp difficulty < 3 || difficultyExp difficulty > 32)
    && difficultyMantissa difficulty != 0

/-- `main()`, up to its loop: with a difficulty that is not valid there is no block. -/
def generateStart (C : Crypto D) (args : GenArgs D) (now : UInt32) :
    Res (Option (WorkingBlock D)) := do
  if !validDifficulty args.difficulty then .ok none
  else
    let w ← WorkingBlock.new C args now
    .ok (some (w.setNonce args.nonce))

/-- The working blocks of the loop of `main`: transactions are added and nonces tried, in
any order. -/
inductive Generates (C : Crypto D) (args : GenArgs D) : WorkingBlock D → Prop
  | start {w : WorkingBlock D} (now : UInt32) :
    generateStart C args now = .ok (some w) → Generates C args w
  | add {w w' : WorkingBlock D} (update : GenUpdate D) :
    Generates C args w → w.addTx C update = .ok w' → Generates C args w'
  | unsolved {w w' : WorkingBlock D} (now : UInt32) :
    Generates C args w → w.solveBlock C now = .ok (w', false) → Generates C args w'

-- ---------------------------------------------------------------------------
-- What is kept up to date
-- ---------------------------------------------------------------------------

/-- The root over a list of hashes. -/
def hashesRoot (C : Crypto D) (hashes : List (TxRefHash D)) : D :=
  entriesRoot C fun n => hashes[n]?

namespace WorkingBlock

variable {C : Crypto D} {args : GenArgs D} {w w' : WorkingBlock D} {update : GenUpdate D}

/-- The bytes hashed before the tailer. -/
def prefixBytes (w : WorkingBlock D) : List UInt8 :=
  Digest.bytes w.hashOfPrevTxhashes ++ Digest.bytes w.hashOfMerkles ++ marshalHeader w.hdr
    ++ w.shardNums

/-- Each shard has as many hashes as it says. -/
def Counted (w : WorkingBlock D) : Prop :=
  ∀ i : Nat, w.shardNums[i]?.map UInt8.toNat = w.transHashes[i]?.map List.length

/-- The merkles are of the hashes. -/
def MerklesOk (C : Crypto D) (w : WorkingBlock D) : Prop :=
  ∀ i : Nat, w.merkles[i]? = w.transHashes[i]?.map (hashesRoot C)

/-- What was hashed is what is there. -/
structure Hashed (C : Crypto D) (w : WorkingBlock D) : Prop where
  counted : w.Counted
  merkles : w.MerklesOk C
  hashOfMerkles : w.hashOfMerkles = C.doubleSha (w.merkles.flatMap Digest.bytes)
  hashOfPrev : w.hashOfPrevTxhashes
    = C.doubleSha (w.prevTxhashes.1.take w.hdr.numPrevTxhashes.toNat)
  unfinished : w.unfinished = w.prefixBytes

/-- The header is of these arguments. -/
structure OfArgs (args : GenArgs D) (w : WorkingBlock D) : Prop where
  version : w.hdr.version = currentVersion
  prevBlock : w.hdr.prevBlock = args.prevHash
  shardOrder : w.hdr.shardOrder = args.shardOrder
  numPrevTxhashes : w.hdr.numPrevTxhashes = args.numPrevTxhashes
  difficulty : w.tailer.difficulty = args.difficulty

omit [Digest D] in
theorem counted_of_get (h : w.Counted) (i : Nat) :
    (w.shardNums[i]?.getD 0).toNat = (w.transHashes[i]?.getD []).length := by
  have hi := h i
  cases hn : w.shardNums[i]? with
  | none =>
    rw [hn] at hi
    cases ht : w.transHashes[i]? with
    | none => rfl
    | some l =>
      rw [ht] at hi
      exact absurd hi (by simp)
  | some n =>
    rw [hn] at hi
    cases ht : w.transHashes[i]? with
    | none =>
      rw [ht] at hi
      exact absurd hi (by simp)
    | some l =>
      rw [ht] at hi
      exact Option.some.inj hi

/-- The merkle of one shard is set to its root. -/
theorem merkleHashShard_eq (h : w.Counted) (shard : Nat) : w.merkleHashShard C shard
    = .ok (w.setMerkle shard (hashesRoot C (w.transHashes[shard]?.getD []))) := by
  unfold merkleHashShard
  rw [counted_of_get h, merkleHashes_eq_entriesRoot]
  rfl

/-- The merkles are right but for one shard, and that is set. -/
theorem merklesOk_setMerkle {shard : Nat} (hshard : shard < w.merkles.length)
    (hrest : ∀ i : Nat, i ≠ shard → w.merkles[i]? = w.transHashes[i]?.map (hashesRoot C)) :
    (w.setMerkle shard (hashesRoot C (w.transHashes[shard]?.getD []))).MerklesOk C := by
  intro i
  show (w.merkles.set shard _)[i]? = w.transHashes[i]?.map (hashesRoot C)
  by_cases hi : i = shard
  · subst hi
    have hlt : i < w.transHashes.length := by
      rw [w.transHashes_length, ← w.merkles_length]
      exact hshard
    rw [List.getElem?_set_self hshard, List.getElem?_eq_getElem hlt]
    rfl
  · rw [List.getElem?_set_ne (Ne.symm hi)]
    exact hrest i hi

-- ---------------------------------------------------------------------------
-- The first block
-- ---------------------------------------------------------------------------

theorem counted_blank (now : UInt32) : (blank args now).Counted := by
  intro i
  show (List.replicate _ (0 : UInt8))[i]?.map UInt8.toNat
    = (List.replicate _ ([] : List (TxRefHash D)))[i]?.map List.length
  rw [List.getElem?_replicate, List.getElem?_replicate]
  split_ifs <;> rfl

/-- The loop of `new_working_block`, over the first `k` shards. -/
theorem merkleHashShards (h : w.Counted) (k : Nat) :
    ∃ merkles hlen, (List.range k).foldlM (merkleHashShard C) w = .ok (w.withMerkles merkles hlen) ∧
      ∀ i < k, i < w.numShards → merkles[i]? = w.transHashes[i]?.map (hashesRoot C) := by
  induction k with
  | zero => exact ⟨w.merkles, w.merkles_length, rfl, fun i hi => absurd hi (Nat.not_lt_zero i)⟩
  | succ k ih =>
    obtain ⟨merkles, hlen, hfold, hmerkles⟩ := ih
    have hset : (merkles.set k (hashesRoot C (w.transHashes[k]?.getD []))).length
        = 2 ^ w.hdr.shardOrder.toNat := by rw [List.length_set, hlen]
    refine ⟨_, hset, ?_, fun i hi hshard => ?_⟩
    · rw [List.range_succ, List.foldlM_append, hfold, ok_bind, List.foldlM_cons,
        merkleHashShard_eq (w := w.withMerkles merkles hlen) h, ok_bind]
      rfl
    · rcases Nat.lt_succ_iff_lt_or_eq.mp hi with hlt | rfl
      · rw [List.getElem?_set_ne (Nat.ne_of_gt hlt)]
        exact hmerkles i hlt hshard
      · have hlt : i < w.transHashes.length := by
          rw [w.transHashes_length]
          exact hshard
        rw [List.getElem?_set_self (by rw [hlen]; exact hshard), List.getElem?_eq_getElem hlt]
        rfl

/-- `new_working_block` returns a block that is hashed. -/
theorem new_ok (C : Crypto D) (args : GenArgs D) (now : UInt32) :
    ∃ w, new C args now = .ok w ∧ w.Hashed C ∧ w.OfArgs args := by
  obtain ⟨merkles, hlen, hfold, hmerkles⟩ := merkleHashShards (C := C)
    (w := hashPrevTxhashes C (blank args now)) (counted_blank now)
    (hashPrevTxhashes C (blank args now)).numShards
  refine ⟨_, by unfold new; dsimp only; rw [hfold, ok_bind], ?_, ⟨rfl, rfl, rfl, rfl, rfl⟩⟩
  refine ⟨counted_blank now, fun i => ?_, rfl, rfl, rfl⟩
  show merkles[i]? = (blank args now).transHashes[i]?.map (hashesRoot C)
  by_cases hi : i < (blank args now).numShards
  · exact hmerkles i hi hi
  · rw [List.getElem?_eq_none (by rw [hlen]; exact Nat.le_of_not_lt hi),
      List.getElem?_eq_none (by rw [(blank args now).transHashes_length]; exact Nat.le_of_not_lt hi)]
    rfl

theorem setNonce_ok (h : w.Hashed C) (ha : w.OfArgs args) (nonce : Option (List UInt8)) :
    (w.setNonce nonce).Hashed C ∧ (w.setNonce nonce).OfArgs args := by
  cases nonce with
  | none => exact ⟨h, ha⟩
  | some nonce =>
    exact ⟨⟨h.counted, h.merkles, h.hashOfMerkles, h.hashOfPrev, rfl⟩,
      ⟨ha.version, ha.prevBlock, ha.shardOrder, ha.numPrevTxhashes, ha.difficulty⟩⟩

-- ---------------------------------------------------------------------------
-- Transactions
-- ---------------------------------------------------------------------------

/-- What the assertions of `add_tx` ask. -/
structure Fits (w : WorkingBlock D) (update : GenUpdate D) : Prop where
  shard : update.shard.toNat < w.numShards
  room : (w.shardNums[update.shard.toNat]?.getD 0).toNat < 255
  txoff : update.txoff.toNat ≤ (w.shardNums[update.shard.toNat]?.getD 0).toNat

theorem check_eq_ok {cond : Bool} {fault : GenFault} (h : check cond fault = .ok ()) :
    cond = true := by
  unfold check at h
  cases cond with
  | true => rfl
  | false => exact absurd h (by simp)

/-- What `add_tx` accepts fits. -/
theorem fits_of_addTx (h : w.addTx C update = .ok w') : w.Fits update := by
  unfold addTx at h
  obtain ⟨_, hshard, h⟩ := of_bind_eq_ok h
  obtain ⟨_, hroom, h⟩ := of_bind_eq_ok h
  obtain ⟨_, hend, -⟩ := of_bind_eq_ok h
  have hshard := of_decide_eq_true (check_eq_ok hshard)
  rw [w.shardNums_length] at hshard
  exact ⟨hshard, of_decide_eq_true (check_eq_ok hroom),
    UInt8.le_iff_toNat_le.mp (of_decide_eq_true (check_eq_ok hend))⟩

omit [Digest D] in
/-- What there is of a shard that exists. -/
theorem exists_getElem_of_counted (h : w.Counted) {i : Nat} (hi : i < w.numShards) :
    ∃ n l, w.shardNums[i]? = some n ∧ w.transHashes[i]? = some l ∧ n.toNat = l.length := by
  have hn : i < w.shardNums.length := by rw [w.shardNums_length]; exact hi
  have hl : i < w.transHashes.length := by rw [w.transHashes_length]; exact hi
  have heq := h i
  rw [List.getElem?_eq_getElem hn, List.getElem?_eq_getElem hl] at heq
  exact ⟨_, _, List.getElem?_eq_getElem hn, List.getElem?_eq_getElem hl, Option.some.inj heq⟩

omit [Digest D] in
/-- A count that does not wrap. -/
theorem counted_insertHashes (h : w.Counted) (hf : w.Fits update) :
    (w.insertHashes update).Counted := by
  intro i
  show (w.shardNums.modify _ _)[i]?.map UInt8.toNat
    = (w.transHashes.modify _ _)[i]?.map List.length
  by_cases hi : update.shard.toNat = i
  · obtain rfl := hi
    obtain ⟨n, l, hn, hl, hlen⟩ := exists_getElem_of_counted h hf.shard
    have hroom := hf.room
    have hoff := hf.txoff
    rw [hn] at hroom hoff
    simp only [Option.getD_some] at hroom hoff
    rw [List.getElem?_modify_eq, List.getElem?_modify_eq, hn, hl]
    show some _ = some _
    rw [List.length_insertIdx_of_le_length (by omega), ← hlen, UInt8.toNat_add]
    show some ((n.toNat + 1) % 256) = _
    rw [Nat.mod_eq_of_lt (by omega)]
  · rw [List.getElem?_modify_ne _ _ hi, List.getElem?_modify_ne _ _ hi]
    exact h i

/-- An update that fits is added to its shard. -/
theorem addTx_of_fits (h : w.Hashed C) (hf : w.Fits update) :
    ∃ w', w.addTx C update = .ok w' ∧ w'.Hashed C ∧ (∀ args, w.OfArgs args → w'.OfArgs args) ∧
      w'.transHashes = (w.insertHashes update).transHashes := by
  have hcounted := counted_insertHashes h.counted hf
  have hshard : update.shard.toNat < w.shardNums.length := by
    rw [w.shardNums_length]
    exact hf.shard
  unfold addTx
  dsimp only
  rw [check, if_pos (decide_eq_true hshard), ok_bind, check, if_pos (decide_eq_true hf.room), ok_bind,
    check, if_pos (decide_eq_true (UInt8.le_iff_toNat_le.mpr hf.txoff)), ok_bind,
    merkleHashShard_eq hcounted]
  refine ⟨_, rfl, ⟨hcounted, ?_, rfl, h.hashOfPrev, rfl⟩, fun args ha => ?_, rfl⟩
  case refine_2 => exact ⟨ha.version, ha.prevBlock, ha.shardOrder, ha.numPrevTxhashes, ha.difficulty⟩
  refine merklesOk_setMerkle (w := w.insertHashes update) ?_ fun i hi => ?_
  · rw [(w.insertHashes update).merkles_length]
    exact hf.shard
  · show w.merkles[i]? = (w.transHashes.modify _ _)[i]?.map _
    rw [List.getElem?_modify_ne _ _ (Ne.symm hi)]
    exact h.merkles i

-- ---------------------------------------------------------------------------
-- Nonces
-- ---------------------------------------------------------------------------

/-- The midstate is right for the next nonce, too. -/
theorem nextNonce_ok (h : w.Hashed C) (ha : w.OfArgs args) (now : UInt32) :
    (w.nextNonce now).Hashed C ∧ (w.nextNonce now).OfArgs args := by
  have hkeep : ∀ tailer : BlockTailer, tailer.difficulty = w.tailer.difficulty →
      Hashed C { w with tailer := tailer } ∧ OfArgs args { w with tailer := tailer } := by
    intro tailer hd
    exact ⟨⟨h.counted, h.merkles, h.hashOfMerkles, h.hashOfPrev, h.unfinished⟩,
      ⟨ha.version, ha.prevBlock, ha.shardOrder, ha.numPrevTxhashes, hd.trans ha.difficulty⟩⟩
  unfold nextNonce
  dsimp only
  split_ifs
  · exact hkeep _ rfl
  · exact hkeep _ rfl
  · exact ⟨⟨h.counted, h.merkles, h.hashOfMerkles, h.hashOfPrev, rfl⟩,
      ⟨ha.version, ha.prevBlock, ha.shardOrder, ha.numPrevTxhashes, ha.difficulty⟩⟩

/-- What `solve_block` did. -/
theorem of_solveBlock {now : UInt32} {solved : Bool} (h : w.solveBlock C now = .ok (w', solved)) :
    beatsTarget (w.finishHash C).sha w.tailer.difficulty = .ok solved ∧
      w' = if solved then w.finishHash C else (w.finishHash C).nextNonce now := by
  unfold solveBlock at h
  dsimp only at h
  obtain ⟨beats, hbeats, h⟩ := of_bind_eq_ok h
  have h := Except.ok.inj h
  cases beats with
  | true =>
    obtain ⟨rfl, rfl⟩ := Prod.mk.inj h
    exact ⟨hbeats, rfl⟩
  | false =>
    obtain ⟨rfl, rfl⟩ := Prod.mk.inj h
    exact ⟨hbeats, rfl⟩

theorem finishHash_ok (h : w.Hashed C) (ha : w.OfArgs args) :
    (w.finishHash C).Hashed C ∧ (w.finishHash C).OfArgs args :=
  ⟨⟨h.counted, h.merkles, h.hashOfMerkles, h.hashOfPrev, h.unfinished⟩,
    ⟨ha.version, ha.prevBlock, ha.shardOrder, ha.numPrevTxhashes, ha.difficulty⟩⟩

/-- **Whatever is done to the working block, the midstate is up to date.** -/
theorem hashed_of_generates (h : Generates C args w) : w.Hashed C ∧ w.OfArgs args := by
  induction h with
  | start now h =>
    unfold generateStart at h
    split_ifs at h
    · exact absurd h (by simp)
    · obtain ⟨w, hw, ha⟩ := new_ok C args now
      rw [hw, ok_bind] at h
      obtain rfl := Option.some.inj (Except.ok.inj h)
      exact setNonce_ok ha.1 ha.2 args.nonce
  | add update _ h ih =>
    obtain ⟨w', hw', hhashed, hargs, -⟩ := addTx_of_fits ih.1 (fits_of_addTx h)
    rw [hw'] at h
    obtain rfl := Except.ok.inj h
    exact ⟨hhashed, hargs args ih.2⟩
  | unsolved now _ h ih =>
    obtain ⟨-, rfl⟩ := of_solveBlock h
    have hs := finishHash_ok ih.1 ih.2
    exact nextNonce_ok hs.1 hs.2 now

/-- The midstate and the tailer are what `hash_block` hashes. -/
theorem hashBlock_parts (h : w.Hashed C) :
    hashBlock C w.parts = (w.finishHash C).sha := by
  show _ = C.doubleSha (w.unfinished ++ marshalTailer w.tailer)
  unfold hashBlock parts
  dsimp only
  rw [h.unfinished, prefixBytes, ← h.hashOfPrev, ← h.hashOfMerkles]

end WorkingBlock

-- ---------------------------------------------------------------------------
-- A solved block
-- ---------------------------------------------------------------------------

/-- What `exec_generator` passes: the shard order of a block, and no more hashes than
there are shards in as many blocks as `make_prev_txhashes` visits. -/
structure GenArgs.Bounded (args : GenArgs D) : Prop where
  shardOrder : args.shardOrder.toNat ≤ protocolMaxShardOrder.toNat
  numPrevTxhashes : args.numPrevTxhashes.toNat
    ≤ protocolPrevBlockTxhashes * 2 ^ protocolMaxShardOrder.toNat

/-- The block has these parts. -/
structure Block.OfParts (blk : Block D) (p : BlockParts D) : Prop where
  hdr : blk.hdr = p.hdr
  shardNums : blk.shardNums = p.shardNums
  merkles : blk.merkles = p.merkles

section

variable [DecidableEq D]

/-- `recv_shard` finds nothing wrong with the packet, and goes on to its hashes. -/
def TakesShard (E : Env D) (s : State D) (peer : Option Peer) (b : BlockId) (pkt : PktShard D) :
    Prop :=
  recvShard E s peer pkt = (do
    let s ← putTxhashesInShard E b pkt.shard.toNat pkt.hashes 0 s
    let s ← tryResolveHashes E (peer.map Peer.id) b pkt.shard.toNat peer.isSome
      (List.range ((s.blk b).shardSize pkt.shard.toNat)) s
    .ok (s, .none))

/-- The hashes written for a shard have its merkle. -/
theorem takesShard_of_hashed {E : Env D} {w : WorkingBlock D} (h : w.Hashed E.crypto)
    (horder : w.hdr.shardOrder.toNat ≤ protocolMaxShardOrder.toNat) {pkt : PktShard D}
    (hpkt : pkt ∈ w.writeBlock.2) {s : State D} {b : Nat} (hfind : blockFindAny s w.sha = some b)
    (hparts : (s.blk b).OfParts w.parts) (hgood : (s.blk b).complaint = none)
    (hsize : (s.blk b).shardSize pkt.shard.toNat ≠ 0) (peer : Option Peer) :
    TakesShard E s peer b pkt := by
  obtain ⟨shard, hshard, rfl⟩ := List.mem_map.mp hpkt
  rw [List.mem_range] at hshard
  obtain ⟨n, l, hn, hl, hlen⟩ := WorkingBlock.exists_getElem_of_counted h.counted hshard
  have hlt : shard < 2 ^ 16 := hshard.trans_le (Nat.pow_le_pow_right (by omega) horder)
  have hnat : (UInt16.ofNat shard).toNat = shard := UInt16.toNat_ofNat_of_lt' hlt
  have hhashes : (w.transHashes[shard]?.getD []).take (w.shardNums[shard]?.getD 0).toNat = l := by
    rw [hn, hl, Option.getD_some, Option.getD_some, hlen, List.take_length]
  have hshards : (s.blk b).numShards = w.numShards := by
    unfold Block.numShards
    rw [hparts.hdr]
    rfl
  have hnum : (s.blk b).shardSize shard = l.length := by
    unfold Block.shardSize
    rw [hparts.shardNums, ← hlen]
    show (w.shardNums[shard]?.getD 0).toNat = _
    rw [hn, Option.getD_some]
  have hmerkle : (s.blk b).merkles[shard]? = some (hashesRoot E.crypto l) := by
    rw [hparts.merkles]
    show w.merkles[shard]? = _
    rw [h.merkles shard, hl, Option.map_some]
  dsimp only at hsize
  rw [hnat] at hsize
  unfold TakesShard recvShard
  dsimp only
  rw [hhashes, hnat, hfind]
  dsimp only
  rw [if_neg (by rw [hgood]; simp), if_neg (by rw [hshards]; exact Nat.not_le_of_lt hshard),
    if_neg (by rw [hnum]; simp), if_neg hsize, hnum, merkleHashes_eq_entriesRoot, ok_bind,
    if_neg (by rw [hmerkle]; simp [hashesRoot])]

end

/-- **A solved block is the block that was hashed**: however transactions were added and
nonces tried before, the packet carries the block with that hash, and its shards have
the merkles of that block. -/
theorem solved_block_is_hashed {E : Env (Bytes 32)} {args : GenArgs (Bytes 32)}
    {w w' : WorkingBlock (Bytes 32)} {now : UInt32} (hargs : args.Bounded)
    (h : Generates E.crypto args w) (hsolve : w.solveBlock E.crypto now = .ok (w', true)) :
    w'.sha = hashBlock E.crypto w'.parts ∧
      beatsTarget (hashBlock E.crypto w'.parts) args.difficulty = .ok true ∧
      (∃ (len : UInt32) (contents : Bytes len.toNat),
        w'.writeBlock.1 = le32 (len + UInt32.ofNat sizeofPktBlock) ++ le32 protocolPktBlock ++ le32 0
            ++ contents.1 ∧
          unmarshalBlock readSha contents = .ok w'.parts) ∧
      ∀ pkt ∈ w'.writeBlock.2, ∀ (s : State (Bytes 32)) (peer : Option Peer) (b : BlockId),
        blockFindAny s pkt.block = some b → (s.blk b).OfParts w'.parts →
        (s.blk b).complaint = none → (s.blk b).shardSize pkt.shard.toNat ≠ 0 →
        TakesShard E s peer b pkt := by
  obtain ⟨hhashed, hof⟩ := WorkingBlock.hashed_of_generates h
  obtain ⟨hbeats, rfl⟩ := WorkingBlock.of_solveBlock hsolve
  rw [if_pos rfl]
  obtain ⟨hhashed', hof'⟩ := WorkingBlock.finishHash_ok hhashed hof
  have hsha : hashBlock E.crypto (w.finishHash E.crypto).parts = (w.finishHash E.crypto).sha :=
    WorkingBlock.hashBlock_parts hhashed'
  have horder : (w.finishHash E.crypto).hdr.shardOrder.toNat ≤ protocolMaxShardOrder.toNat := by
    rw [hof'.shardOrder]
    exact hargs.shardOrder
  refine ⟨hsha.symm, ?_, ?_, ?_⟩
  · rw [hsha, ← hof.difficulty]
    exact hbeats
  · have hlen := marshalBlockInto_length (w.finishHash E.crypto).parts
    have hpow : 2 ^ (w.finishHash E.crypto).hdr.shardOrder.toNat ≤ 2 ^ 16 :=
      Nat.pow_le_pow_right (by omega) horder
    have hnum : (w.finishHash E.crypto).hdr.numPrevTxhashes.toNat ≤ 10 * 2 ^ 16 := by
      rw [hof'.numPrevTxhashes]
      exact hargs.numPrevTxhashes
    have hnat : (UInt32.ofNat (marshalBlockInto (w.finishHash E.crypto).parts).length).toNat
        = (marshalBlockInto (w.finishHash E.crypto).parts).length := by
      refine UInt32.toNat_ofNat_of_lt' ?_
      rw [hlen]
      show 88 + 33 * 2 ^ (w.finishHash E.crypto).hdr.shardOrder.toNat
        + (w.finishHash E.crypto).hdr.numPrevTxhashes.toNat < 2 ^ 32
      omega
    refine ⟨_, ⟨marshalBlockInto (w.finishHash E.crypto).parts, hnat.symm⟩, ?_,
      unmarshalBlock_marshalBlockInto ?_ horder rfl⟩
    · show marshalBlock _ = _
      unfold marshalBlock
      rw [Nat.add_comm, UInt32.ofNat_add]
    · show versionOk (w.finishHash E.crypto).hdr.version = true
      rw [hof'.version]
      rfl
  · intro pkt hpkt s peer b hfind hparts hgood hsize
    have hblock : pkt.block = (w.finishHash E.crypto).sha := by
      obtain ⟨shard, -, rfl⟩ := List.mem_map.mp hpkt
      rfl
    exact takesShard_of_hashed hhashed' horder hpkt (hblock ▸ hfind) hparts hgood hsize peer

/-- Every hash beats a target. -/
def zeroEnv : Env (Bytes 32) where
  crypto := { doubleSha := fun _ => Bytes.zero 32, pubkeyToAddr := fun _ => Bytes.zero 20
              ecdsaVerify := fun _ _ _ => true }
  past _ := ⟨0, Bytes.zero 20⟩
  txLayout := Layout.append _
  inputLayout := Layout.append _

/-- The first block after a genesis block, with a nonce. -/
def zeroArgs : GenArgs (Bytes 32) where
  feesTo := Bytes.zero 20
  difficulty := 0x1effffff
  prevHash := Bytes.zero 32
  numPrevTxhashes := 4
  depth := 1
  shardOrder := 2
  nonce := some [65, 66]
  prevTxhashes := ⟨List.replicate 5 0, rfl⟩

theorem zeroArgs_bounded : zeroArgs.Bounded := ⟨by decide, by decide⟩

/-- A hash that beats the target if the sum of the bytes is even. -/
def parityEnv : Env (Bytes 32) where
  crypto := { doubleSha := fun bytes =>
                ⟨List.replicate 30 7 ++ [0, UInt8.ofNat ((bytes.map UInt8.toNat).sum % 2)], rfl⟩
              pubkeyToAddr := fun _ => Bytes.zero 20, ecdsaVerify := fun _ _ _ => true }
  past _ := ⟨0, Bytes.zero 20⟩
  txLayout := Layout.append _
  inputLayout := Layout.append _

/-- Transactions for the second shard. -/
def updateAt (txoff hash : UInt8) : GenUpdate (Bytes 32) :=
  ⟨1, txoff, 0, ⟨⟨List.replicate 32 hash, rfl⟩, Bytes.zero 32⟩⟩

/-- Two transactions are added; a nonce fails after each of them, and the next one does not. -/
theorem solved_block_is_hashed_parity : ∃ w w' : WorkingBlock (Bytes 32),
    Generates parityEnv.crypto zeroArgs w ∧
      w.solveBlock parityEnv.crypto 1004 = .ok (w', true) ∧ w'.tailer.nonce1 = 2 ∧
      w'.transHashes[1]? = some [(updateAt 0 5).hashes, (updateAt 1 6).hashes] ∧
      w'.sha = hashBlock parityEnv.crypto w'.parts := by
  have hrun : ((generateStart parityEnv.crypto zeroArgs 1001).toOption.join.any fun w₀ =>
      (w₀.addTx parityEnv.crypto (updateAt 0 5)).toOption.any fun w₁ =>
        (w₁.solveBlock parityEnv.crypto 1002).toOption.any fun w₂ =>
          (w₂.1.addTx parityEnv.crypto (updateAt 1 6)).toOption.any fun w₃ =>
            (w₃.solveBlock parityEnv.crypto 1003).toOption.any fun w₄ =>
              (w₄.1.solveBlock parityEnv.crypto 1004).toOption.any fun w₅ =>
                decide (w₂.2 = false) && decide (w₄.2 = false) && decide (w₅.2 = true) &&
                  decide (w₅.1.tailer.nonce1 = 2) &&
                  decide (w₅.1.transHashes[1]? = some [(updateAt 0 5).hashes, (updateAt 1 6).hashes]))
        = true := by
    decide +kernel
  obtain ⟨w₀, h₀, hrun⟩ := (Option.any_eq_true _ _).mp hrun
  obtain ⟨w₁, h₁, hrun⟩ := (Option.any_eq_true _ _).mp hrun
  obtain ⟨⟨w₂, solved₂⟩, h₂, hrun⟩ := (Option.any_eq_true _ _).mp hrun
  obtain ⟨w₃, h₃, hrun⟩ := (Option.any_eq_true _ _).mp hrun
  obtain ⟨⟨w₄, solved₄⟩, h₄, hrun⟩ := (Option.any_eq_true _ _).mp hrun
  obtain ⟨⟨w₅, solved₅⟩, h₅, hrun⟩ := (Option.any_eq_true _ _).mp hrun
  simp only [Bool.and_eq_true, decide_eq_true_eq] at hrun
  obtain ⟨⟨⟨⟨rfl, rfl⟩, rfl⟩, hnonce⟩, hhashes⟩ := hrun
  have hstart : Generates parityEnv.crypto zeroArgs w₀ :=
    .start 1001 (eq_ok_of_toOption (Option.join_eq_some_iff.mp h₀))
  have hfirst := Generates.unsolved 1002 (.add _ hstart (eq_ok_of_toOption h₁)) (eq_ok_of_toOption h₂)
  have hsecond := Generates.unsolved 1003 (.add _ hfirst (eq_ok_of_toOption h₃)) (eq_ok_of_toOption h₄)
  have hsolve := eq_ok_of_toOption h₅
  exact ⟨w₄, w₅, hsecond, hsolve, hnonce, hhashes,
    (solved_block_is_hashed zeroArgs_bounded hsecond hsolve).1⟩

end Pettycoin
