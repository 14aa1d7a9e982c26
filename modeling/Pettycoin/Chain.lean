import Pettycoin.Shard

/-!
# Pettycoin — the block chains

`chain.h`, `chain.c`, `prev_txhashes.c`, `block_add` with what it calls in
`features.c` and `difficulty.c`, and the part of `pending.c` that `chain.c`
uses.

A loop that follows `prev` runs on the depth of the block it starts from, and a
recursion over `children` on the number of blocks.

* `blockAdd` — a block is linked in and the heads are moved;
* `updateBlockPtrsNewShard` — a shard of a block becomes known;
* `updateBlockPtrsInvalidated` — a block and all below it are out;
* `checkPrevTxhashes` — the bytes for the previous transactions, as a verifier reads
  them.
-/

namespace Pettycoin

open ExceptRules

variable {D : Type} [Digest D]

-- ---------------------------------------------------------------------------
-- Following `prev`
-- ---------------------------------------------------------------------------

/-- The recursion of `block_preceeds`. -/
def blockPreceedsFrom (s : State D) (a : BlockId) : Nat → BlockId → Bool
  | 0, b => a == b
  | n + 1, b =>
    a == b || ((s.blk a).depth < (s.blk b).depth &&
      match (s.blk b).prev with
      | some p => blockPreceedsFrom s a n p
      | none => false)

/-- `block_preceeds()`: is `a` in the chain before `b` (or `b` itself)? -/
def blockPreceeds (s : State D) (a b : BlockId) : Bool :=
  blockPreceedsFrom s a (s.blk b).depth b

/-- `block_ancestor()`: follow `prev` that many times. -/
def blockAncestor (s : State D) : BlockId → Nat → Option BlockId
  | a, 0 => some a
  | a, count + 1 =>
    match (s.blk a).prev with
    | some p => blockAncestor s p count
    | none => none

/-- Move back while deeper than `depth`: where that ends, and the block before. -/
def rewindTo (s : State D) (depth : Nat) : Nat → BlockId → BlockId × Option BlockId
  | 0, b => (b, none)
  | n + 1, b =>
    if (s.blk b).depth > depth then
      match (s.blk b).prev with
      | some p =>
        let r := rewindTo s depth n p
        (r.1, r.2.or (some b))
      | none => (b, none)
    else (b, none)

/-- Move both back until they meet. -/
def stepMeet (s : State D) : Nat → BlockId → BlockId → Option BlockId → Option BlockId
  | 0, _, _, prevTarget => prevTarget
  | n + 1, curr, target, prevTarget =>
    if curr = target then prevTarget
    else
      match (s.blk curr).prev, (s.blk target).prev with
      | some c, some t => stepMeet s n c t (some target)
      | _, _ => prevTarget

/-- `step_towards()`: one step from the common ancestor towards `target`; `none`
if `curr` is `target` or a descendant of it. -/
def stepTowards (s : State D) (curr target : BlockId) : Option BlockId :=
  let curr := (rewindTo s (s.blk target).depth (s.blk curr).depth curr).1
  if curr = target then none
  else
    let (target, prevTarget) := rewindTo s (s.blk curr).depth (s.blk target).depth target
    stepMeet s ((s.blk curr).depth + 1) curr target prevTarget

-- ---------------------------------------------------------------------------
-- Comparing chains
-- ---------------------------------------------------------------------------

/-- `cmp_work()`. -/
def cmpWork (s : State D) (a b : BlockId) : Ordering :=
  compare (s.blk a).totalWork (s.blk b).totalWork

/-- `find_connected_pair()`: the first longest chain, and the first longest known
that precedes it, by index. -/
def findConnectedPair (s : State D) : Option (Nat × Nat) :=
  ((List.range s.longestChains.length).flatMap fun i =>
    (List.range s.longestKnowns.length).map fun j => (i, j)).find? fun ij =>
      blockPreceeds s (s.longestKnowns.getD ij.2 0) (s.longestChains.getD ij.1 0)

/-- From `i` back to `k` every block is unknown and none is the genesis block. -/
def unknownBackTo (s : State D) (k : BlockId) : Nat → BlockId → Bool
  | 0, i => i == k
  | n + 1, i =>
    i == k || (i != 0 && !(s.blk i).allKnown &&
      match (s.blk i).prev with
      | some p => unknownBackTo s k n p
      | none => false)

/-- `check_chains(state, false)`. -/
def checkChains (s : State D) : Res Unit := do
  let chain := s.longestChains.headD 0
  let known := s.longestKnowns.headD 0
  assert (s.longestChains.all fun c => cmpWork s c chain == .eq) .checkChains
  assert (s.longestKnowns.all fun k => cmpWork s k known == .eq) .checkChains
  assert (unknownBackTo s known (s.blk s.preferredChain).depth s.preferredChain) .checkChains
  assert (s.preferredChain == chain || (findConnectedPair s).isNone) .checkChains
  assert (s.blk s.preferredChain).complaint.isNone .checkChains
  assert (s.longestKnowns.all fun k => (s.blk k).complaint.isNone) .checkChains
  assert (s.longestChains.all fun c => (s.blk c).complaint.isNone) .checkChains

/-- Keep `block` if it has as much work as the best so far, and only it if more:
the `switch` of `find_longest_descendents` and `update_known_recursive`. -/
def keepBestWork (s : State D) (bests : List BlockId) (block : BlockId) : List BlockId :=
  match cmpWork s block (bests.headD 0) with
  | .gt => [block]
  | .eq => bests ++ [block]
  | .lt => bests

/-- `find_longest_descendents()`: search the descendants for more work than
`bests`. -/
def findLongestDescendents (s : State D) : Nat → BlockId → List BlockId → List BlockId
  | 0, _, bests => bests
  | fuel + 1, block, bests =>
    if (s.blk block).complaint.isSome then bests
    else
      (s.children block).foldl (fun bests b => findLongestDescendents s fuel b bests)
        (keepBestWork s bests block)

/-- `update_preferred_chain()`. -/
def updatePreferredChain (s : State D) : State D :=
  let known := s.longestKnowns.headD 0
  { s with preferredChain := (findLongestDescendents s s.numBlocks known [known]).headD 0 }

/-- `swap_blockptr()` of the first entry and entry `i`. -/
def swapToFront (l : List BlockId) (i : Nat) : List BlockId :=
  (l.set 0 (l.getD i 0)).set i (l.getD 0 0)

/-- `order_block_pointers()`: if a longest known leads to a longest chain, move
that pair to the front. -/
def orderBlockPointers (s : State D) : State D :=
  match findConnectedPair s with
  | none => s
  | some (chain, known) =>
    { s with
      longestChains := swapToFront s.longestChains chain
      longestKnowns := swapToFront s.longestKnowns known }

/-- `update_known_recursive()`: also returns whether `longest_knowns` changed. -/
def updateKnownRecursive : Nat → State D → BlockId → State D × Bool
  | 0, s, _ => (s, false)
  | fuel + 1, s, block =>
    if ((s.blk block).prev.any fun p => !(s.blk p).allKnown) then (s, false)
    else if !blockAllKnown s block then (s, false)
    else
      let s := s.modBlock block fun blk => { blk with allKnown := true }
      if (s.blk block).complaint.isSome then (s, false)
      else
        let changed := cmpWork s block (s.longestKnowns.headD 0) != .lt
        let s := { s with longestKnowns := keepBestWork s s.longestKnowns block }
        (s.children block).foldl
          (fun acc b =>
            let r := updateKnownRecursive fuel acc.1 b
            (r.1, acc.2 || r.2))
          (s, changed)

-- ---------------------------------------------------------------------------
-- Back to pending
-- ---------------------------------------------------------------------------

/-- `add_to_unknown_pending()`. -/
def addToUnknownPending (s : State D) (tx : Tx D) : State D :=
  s.modPending fun p =>
    { p with unknownTx := p.unknownTx ++ [tx], numUnknown := p.numUnknown + 1 }

/-- The transactions known in a block, in order. -/
def blockTxs (s : State D) (b : BlockId) : List (Tx D) :=
  (List.range (s.blk b).numShards).flatMap fun shard =>
    (List.range ((s.blk b).shardSize shard)).filterMap fun i => txFor (s.shardOf b shard) i

/-- `block_to_pending()`: put every transaction of the block into pending. -/
def blockToPending (s : State D) (b : BlockId) : State D :=
  (blockTxs s b).foldl (fun s tx => (addToUnknownPending s tx).setNeedsRecheck) s

/-- The loop of `steal_pending_txs`, from `b` back to `stop`. -/
def stealBackTo (stop : Option BlockId) : Nat → State D → BlockId → State D
  | 0, s, _ => s
  | n + 1, s, b =>
    if some b = stop then s
    else
      let s := blockToPending s b
      match (s.blk b).prev with
      | some p => stealBackTo stop n s p
      | none => s

/-- `steal_pending_txs()`: the longest known moves from `old` to `new`. -/
def stealPendingTxs (s : State D) (old new : BlockId) : State D :=
  match stepTowards s new old with
  | some last => stealBackTo (s.blk last).prev ((s.blk old).depth + 1) s old
  | none => s

-- ---------------------------------------------------------------------------
-- Updating the heads
-- ---------------------------------------------------------------------------

/-- `update_known()`. -/
def updateKnown (s : State D) (block : BlockId) : State D :=
  let prevKnown := s.longestKnowns.headD 0
  let (s, changed) := updateKnownRecursive s.numBlocks s block
  if !changed then s
  else
    let s := updatePreferredChain (orderBlockPointers s.setNeedsRecheck)
    let known := s.longestKnowns.headD 0
    if known != prevKnown then stealPendingTxs s prevKnown known else s

/-- `new_longest()`. -/
def newLongest (s : State D) (block : BlockId) : State D :=
  let pending := (s.blk block).pendingFeatures
  let s := if pending != 0 && s.upcomingFeatures == 0 then { s with upcomingFeatures := pending }
    else s
  updatePreferredChain (orderBlockPointers s)

/-- The blocks `for_each_prev_txhash` visits: at step `i` it goes back `2 ^ i`. -/
def prevTxhashBlocks (s : State D) : Nat → Option BlockId → List BlockId
  | 0, _ => []
  | _, none => []
  | n + 1, some b =>
    b :: prevTxhashBlocks s n (blockAncestor s b (2 ^ (protocolPrevBlockTxhashes - (n + 1))))

/-- `num_prev_txhashes()`. -/
def numPrevTxhashes (s : State D) (prevBlock : BlockId) : Nat :=
  ((prevTxhashBlocks s protocolPrevBlockTxhashes (some prevBlock)).map fun b =>
    (s.blk b).numShards).sum

/-- `prev_txhash()`: one byte that only who knows the whole shard can tell. -/
def prevTxhash (C : Crypto D) (addr : Address) (shard : BlockShard D) : UInt8 :=
  let txps := (List.range shard.size).filterMap (txpFor shard)
  let msg := txps.flatMap fun txp => marshalTx txp.1 ++ marshalRefs txp.2
  Digest.sha (C.doubleSha (addr.1 ++ msg)) 0

/-- The shards of `b` that contradict the bytes of `block` from `off` on. -/
def prevTxhashesDiffer (C : Crypto D) (s : State D) (block b : BlockId) (off : Nat) : Bool :=
  (List.range (s.blk b).numShards).any fun j =>
    shardAllKnown (s.shardOf b j) &&
      some (prevTxhash C (s.blk block).hdr.feesTo (s.shardOf b j))
        != (s.blk block).prevTxhashes[off + j]?

/-- The loop of `check_prev_txhashes`. -/
def checkPrevTxhashesFrom (C : Crypto D) (s : State D) (block : BlockId) :
    List BlockId → Nat → Res Bool
  | [], off => do
    assert (off == (s.blk block).hdr.numPrevTxhashes.toNat) .prevTxhashes
    .ok true
  | b :: rest, off =>
    if prevTxhashesDiffer C s block b off then .ok false
    else checkPrevTxhashesFrom C s block rest (off + (s.blk b).numShards)

/-- `check_prev_txhashes()`. -/
def checkPrevTxhashes (C : Crypto D) (s : State D) (block : BlockId) : Res Bool :=
  checkPrevTxhashesFrom C s block
    (prevTxhashBlocks s protocolPrevBlockTxhashes (s.blk block).prev) 0

/-- `recheck_merkles()`. `complain_bad_prev_txhashes` is not implemented. -/
def recheckMerkles (C : Crypto D) (s : State D) : Nat → BlockId → Res Unit
  | 0, _ => .ok ()
  | fuel + 1, block => do
    let good ← checkPrevTxhashes C s block
    if good then (s.children block).forM (recheckMerkles C s fuel) else .ok ()

/-- `update_block_ptrs_new_shard_or_empty()`. -/
def updateBlockPtrsNewShardOrEmpty (C : Crypto D) (s : State D) (block : BlockId) : Res Unit :=
  (s.children block).forM fun _ => recheckMerkles C s s.numBlocks block

/-- `update_block_ptrs_new_block()`. The block has no children yet, so that its
empty shards need no recheck. -/
def updateBlockPtrsNewBlock (s : State D) (block : BlockId) : State D :=
  let s :=
    match cmpWork s block (s.longestChains.headD 0) with
    | .gt => newLongest { s with longestChains := [block] } block
    | .eq => newLongest { s with longestChains := s.longestChains ++ [block] } block
    | .lt => s
  let s := if blockAllKnown s block then updateKnown s block else s
  updatePreferredChain s

/-- `update_block_ptrs_new_shard()`. -/
def updateBlockPtrsNewShard (C : Crypto D) (s : State D) (block : BlockId) : Res (State D) := do
  updateBlockPtrsNewShardOrEmpty C s block
  .ok (if blockAllKnown s block then updateKnown s block else s)

/-- `forget_about_all()`. -/
def forgetAboutAll : Nat → State D → BlockId → State D
  | 0, s, _ => s
  | fuel + 1, s, block =>
    let s := s.emit (.todoForgetAboutBlock block)
    (s.children block).foldl (forgetAboutAll fuel) s

/-- The heads of `update_block_ptrs_invalidated`, recalculated by brute force. -/
def recalculateHeads (s : State D) : State D :=
  let s := { s with longestChains := [0], longestKnowns := [0], preferredChain := 0 }
  let s := { s with longestChains := findLongestDescendents s s.numBlocks 0 s.longestChains }
  updateKnown s 0

/-- `update_block_ptrs_invalidated()`. -/
def updateBlockPtrsInvalidated (s : State D) (block : BlockId) : Res (State D) := do
  let s := recalculateHeads s
  checkChains s
  let s := forgetAboutAll s.numBlocks s block
  .ok (s.emit .wakePeers)

-- ---------------------------------------------------------------------------
-- Adding a block
-- ---------------------------------------------------------------------------

/-- `decode_difficulty()`: the mantissa shifted by its exponent. -/
def decodeDifficulty (difficulty : UInt32) : Nat :=
  (difficulty &&& 0x00FFFFFF).toNat * 2 ^ (((difficulty >>> 24).toNat - 3) * 8)

/-- The work `total_work_done` adds: `2^256 / (target + 1)`. -/
def blockWork (difficulty : UInt32) : Nat := 2 ^ 256 / (decodeDifficulty difficulty + 1)

/-- `PROTOCOL_FEATURE_VOTE_BLOCKS`. -/
def protocolFeatureVoteBlocks : Nat := 2016

/-- The first `n` blocks from `b` back. -/
def blocksBack (s : State D) : Nat → Option BlockId → List BlockId
  | 0, _ => []
  | _, none => []
  | n + 1, some b => b :: blocksBack s n (s.blk b).prev

/-- `pending_features()`: what three quarters of the last fortnight voted for. -/
def pendingFeatures (s : State D) (block : BlockId) : UInt8 :=
  if (s.blk block).depth % protocolFeatureVoteBlocks ≠ 0 then
    match (s.blk block).prev with
    | some p => (s.blk p).pendingFeatures
    | none => 0
  else
    let votes := (blocksBack s protocolFeatureVoteBlocks (some block)).map fun b =>
      (s.blk b).hdr.featuresVote
    (List.range 8).foldl
      (fun result j =>
        let bit : UInt8 := 1 <<< UInt8.ofNat j
        if votes.countP (fun v => v &&& bit != 0) * 4 / protocolFeatureVoteBlocks ≥ 3 then
          result ||| bit
        else result)
      0

/-- What a block packet carries, with the hash of it. -/
structure NewBlock (D : Type) where
  sha : D
  hdr : BlockHeader D
  shardNums : List UInt8
  merkles : List D
  prevTxhashes : List UInt8
  tailer : BlockTailer

/-- `new_block()`, on top of `prev`. -/
def newBlock (prev : BlockId) (prevWork : Nat) (nb : NewBlock D) : Block D :=
  { prev := some prev
    sha := nb.sha
    hdr := nb.hdr
    shardNums := nb.shardNums
    merkles := nb.merkles
    prevTxhashes := nb.prevTxhashes
    tailer := nb.tailer
    totalWork := blockWork nb.tailer.difficulty + prevWork
    pendingFeatures := 0
    allKnown := false
    complaint := none
    shard := fun i => newBlockShard i (nb.shardNums[i]?.getD 0).toNat }

/-- `block_add()` up to the point where the heads are updated: the block is
linked below `prev`, saved, and takes over its complaint. -/
def sewBlock (s : State D) (prev : BlockId) (nb : NewBlock D) : State D :=
  let b := s.numBlocks
  let s := { s with
    numBlocks := b + 1
    blk := Function.update s.blk b (newBlock prev (s.blk prev).totalWork nb) }
  let s := s.modBlock b fun blk => { blk with pendingFeatures := pendingFeatures s b }
  let s := if s.saving then s.emit (.saveBlock b) else s
  s.modBlock b fun blk => { blk with complaint := (s.blk prev).complaint }

/-- The heads after `block_add`. -/
def blockAddHeads (s : State D) (prev : BlockId) (nb : NewBlock D) : State D :=
  let b := s.numBlocks
  let s := sewBlock s prev nb
  if (s.blk b).complaint.isSome then s else updateBlockPtrsNewBlock s b

/-- `block_add()`: the state with the new block, and the block. -/
def blockAdd (s : State D) (prev : BlockId) (nb : NewBlock D) : Res (State D × BlockId) := do
  let b := s.numBlocks
  let s := blockAddHeads s prev nb
  checkChains s
  .ok (s, b)

end Pettycoin
