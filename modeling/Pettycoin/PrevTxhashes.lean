import Pettycoin.Generating

/-!
# Pettycoin — the hashes of previous transactions

`make_prev_txhashes` writes one byte for each shard of the ancestors that
`for_each_prev_txhash` visits. Whoever has these blocks, and knows any part of what
is in them, reads the bytes where they were written (`prev_txhashes_pass`).

* `SameChains.visits` — both visit the same blocks;
* `PartOf.prevTxhash_eq` — a byte, from any part of the shard;
* `checkPrevTxhashesFrom_append` — the bytes of one block after those of another;
* `prev_txhashes_pass` — no byte of a maker is objected to.
-/

namespace Pettycoin

open ExceptRules

variable {D : Type} [Digest D]

-- ---------------------------------------------------------------------------
-- prev_txhashes.c
-- ---------------------------------------------------------------------------

/-- `check_num_prev_txhashes()`. -/
def checkNumPrevTxhashes (s : State D) (prevBlock : BlockId) (hdr : BlockHeader D) : Bool :=
  hdr.numPrevTxhashes.toNat == numPrevTxhashes s prevBlock

-- ---------------------------------------------------------------------------
-- Nodes with the same blocks
-- ---------------------------------------------------------------------------

/-- What is known of one shard is part of what is known of another. -/
structure PartOf (shard' shard : BlockShard D) : Prop where
  size : shard'.size = shard.size
  txs : ∀ i tx refs, shard'.u i = .tx tx refs → shard.u i = .tx tx refs

/-- `R` relates blocks of the node at `s'` to the same blocks of the node at `s`, which knows
all of their transactions that the first one knows. -/
structure SameChains (R : BlockId → BlockId → Prop) (s' s : State D) : Prop where
  prevSome : ∀ {b' b p' : BlockId}, R b' b → (s'.blk b').prev = some p' →
    ∃ p, (s.blk b).prev = some p ∧ R p' p
  prevNone : ∀ {b' b : BlockId}, R b' b → (s'.blk b').prev = none → (s.blk b).prev = none
  shardOrder : ∀ {b' b : BlockId}, R b' b → (s'.blk b').hdr.shardOrder = (s.blk b).hdr.shardOrder
  part : ∀ {b' b : BlockId}, R b' b → ∀ j, PartOf (s'.shardOf b' j) (s.shardOf b j)

variable {C : Crypto D} {s s' : State D} {R : BlockId → BlockId → Prop} {b b' : Nat}

omit [Digest D] in
theorem SameChains.numShards (h : SameChains R s' s) (hb : R b' b) :
    (s'.blk b').numShards = (s.blk b).numShards := by
  unfold Block.numShards
  rw [h.shardOrder hb]

omit [Digest D] in
theorem exists_tx_of_isTx {slot : Slot D} (h : slot.isTx = true) :
    ∃ tx refs, slot = .tx tx refs := by
  cases slot with
  | tx tx refs => exact ⟨tx, refs, rfl⟩
  | hash e => exact absurd h (by simp [Slot.isTx])
  | unknown => exact absurd h (by simp [Slot.isTx])

omit [Digest D] in
/-- Both nodes come to the same ancestor. -/
theorem SameChains.ancestor (h : SameChains R s' s) (hb : R b' b) (n : Nat) :
    (blockAncestor s' b' n = none ∧ blockAncestor s b n = none) ∨
      ∃ a' a, blockAncestor s' b' n = some a' ∧ blockAncestor s b n = some a ∧ R a' a := by
  induction n generalizing b' b with
  | zero => exact .inr ⟨b', b, rfl, rfl, hb⟩
  | succ n ih =>
    unfold blockAncestor
    cases hprev : (s'.blk b').prev with
    | none =>
      rw [h.prevNone hb hprev]
      exact .inl ⟨rfl, rfl⟩
    | some p' =>
      obtain ⟨p, hp, hR⟩ := h.prevSome hb hprev
      rw [hp]
      exact ih hR

omit [Digest D] in
/-- Both visit the same blocks. -/
theorem SameChains.visits (h : SameChains R s' s) (hb : R b' b) (n : Nat) :
    List.Forall₂ R (prevTxhashBlocks s' n (some b')) (prevTxhashBlocks s n (some b)) := by
  induction n generalizing b' b with
  | zero => exact .nil
  | succ n ih =>
    unfold prevTxhashBlocks
    refine .cons hb ?_
    rcases h.ancestor hb (2 ^ (protocolPrevBlockTxhashes - (n + 1))) with ⟨hnone', hnone⟩ | hsome
    · rw [hnone', hnone]
      cases n with
      | zero => exact .nil
      | succ n => exact .nil
    · obtain ⟨a', a, ha', ha, hR⟩ := hsome
      rw [ha', ha]
      exact ih hR

/-- Who knows all of a shard takes the same byte from it. -/
theorem PartOf.prevTxhash_eq {shard' shard : BlockShard D} (h : PartOf shard' shard)
    (hknown : ∀ i < shard'.size, (shard'.u i).isTx = true) (addr : Address) :
    prevTxhash C addr shard' = prevTxhash C addr shard := by
  have htxps : (List.range shard'.size).filterMap (txpFor shard')
      = (List.range shard.size).filterMap (txpFor shard) := by
    rw [← h.size]
    refine List.filterMap_congr fun i hi => ?_
    obtain ⟨tx, refs, hu⟩ := exists_tx_of_isTx (hknown i (List.mem_range.mp hi))
    unfold txpFor
    rw [hu, h.txs i tx refs hu]
  unfold prevTxhash
  rw [htxps]

-- ---------------------------------------------------------------------------
-- Where the bytes are
-- ---------------------------------------------------------------------------

/-- How far the checker has come after these blocks (`off`). -/
def offAfter (s : State D) (blocks : List BlockId) : Nat :=
  (blocks.map fun b => (s.blk b).numShards).sum

/-- A map that succeeds, as a map. -/
theorem map_of_mapM {α β : Type} {f : α → Option β} {g : α → β} {l : List α} {l' : List β}
    (hf : ∀ a b, f a = some b → b = g a) (h : l.mapM f = some l') : l' = l.map g := by
  have hall := forall₂_of_mapM h
  clear h
  induction hall with
  | nil => rfl
  | cons hb _ ih => rw [List.map_cons, hf _ _ hb, ih]

/-- The bytes of a block, as the maker has them. -/
def shardBytes (C : Crypto D) (s : State D) (addr : Address) (b : BlockId) : List UInt8 :=
  (List.range (s.blk b).numShards).map fun j => prevTxhash C addr (s.shardOf b j)

theorem length_shardBytes (C : Crypto D) (s : State D) (addr : Address) (b : BlockId) :
    (shardBytes C s addr b).length = (s.blk b).numShards := by
  unfold shardBytes
  rw [List.length_map, List.length_range]

theorem length_flatMap_shardBytes (C : Crypto D) (s : State D) (addr : Address)
    (blocks : List BlockId) :
    (blocks.flatMap (shardBytes C s addr)).length = offAfter s blocks := by
  induction blocks with
  | nil => rfl
  | cons b blocks ih =>
    rw [List.flatMap_cons, List.length_append, length_shardBytes, ih]
    rfl

/-- The maker's bytes are those of one block after the other. -/
theorem makePrevTxhashes_some {addr : Address} {prev : BlockId} {bytes : List UInt8}
    (h : makePrevTxhashes C s prev addr = some bytes) :
    bytes = (prevTxhashBlocks s protocolPrevBlockTxhashes (some prev)).flatMap
      (shardBytes C s addr) := by
  have hmap := map_of_mapM (g := fun place : BlockId × Nat =>
    prevTxhash C addr (s.shardOf place.1 place.2)) (fun place byte hbyte => ?_) h
  · rw [hmap, List.map_flatMap]
    unfold shardBytes
    simp only [List.map_map]
    rfl
  · split_ifs at hbyte
    exact (Option.some.inj hbyte).symm

/-- There are as many as `num_prev_txhashes` says, which `make_prev_txhashes` asserts. -/
theorem length_makePrevTxhashes {addr : Address} {prev : BlockId} {bytes : List UInt8}
    (h : makePrevTxhashes C s prev addr = some bytes) :
    bytes.length = numPrevTxhashes s prev := by
  rw [makePrevTxhashes_some h]
  exact length_flatMap_shardBytes C s addr _

/-- The byte for shard `j` of the block after these. -/
theorem byte_at {addr : Address} {blocks early late : List BlockId} {j : Nat}
    (hblocks : blocks = early ++ b :: late) (hj : j < (s.blk b).numShards) :
    (blocks.flatMap (shardBytes C s addr))[offAfter s early + j]?
      = some (prevTxhash C addr (s.shardOf b j)) := by
  rw [hblocks, List.flatMap_append, List.flatMap_cons, List.getElem?_append_right]
  · rw [length_flatMap_shardBytes, Nat.add_sub_cancel_left, List.getElem?_append_left]
    · unfold shardBytes
      rw [List.getElem?_map, List.getElem?_range hj]
      rfl
    · rw [length_shardBytes]
      exact hj
  · rw [length_flatMap_shardBytes]
    exact Nat.le_add_right _ _

-- ---------------------------------------------------------------------------
-- The checker
-- ---------------------------------------------------------------------------

/-- The checker comes to a block with the shards of those before it counted. -/
theorem checkPrevTxhashesFrom_append (C : Crypto D) (s : State D) (block : BlockId)
    (early late : List BlockId) (off : Nat)
    (hgood : ∀ e b l, early = e ++ b :: l →
      prevTxhashesDiffer C s block b (off + offAfter s e) = false) :
    checkPrevTxhashesFrom C s block (early ++ late) off
      = checkPrevTxhashesFrom C s block late (off + offAfter s early) := by
  induction early generalizing off with
  | nil => rfl
  | cons b early ih =>
    have hfirst := hgood [] b early rfl
    rw [List.cons_append, checkPrevTxhashesFrom]
    rw [show off + offAfter s [] = off from rfl] at hfirst
    rw [hfirst, if_neg (by simp), ih (off + (s.blk b).numShards)]
    · rw [Nat.add_assoc]
      rfl
    · intro e b' l he
      rw [Nat.add_assoc]
      exact hgood (b :: e) b' l (by rw [he]; rfl)

omit [Digest D] in
theorem SameChains.offAfter_eq (h : SameChains R s' s) {blocks' blocks : List BlockId}
    (hblocks : List.Forall₂ R blocks' blocks) : offAfter s' blocks' = offAfter s blocks := by
  induction hblocks with
  | nil => rfl
  | cons hb _ ih =>
    show (s'.blk _).numShards + offAfter s' _ = (s.blk _).numShards + offAfter s _
    rw [h.numShards hb, ih]

/-- The checker finds at its `off + j` what the maker wrote for the same block and shard. -/
theorem SameChains.byte_at (h : SameChains R s' s) {addr : Address} {prev p' : BlockId}
    {bytes : List UInt8} (hsame : R p' prev) (hmake : makePrevTxhashes C s prev addr = some bytes)
    {k j : Nat} (hb' : (prevTxhashBlocks s' protocolPrevBlockTxhashes (some p'))[k]? = some b')
    (hb : (prevTxhashBlocks s protocolPrevBlockTxhashes (some prev))[k]? = some b)
    (hj : j < (s'.blk b').numShards) :
    bytes[offAfter s' ((prevTxhashBlocks s' protocolPrevBlockTxhashes (some p')).take k) + j]?
      = some (prevTxhash C addr (s.shardOf b j)) := by
  have hvisits := h.visits hsame protocolPrevBlockTxhashes
  obtain ⟨hlt', rfl⟩ := List.getElem?_eq_some_iff.mp hb'
  obtain ⟨hlt, rfl⟩ := List.getElem?_eq_some_iff.mp hb
  rw [makePrevTxhashes_some hmake, h.offAfter_eq (List.forall₂_take k hvisits)]
  have hsplit : prevTxhashBlocks s protocolPrevBlockTxhashes (some prev)
      = (prevTxhashBlocks s protocolPrevBlockTxhashes (some prev)).take k ++
        (prevTxhashBlocks s protocolPrevBlockTxhashes (some prev))[k] ::
          (prevTxhashBlocks s protocolPrevBlockTxhashes (some prev)).drop (k + 1) := by
    rw [← List.drop_eq_getElem_cons hlt, List.take_append_drop]
  exact Pettycoin.byte_at hsplit (hj.trans_eq (h.numShards (hvisits.get hlt' hlt)))

/-- **The bytes of a maker pass every verifier**: one that has the same blocks, of whatever
shard orders, and knows any part of what is in them. All that is asked of it is that it
counts the transactions it knows (`Ledger.counted`). Its `off` never goes astray: at each
block it is where the maker's bytes for that block are. -/
theorem prev_txhashes_pass (hcounted : ∀ b j, (s'.shardOf b j).Counted)
    (hsame : SameChains R s' s) {block p' prev : BlockId} {addr : Address}
    {bytes : List UInt8} (hprev : (s'.blk block).prev = some p') (hR : R p' prev)
    (hmake : makePrevTxhashes C s prev addr = some bytes)
    (hbytes : (s'.blk block).prevTxhashes = bytes)
    (hnum : (s'.blk block).hdr.numPrevTxhashes.toNat = bytes.length)
    (hfees : (s'.blk block).hdr.feesTo = addr) :
    checkNumPrevTxhashes s' p' (s'.blk block).hdr = true ∧
      checkPrevTxhashes C s' block = .ok true ∧
      ∀ (k j : Nat) (b' b : BlockId),
        (prevTxhashBlocks s' protocolPrevBlockTxhashes (some p'))[k]? = some b' →
        (prevTxhashBlocks s protocolPrevBlockTxhashes (some prev))[k]? = some b →
        j < (s'.blk b').numShards →
        (s'.blk block).prevTxhashes[offAfter s'
            ((prevTxhashBlocks s' protocolPrevBlockTxhashes (some p')).take k) + j]?
          = some (prevTxhash C addr (s.shardOf b j)) := by
  have hvisits := hsame.visits hR protocolPrevBlockTxhashes
  have hcount : (s'.blk block).hdr.numPrevTxhashes.toNat = numPrevTxhashes s' p' := by
    rw [hnum, length_makePrevTxhashes hmake]
    exact (hsame.offAfter_eq hvisits).symm
  refine ⟨?_, ?_, fun k j b' b hb' hb hj => ?_⟩
  · unfold checkNumPrevTxhashes
    rw [hcount]
    exact beq_self_eq_true _
  · unfold checkPrevTxhashes
    rw [hprev]
    have hpass := checkPrevTxhashesFrom_append C s' block
      (prevTxhashBlocks s' protocolPrevBlockTxhashes (some p')) [] 0 ?_
    · rw [List.append_nil] at hpass
      rw [hpass, Nat.zero_add]
      unfold checkPrevTxhashesFrom assert
      have hoff : (offAfter s' (prevTxhashBlocks s' protocolPrevBlockTxhashes (some p'))
          == numPrevTxhashes s' p') = true := beq_self_eq_true _
      rw [hcount, hoff]
      rfl
    · intro early b' late hblocks
      have hb' : (prevTxhashBlocks s' protocolPrevBlockTxhashes (some p'))[early.length]?
          = some b' := by
        rw [hblocks, List.getElem?_append_right (Nat.le_refl _), Nat.sub_self]
        rfl
      have hlt := (List.getElem?_eq_some_iff.mp hb').1
      obtain ⟨b, hb⟩ : ∃ b, (prevTxhashBlocks s protocolPrevBlockTxhashes (some prev))[early.length]?
          = some b := ⟨_, List.getElem?_eq_getElem (hvisits.length_eq ▸ hlt)⟩
      have hRb : R b' b := by
        obtain ⟨hlt', rfl⟩ := List.getElem?_eq_some_iff.mp hb'
        obtain ⟨hlt, rfl⟩ := List.getElem?_eq_some_iff.mp hb
        exact hvisits.get hlt' hlt
      unfold prevTxhashesDiffer
      refine List.any_eq_false.mpr fun j hj => ?_
      have hat := hsame.byte_at hR hmake hb' hb (List.mem_range.mp hj)
      rw [hblocks, List.take_left] at hat
      rw [hfees, hbytes, Nat.zero_add, hat]
      by_cases hknown : shardAllKnown (s'.shardOf b' j) = true
      · rw [(hsame.part hRb j).prevTxhash_eq fun i hi => (hcounted b' j).isTx hknown hi]
        simp
      · simp [hknown]
  · rw [hbytes]
    exact hsame.byte_at hR hmake hb' hb hj

/-- A hash that tells how long the message was. -/
def lengthHash : Crypto (Bytes 32) where
  doubleSha m := ⟨UInt8.ofNat m.length :: List.replicate 31 0, by simp⟩
  pubkeyToAddr := idealCrypto.pubkeyToAddr
  ecdsaVerify _ _ _ := true

/-- A payment to `n` addresses. -/
def paymentTo (n : UInt8) : Tx (Bytes 32) :=
  .fromGateway
    { version := 1, paysFee := false, features := 0, gatewayKey := sampleKey 9, unused := 0
      signature := ⟨Bytes.zero 32, Bytes.zero 32⟩
      outputs := List.replicate n.toNat ⟨100, idealCrypto.pubkeyToAddr (sampleKey 1)⟩
      numOutputs_lt := by
        rw [List.length_replicate]
        exact n.toNat_lt.trans (by decide) }

/-- A shard of one payment, which may be known. -/
def paymentShard (n : UInt8) (known : Bool) : BlockShard (Bytes 32) :=
  if known then
    { newBlockShard 0 1 with txcount := 1, u := fun _ => .tx (paymentTo n) [] }
  else newBlockShard 0 1

/-- A chain of five blocks of 4, 1, 2, 8 and 4 shards. The first shard of each holds a
payment; `known` says in which blocks it is known. The blocks carry `bytes`. -/
def sampleOrders (known : BlockId → Bool) (bytes : List UInt8) : State (Bytes 32) :=
  let genesis := genesisBlock (Bytes.zero 32) (Bytes.zero 32) (Bytes.zero 13) ⟨0, 0x1effffff, 0⟩
  { newState genesis 0 with
    numBlocks := 5
    blk := fun b => { genesis with
      prev := if b = 0 then none else some (b - 1)
      hdr := { genesis.hdr with
        shardOrder := [2, 0, 1, 3].getD b 2, numPrevTxhashes := UInt32.ofNat bytes.length }
      prevTxhashes := bytes
      shard := fun j =>
        if j = 0 then paymentShard (UInt8.ofNat b) (known b) else newBlockShard j 0 } }

theorem counted_sampleOrders (known : BlockId → Bool) (bytes : List UInt8) (b j : Nat) :
    ((sampleOrders known bytes).shardOf b j).Counted := by
  show (if j = 0 then paymentShard (UInt8.ofNat b) (known b) else newBlockShard j 0).Counted
  split
  · cases known b <;> rfl
  · rfl

/-- Who knows less of them has the same blocks. -/
theorem sameChains_sampleOrders {known' known : BlockId → Bool} (bytes' bytes : List UInt8)
    (h : ∀ b, known' b = true → known b = true) :
    SameChains Eq (sampleOrders known' bytes') (sampleOrders known bytes) where
  prevSome := by
    rintro b' _ p' rfl hp
    exact ⟨p', hp, rfl⟩
  prevNone := by
    rintro b' _ rfl hp
    exact hp
  shardOrder := by
    rintro b' _ rfl
    rfl
  part := by
    rintro b' _ rfl j
    show PartOf (if j = 0 then paymentShard (UInt8.ofNat b') (known' b') else newBlockShard j 0)
      (if j = 0 then paymentShard (UInt8.ofNat b') (known b') else newBlockShard j 0)
    split
    · cases hknown' : known' b' with
      | true =>
        rw [h b' hknown']
        exact ⟨rfl, fun _ _ _ hu => hu⟩
      | false =>
        refine ⟨?_, fun _ _ _ hu => absurd hu (by simp [paymentShard, newBlockShard])⟩
        cases known b' <;> rfl
    · exact ⟨rfl, fun _ _ _ hu => hu⟩

/-- The bytes for the 8, 2 and 4 shards of the blocks that are visited, three payments among
them. -/
def sampleBytes : List UInt8 := [196, 20, 20, 20, 20, 20, 20, 20, 172, 20, 124, 20, 20, 20]

/-- The block that carries them passes at a node that knows one of the payments; behind
the 8 bytes of the first block it finds the byte for that. -/
theorem prev_txhashes_pass_orders :
    makePrevTxhashes lengthHash (sampleOrders (fun _ => true) []) 3 (Bytes.zero 20)
        = some sampleBytes ∧
      checkNumPrevTxhashes (sampleOrders (· == 2) sampleBytes) 3
        ((sampleOrders (· == 2) sampleBytes).blk 4).hdr = true ∧
      checkPrevTxhashes lengthHash (sampleOrders (· == 2) sampleBytes) 4 = .ok true ∧
      sampleBytes[8]? = some (prevTxhash lengthHash (Bytes.zero 20) (paymentShard 2 true)) := by
  have hmake : makePrevTxhashes lengthHash (sampleOrders (fun _ => true) []) 3 (Bytes.zero 20)
      = some sampleBytes := by decide +kernel
  have hprev : ((sampleOrders (· == 2) sampleBytes).blk 4).prev = some 3 := rfl
  obtain ⟨hnum, hcheck, hbyte⟩ := prev_txhashes_pass
    (counted_sampleOrders (· == 2) sampleBytes)
    (sameChains_sampleOrders sampleBytes [] fun _ _ => rfl) hprev rfl hmake rfl rfl rfl
  exact ⟨hmake, hnum, hcheck, hbyte 1 0 2 2 (by decide) (by decide) (by decide)⟩

end Pettycoin
