import Pettycoin.Slots
import Pettycoin.MarshalBlock
import Pettycoin.IdealHash

/-!
# Pettycoin — what a block's hash commits to

`hash_block` hashes two hashes, the header, the shard sizes and the tailer one after the
other. How long each part is stands in what comes before it, so without collisions the
hash determines the block (`hashBlock_injective`), and the blocks that a node has under a
hash are the one block of that hash (`block_id_commits`).

* `hashBlock_injective` — the hashed bytes determine the parts;
* `blocksHashed_of_nodeReach` — every block of a node has the hash it is filed under;
* `block_id_commits` — blocks with one hash are one block.
-/

namespace Pettycoin

open Encoding ExceptRules

variable {D : Type} [Digest D]

-- ---------------------------------------------------------------------------
-- The parts of a block
-- ---------------------------------------------------------------------------

/-- The bytes of a header determine it, and where it ends. -/
theorem selfDelimiting_header : SelfDelimiting (marshalHeader : BlockHeader D → List UInt8) := by
  intro a b x y h
  simp only [marshalHeader, List.append_assoc, List.cons_append, List.nil_append,
    List.cons.injEq] at h
  obtain ⟨hversion, hvote, horder, h⟩ := h
  obtain ⟨hnonce, h⟩ := selfDelimiting_bytes 13 h
  obtain ⟨hprev, h⟩ := selfDelimiting_digest h
  obtain ⟨hnum, h⟩ := selfDelimiting_le32 h
  obtain ⟨hdepth, h⟩ := selfDelimiting_le32 h
  obtain ⟨hfees, h⟩ := selfDelimiting_bytes 20 h
  cases a
  cases b
  simp_all

theorem selfDelimiting_tailer : SelfDelimiting marshalTailer := by
  rintro ⟨timestamp, difficulty, nonce1⟩ ⟨timestamp', difficulty', nonce1'⟩ x y h
  simp only [marshalTailer, List.append_assoc] at h
  obtain ⟨htime, h⟩ := selfDelimiting_le32 h
  obtain ⟨hdifficulty, h⟩ := selfDelimiting_le32 h
  obtain ⟨hnonce, h⟩ := selfDelimiting_le32 h
  exact ⟨by rw [htime, hdifficulty, hnonce], h⟩

/-- Without collisions the hash determines the block. -/
theorem hashBlock_injective {C : Crypto D} (hC : Function.Injective C.doubleSha) :
    Function.Injective (hashBlock C) := by
  intro p q h
  have h := hC h
  simp only [List.append_assoc] at h
  obtain ⟨hprev, h⟩ := selfDelimiting_digest h
  obtain ⟨hmerkles, h⟩ := selfDelimiting_digest h
  obtain ⟨hhdr, h⟩ := selfDelimiting_header h
  -- the header says how many shards there are
  have hnums : p.shardNums.length = q.shardNums.length := by
    rw [p.shardNums_length, q.shardNums_length, hhdr]
  obtain ⟨hnums, htailer⟩ := List.append_inj h hnums
  have hcount : p.merkles.length = q.merkles.length := by
    rw [p.merkles_length, q.merkles_length, hhdr]
  have hbytes : p.merkles.flatMap Digest.bytes ++ [] = q.merkles.flatMap Digest.bytes ++ [] := by
    rw [List.append_nil, List.append_nil]
    exact hC hmerkles
  exact BlockParts.ext_parts hhdr hnums (selfDelimiting_digest.flatMap_inj hcount hbytes).1
    (hC hprev) (selfDelimiting_tailer.injective htailer)

-- ---------------------------------------------------------------------------
-- The blocks that a node has
-- ---------------------------------------------------------------------------

/-- The block has these parts. -/
structure Block.IsOf (blk : Block D) (p : BlockParts D) : Prop where
  hdr : blk.hdr = p.hdr
  shardNums : blk.shardNums = p.shardNums
  merkles : blk.merkles = p.merkles
  prevTxhashes : blk.prevTxhashes = p.prevTxhashes
  tailer : blk.tailer = p.tailer

/-- The block is kept under its hash. -/
def Block.Hashed (C : Crypto D) (blk : Block D) : Prop :=
  ∃ p : BlockParts D, blk.IsOf p ∧ blk.sha = hashBlock C p

theorem Block.Hashed.congr {C : Crypto D} {blk blk' : Block D} (h : blk.Hashed C)
    (heq : blk'.header = blk.header) : blk'.Hashed C := by
  obtain ⟨p, hof, hsha⟩ := h
  have hfield : ∀ {α : Type} (f : Block D → α), f blk'.header = f blk.header := fun f => by rw [heq]
  exact ⟨p, ⟨(hfield Block.hdr).trans hof.hdr, (hfield Block.shardNums).trans hof.shardNums,
    (hfield Block.merkles).trans hof.merkles, (hfield Block.prevTxhashes).trans hof.prevTxhashes,
    (hfield Block.tailer).trans hof.tailer⟩, (hfield Block.sha).trans hsha⟩

/-- Blocks under one hash have the same parts. -/
theorem Block.Hashed.isOf {C : Crypto D} (hC : Function.Injective C.doubleSha) {blk : Block D}
    (h : blk.Hashed C) {p : BlockParts D} (hsha : blk.sha = hashBlock C p) : blk.IsOf p := by
  obtain ⟨q, hof, hq⟩ := h
  obtain rfl := hashBlock_injective hC (hq.symm.trans hsha)
  exact hof

variable [DecidableEq D] {E : Env D} {B : Brought D} {s s' : State D}

/-- All blocks but the first are kept under their hash. -/
def BlocksHashed (C : Crypto D) (s : State D) : Prop :=
  ∀ b : Nat, 0 < b → b < s.numBlocks → (s.blk b).Hashed C

theorem slotRule_blocksHashed (E : Env D) (B : Brought D) :
    SlotRule E B (BlocksHashed E.crypto) where
  same hsame h b hpos hb := (h b hpos (hsame.numBlocks ▸ hb)).congr (hsame.header b)
  putTx _ _ _ hput h b hpos hb := (h b hpos (hput.numBlocks ▸ hb)).congr (hput.header b)
  putHash _ _ _ hput h b hpos hb := (h b hpos (hput.numBlocks ▸ hb)).congr (hput.header b)
  sew {s prev nb} _ hadd hp h b hpos hb := by
    by_cases hnew : b = s.numBlocks
    · obtain ⟨p, rfl⟩ := hp
      obtain ⟨features, hblk⟩ := blk_sewBlock (p.toNewBlock E.crypto) hadd.prev_lt
      rw [hnew, hblk, Function.update_self]
      exact ⟨p, ⟨rfl, rfl, rfl, rfl, rfl⟩, rfl⟩
    · rw [(sewBlock_same s prev nb).1] at hb
      rw [blk_sewBlock_old hadd.prev_lt hnew]
      have hlt : (b : Nat) < s.numBlocks := Nat.lt_of_le_of_ne (Nat.le_of_lt_succ hb) hnew
      exact h b hpos hlt

theorem blocksHashed_of_nodeReach (h : NodeReach E s) : BlocksHashed E.crypto s := by
  induction h with
  | start sha merkle nonce2 tailer now opts =>
    intro b hpos hb
    exact absurd hb (Nat.not_lt.mpr hpos)
  | @step s s' event hreach hstep ih =>
    exact (slotRule_blocksHashed E _).nodeStep (ledgerOk_of_nodeReach hreach).toLedger hstep ih

/-- Every block of a node whose genesis block is kept under its hash, as the build has made
it. -/
theorem hashed_of_nodeReach (h : NodeReach E s) (hgenesis : (s.blk 0).Hashed E.crypto) {b : Nat}
    (hb : b < s.numBlocks) : (s.blk b).Hashed E.crypto := by
  rcases Nat.eq_zero_or_pos b with rfl | hpos
  · exact hgenesis
  · exact blocksHashed_of_nodeReach h b hpos hb

/-- **The hash of a block commits to all of it.** Accepted blocks with one hash are one
block; the block that is found under the hash of a block is that block; and blocks with one
hash, of whichever nodes, have the same shard sizes and merkle roots. -/
theorem block_id_commits (hC : Function.Injective E.crypto.doubleSha) :
    (∀ (view : List UInt8 → D) (len len' : UInt32) (contents : Bytes len.toNat)
      (contents' : Bytes len'.toNat) (p q : BlockParts D), unmarshalBlock view contents = .ok p →
      unmarshalBlock view contents' = .ok q → hashBlock E.crypto p = hashBlock E.crypto q →
      p = q ∧ marshalBlockInto p = marshalBlockInto q) ∧
    (∀ (s : State D), NodeReach E s → (s.blk 0).Hashed E.crypto → ∀ (p : BlockParts D) (b : BlockId),
      blockFindAny s (hashBlock E.crypto p) = some b → (s.blk b).IsOf p) ∧
    ∀ (s s' : State D), NodeReach E s → NodeReach E s' → (s.blk 0).Hashed E.crypto →
      (s'.blk 0).Hashed E.crypto → ∀ b b' : BlockId, b < s.numBlocks → b' < s'.numBlocks →
      (s.blk b).sha = (s'.blk b').sha → ∃ p : BlockParts D, (s.blk b).IsOf p ∧ (s'.blk b').IsOf p := by
  refine ⟨fun view len len' contents contents' p q _ _ h => ?_,
    fun s hreach hgenesis p b hfind => ?_, fun s s' hreach hreach' hg hg' b b' hb hb' hsha => ?_⟩
  · obtain rfl := hashBlock_injective hC h
    exact ⟨rfl, rfl⟩
  · obtain ⟨hb, hsha⟩ := blockFindAny_spec hfind
    exact (hashed_of_nodeReach hreach hgenesis hb).isOf hC hsha
  · obtain ⟨p, hof, hp⟩ := hashed_of_nodeReach hreach hg hb
    exact ⟨p, hof, (hashed_of_nodeReach hreach' hg' hb').isOf hC (hsha.symm.trans hp)⟩

/-- A genesis block under its hash. -/
def genesisParts : BlockParts IdealDigest where
  hdr := idealGenesis.hdr
  shardNums := idealGenesis.shardNums
  merkles := idealGenesis.merkles
  prevTxhashes := idealGenesis.prevTxhashes
  tailer := idealGenesis.tailer
  shardNums_length := rfl
  merkles_length := rfl
  prevTxhashes_length := rfl

/-- A node whose genesis block is kept under its hash. -/
def hashedNode : State IdealDigest :=
  startNode (genesisBlock (hashBlock idealCrypto genesisParts) .zero (Bytes.zero 13)
    ⟨0, 0x1effffff, 0⟩) 1000 ⟨false, false⟩

theorem nodeReach_hashedNode : NodeReach idealEnv hashedNode := .start _ _ _ _ _ _

/-- A block on it with a payment, and bytes for the shards before. -/
def paymentParts : BlockParts IdealDigest :=
  sampleBlock (hashBlock idealCrypto genesisParts) 1 4 [(samplePayment, [])]

/-- The genesis block is still there. -/
def KeepsGenesis (s : State IdealDigest) : Prop :=
  ((s.blk 0).hdr, (s.blk 0).shardNums, (s.blk 0).merkles, (s.blk 0).prevTxhashes, (s.blk 0).tailer,
    (s.blk 0).sha) = (genesisParts.hdr, genesisParts.shardNums, genesisParts.merkles,
      genesisParts.prevTxhashes, genesisParts.tailer, hashBlock idealCrypto genesisParts)

instance (s : State IdealDigest) : Decidable (KeepsGenesis s) :=
  inferInstanceAs (Decidable (_ = _))

theorem KeepsGenesis.hashed {s : State IdealDigest} (h : KeepsGenesis s) :
    (s.blk 0).Hashed idealCrypto := by
  simp only [KeepsGenesis, Prod.mk.injEq] at h
  obtain ⟨hhdr, hshards, hmerkles, hprev, htailer, hsha⟩ := h
  exact ⟨genesisParts, ⟨hhdr, hshards, hmerkles, hprev, htailer⟩, hsha⟩

/-- The block that a node finds under this hash is this block; and the one that another node
has under it, which does not know the payment, has the same parts. -/
theorem block_id_commits_payment : ∃ s s' : State IdealDigest, NodeReach idealEnv s ∧
    NodeReach idealEnv s' ∧ txFor (s.shardOf 1 0) 0 = some samplePayment ∧
    txFor (s'.shardOf 1 0) 0 = none ∧ (s.blk 1).IsOf paymentParts ∧
    ∃ p : BlockParts IdealDigest, (s.blk 1).IsOf p ∧ (s'.blk 1).IsOf p := by
  have hrun : (nodeRun idealEnv hashedNode [sampleHeader paymentParts]).toOption.any fun s' =>
      (nodeStep idealEnv s' (samplePacket paymentParts [(samplePayment, [])] 0
          (samplePayment, []))).toOption.any fun s =>
        decide (txFor (s.shardOf 1 0) 0 = some samplePayment) &&
          decide (txFor (s'.shardOf 1 0) 0 = none) &&
          decide (blockFindAny s (hashBlock idealCrypto paymentParts) = some 1) &&
          decide (1 < s.numBlocks) && decide (1 < s'.numBlocks) &&
          decide ((s.blk 1).sha = (s'.blk 1).sha) && decide (KeepsGenesis s) &&
          decide (KeepsGenesis s') := by
    decide +kernel
  obtain ⟨s', hs', hrun⟩ := (Option.any_eq_true _ _).mp hrun
  obtain ⟨s, hs, hfacts⟩ := (Option.any_eq_true _ _).mp hrun
  simp only [Bool.and_eq_true, decide_eq_true_eq] at hfacts
  obtain ⟨⟨⟨⟨⟨⟨⟨hknown, hunknown⟩, hfind⟩, hb⟩, hb'⟩, hsha⟩, hkept⟩, hkept'⟩ := hfacts
  have hreach' := nodeReach_hashedNode.run (eq_ok_of_toOption hs')
  have hreach := hreach'.step _ (eq_ok_of_toOption hs)
  obtain ⟨-, hfound, hsame⟩ := block_id_commits (E := idealEnv) idealCrypto_injective
  exact ⟨s, s', hreach, hreach', hknown, hunknown,
    hfound s hreach hkept.hashed paymentParts 1 hfind,
    hsame s s' hreach hreach' hkept.hashed hkept'.hashed 1 1 hb hb' hsha⟩

end Pettycoin
