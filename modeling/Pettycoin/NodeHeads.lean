import Pettycoin.Difficulty
import Pettycoin.HeadsRun

/-!
# Pettycoin — the heads of a running node

The tree and the heads are right whenever the node is done with an operation,
as long as it has fewer blocks than a depth can count
(`nodeOk_of_nodeReach`). While `put_tx_in_shard` is at work the heads lag behind
what is known of one block (`Lagging`).

* `ChainSound.lagging` — the heads may lag behind when a slot is filled;
* `Lagging.settled` — but not as long as the block is not fully known;
* `publishComplaint_chainSound` — a complaint in between;
* `nodeOk_of_nodeReach` — every reachable state.
-/

namespace Pettycoin

open ExceptRules Forest

variable {D : Type} {E : Env D} {s s₁ s' : State D} {b : Nat}

-- ---------------------------------------------------------------------------
-- What holds between operations
-- ---------------------------------------------------------------------------

/-- More blocks than that, and a depth may wrap around. -/
def depthLimit : Nat := 2 ^ 32

/-- The tree, the heads and the flags are right. -/
structure ChainSound (s : State D) : Prop extends ChainInv s where
  flags : FlagsSound s

theorem ChainSound.sameHeads (h : ChainSound s) (hs : SameHeads s s')
    (hf : FlagsSound s → FlagsSound s') : ChainSound s' :=
  ⟨⟨hs.toSameBlocks.treeOk h.tree, hs.headsOk h.heads⟩, hf h.flags⟩

/-- A block is no deeper than its number. -/
theorem TreeOk.depth_le (h : TreeOk s) (hb : b < s.numBlocks) : (s.blk b).depth ≤ b := by
  induction b using Nat.strong_induction_on with
  | _ b ih =>
    rcases Nat.eq_zero_or_pos b with rfl | hpos
    · exact h.depth_genesis.le
    · obtain ⟨p, hp⟩ := h.has_prev b hpos hb
      have hlt := h.prev_lt b p hp
      have hle := ih p hlt (by omega)
      rw [h.depth_prev b p hp]
      omega

/-- The subtree below a block. -/
theorem mem_subtree (h : TreeOk s) (hb : b < s.numBlocks) {x : Nat} :
    x ∈ subtree s b ↔ Anc (prevOf s) b x := by
  constructor
  · exact fun hx => (of_mem_preorder h.grows (childrenOf s) hx).1
  · intro hbx
    have hx : x < s.numBlocks := by
      rcases anc_iff_eq_or_parent.mp hbx with rfl | ⟨p, hp, -⟩
      · exact hb
      · exact h.lt_of_prev hp
    exact mem_preorder (fun x y hxy hy => mem_children.mpr ⟨hy, hxy⟩) h.grows (by omega) hx hbx
      (fun _ _ _ => rfl) fun _ _ _ _ => rfl

/-- The blocks after a complaint are those of `markComplaint`. -/
theorem Invalidated.blk_eq {complaint : Complaint D}
    (h : Invalidated complaint (subtree s b) s s₁) (ht : TreeOk s) (hb : b < s.numBlocks) :
    s₁.blk = (markComplaint s b complaint).blk := by
  funext x
  rw [h.blk x]
  unfold markComplaint
  by_cases hx : Anc (prevOf s) b x
  · rw [if_pos ((mem_subtree ht hb).mpr hx)]
    simp [hb, (blockPreceeds_iff ht).mpr hx]
  · rw [if_neg fun hm => hx ((mem_subtree ht hb).mp hm)]
    have hnot : blockPreceeds s b x = false :=
      Bool.eq_false_iff.mpr fun hp => hx ((blockPreceeds_iff ht).mp hp)
    simp [hnot]

/-- The heads can be recalculated from any state with the same blocks. -/
theorem Recalculable.congr (h : Recalculable s) (hs : SameBlocks s s')
    (hf : ∀ x : Nat, (s'.blk x).allKnown = (s.blk x).allKnown) : Recalculable s' where
  tree := hs.treeOk h.tree
  genesis := hs.blockAllKnown_eq ▸ h.genesis
  flag c hc hfl := by
    rw [hs.clean_eq] at hc
    rw [hf] at hfl
    rw [hs.known_eq]
    exact h.flag c hc hfl

variable [Digest D] [DecidableEq D]

/-- What holds of a node whose heads are as `P` says. -/
structure NodeHas (E : Env D) (P : State D → Prop) (s : State D) : Prop extends Registry E s where
  numBlocks : 0 < s.numBlocks
  genesis : ∀ shardnum, (s.blk 0).shardSize shardnum = 0
  chain : s.numBlocks ≤ depthLimit → P s

/-- What holds of a node between two operations. -/
abbrev NodeOk (E : Env D) (s : State D) : Prop := NodeHas E ChainSound s

section

variable {P Q : State D → Prop} {g : Slot D → Prop}

/-- What a trail cannot break, and the heads. -/
theorem NodeHas.of_trail (h : NodeHas E P s) (ht : Trail E g s s')
    (hchain : s'.numBlocks ≤ depthLimit → Q s') : NodeHas E Q s' where
  toRegistry := ht.registry h.toRegistry
  numBlocks := h.numBlocks.trans_le (ht.ledger h.toLedger).2.numBlocks
  genesis shardnum := by
    have heq := (ht.ledger h.toLedger).2.shardNums_eq h.numBlocks
    show (((s'.blk 0).shardNums[shardnum]?).getD 0).toNat = 0
    rw [heq]
    exact h.genesis shardnum
  chain := hchain

/-- Nothing is proven to be in the genesis block. -/
theorem NodeHas.ne_genesis (h : NodeHas E P s) (hb : Provable E.crypto s b) : b ≠ 0 := by
  rintro rfl
  obtain ⟨-, shardnum, txoff, e, hproven⟩ := hb
  have hoff := off_lt_of_proven hproven
  rw [h.genesis] at hoff
  omega

/-- What leaves the heads alone keeps them right. -/
theorem NodeHas.calm (h : NodeOk E s) (hstep : Step E (fun _ => False) s s') (hc : Calm s s') :
    NodeOk E s' :=
  h.of_trail (.single hstep) fun hroom =>
    (h.chain (hc.numBlocks ▸ hroom)).sameHeads hc.sameHeads hc.flags

end

-- ---------------------------------------------------------------------------
-- Complaints
-- ---------------------------------------------------------------------------

omit [Digest D] [DecidableEq D] in
/-- The flags stay sound when a complaint is put on blocks. -/
theorem Invalidated.flagsSound {complaint : Complaint D} {blocks : List BlockId}
    (h : Invalidated complaint blocks s s₁) (hf : FlagsSound s) : FlagsSound s₁ := by
  have hblk : ∀ x : Nat, s₁.blk x = { s.blk x with complaint := (s₁.blk x).complaint } := by
    intro x
    rw [h.blk x]
    split_ifs <;> rfl
  have hall : blockAllKnown s₁ = blockAllKnown s := by
    have hshard : s₁.shardOf = s.shardOf := by
      funext x i
      unfold State.shardOf
      rw [hblk x]
    funext x
    unfold blockAllKnown Block.numShards
    rw [hshard, hblk x]
  intro c hc a ha
  rw [hblk c] at hc
  rw [h.prevOf_eq] at ha
  rw [hall]
  exact hf c hc a ha

/-- **A complaint leaves the heads right**, whether or not they were before. -/
theorem publishComplaint_chainSound (hr : Registry E s) (hrec : Recalculable s)
    (hf : FlagsSound s) (hb : Provable E.crypto s b) (hb0 : b ≠ 0) {complaint : Complaint D}
    {origin : Option Nat} (h : publishComplaint E s b complaint origin = .ok s') :
    s' = s ∨ ChainSound s' := by
  unfold publishComplaint at h
  split_ifs at h with hc
  · injection h with h
    exact .inl h.symm
  · obtain ⟨s₁, h₁, h⟩ := of_bind_eq_ok h
    obtain ⟨s₂, h₂, h⟩ := of_bind_eq_ok h
    obtain ⟨s₃, h₃, h⟩ := of_bind_eq_ok h
    injection h with h
    subst h
    have hclean : Clean s b := ⟨hb.1, by simpa using hc⟩
    have hinv := hr.toLedger.complaintOnAll_spec hr.once h₁
    have hblk := hinv.blk_eq hrec.tree hb.1
    have hcalm := (recheckPendingTxs_calm (.refl s₁)).of_ok h₂
    have hrec₁ : Recalculable s₁ := (hrec.markComplaint complaint ⟨hb0, hclean⟩).congr
      ⟨hinv.numBlocks, fun x => by rw [hblk]⟩ fun x => by rw [hblk]
    have hrec₂ : Recalculable s₂ := hrec₁.congr hcalm.toSameBlocks hcalm.flag
    have hf₂ : FlagsSound s₂ := hcalm.flags (hinv.flagsSound hf)
    have hq := (updateBlockPtrsInvalidated_quiet (.refl s₂) b).of_ok h₃
    have hsound : ChainSound s₃ := ⟨hrec₂.invalidated h₃, hq.flags hf₂⟩
    exact .inr (hsound.sameHeads ((Still.refl s₃).emit _).sameHeads
      ((Still.refl s₃).emit _).flags)

/-- Checking and complaining keep what a complaint can start from. -/
theorem steady_nodeHas {P : State D → Prop} (hstill : ∀ s s', Still s s' → P s → P s')
    (hrec : ∀ s, P s → Recalculable s ∧ FlagsSound s) (hsound : ∀ s, ChainSound s → P s) :
    Steady E (NodeHas E P) where
  still := fun {s s'} hs h => by
    refine h.of_trail (Trail.quiet (g := fun _ => False) .refl hs.toQuiet) fun hroom => ?_
    exact hstill s s' hs (h.chain (hs.numBlocks ▸ hroom))
  publish := fun {s s' b complaint origin} hl hb hpub h => by
    have ht := (publishComplaint_trail (g := fun _ => False) .refl hb complaint origin).of_ok hpub
    refine h.of_trail ht fun hroom => ?_
    have hroom' := (ht.ledger hl).2.numBlocks.trans hroom
    obtain ⟨hr, hf⟩ := hrec s (h.chain hroom')
    rcases publishComplaint_chainSound h.toRegistry hr hf hb (h.ne_genesis hb) hpub with rfl | hs
    · exact h.chain hroom'
    · exact hsound s' hs

theorem steady_nodeOk : Steady E (NodeOk E) :=
  steady_nodeHas (fun _ _ hs h => h.sameHeads hs.sameHeads hs.flags)
    (fun _ h => ⟨h.toChainInv.recalculable, h.flags⟩) fun _ => id

-- ---------------------------------------------------------------------------
-- Filling a slot
-- ---------------------------------------------------------------------------

omit [Digest D] [DecidableEq D] in
/-- More of block `b` is known than the heads have taken in. -/
def Lagging (b : Nat) (s : State D) : Prop :=
  ∃ s₀ : State D, ChainInv s₀ ∧ Refilled s₀ s b ∧ FlagsSound s

omit [Digest D] [DecidableEq D] in
theorem Lagging.recalculable (h : Lagging b s) : Recalculable s := by
  obtain ⟨s₀, hi, hr, hf⟩ := h
  have hknown : Known s₀ 0 := by
    intro a ha
    obtain rfl : a = 0 := Nat.le_zero.mp (ha.le hi.tree.grows)
    exact hi.genesis_known
  exact ⟨hr.treeOk hi.tree, hr.known_mono hknown 0 (Anc.refl _ _), fun c _ => hf c⟩

omit [Digest D] [DecidableEq D] in
theorem Refilled.flagsSound (h : Refilled s s₁ b) (hf : FlagsSound s) : FlagsSound s₁ := by
  intro c hc
  rw [h.flag] at hc
  exact h.known_mono (hf c hc)

omit [Digest D] [DecidableEq D] in
theorem Lagging.refilled (h : Lagging b s) (hr : Refilled s s₁ b) : Lagging b s₁ := by
  obtain ⟨s₀, hi, hr₀, hf⟩ := h
  exact ⟨s₀, hi, hr₀.trans hr, hr.flagsSound hf⟩

omit [Digest D] [DecidableEq D] in
theorem ChainSound.lagging (h : ChainSound s) (b : Nat) : Lagging b s :=
  ⟨s, h.toChainInv, .refl s b, h.flags⟩

omit [Digest D] [DecidableEq D] in
/-- As long as the block is not fully known, nothing lags. -/
theorem Lagging.settled (h : Lagging b s) (hb : b < s.numBlocks) (hn : blockAllKnown s b = false) :
    ChainSound s := by
  obtain ⟨s₀, hi, hr, hf⟩ := h
  exact ⟨hr.inv_of_not hi (hr.numBlocks ▸ hb) hn, hf⟩

theorem steady_lagging (b : Nat) : Steady E (NodeHas E (Lagging b)) := by
  refine steady_nodeHas (fun s s' hs h => ?_) (fun s h => ⟨h.recalculable, ?_⟩)
    fun s h => h.lagging b
  · obtain ⟨s₀, hi, hr, hf⟩ := h
    exact ⟨s₀, hi, hr.sameHeads hs.sameHeads hs.flag, hs.flags hf⟩
  · obtain ⟨_, -, -, hf⟩ := h
    exact hf

variable {shardnum txoff : Nat}

/-- `txcount` is the number of slots that hold a transaction. -/
def BlockShard.Counted (shard : BlockShard D) : Prop :=
  shard.txcount = countSlots shard.u Slot.isTx shard.size

omit [Digest D] [DecidableEq D] in
/-- In a shard that is all known every slot holds a transaction. -/
theorem BlockShard.Counted.isTx {shard : BlockShard D} (hcounted : shard.Counted)
    (hknown : shardAllKnown shard = true) (hoff : txoff < shard.size) :
    (shard.u txoff).isTx = true := by
  unfold shardAllKnown at hknown
  unfold BlockShard.Counted countSlots at hcounted
  rw [beq_iff_eq, hcounted] at hknown
  exact List.countP_eq_length.mp (hknown.trans List.length_range.symm) txoff
    (List.mem_range.mpr hoff)

/-- The shards of a node are counted. -/
theorem Ledger.counted (hl : Ledger E s) : (s.shardOf b shardnum).Counted :=
  hl.txcount b shardnum

theorem Ledger.isTx_of_allKnown (hl : Ledger E s)
    (hknown : shardAllKnown (s.shardOf b shardnum) = true)
    (hoff : txoff < (s.shardOf b shardnum).size) :
    ((s.shardOf b shardnum).u txoff).isTx = true :=
  hl.counted.isTx hknown hoff

theorem Ledger.allHashes_of_allKnown (hl : Ledger E s)
    (hknown : shardAllKnown (s.shardOf b shardnum) = true) :
    shardAllHashes (s.shardOf b shardnum) = true := by
  refine hl.allHashes_of_filled fun i hi hu => ?_
  have htx := hl.isTx_of_allKnown hknown hi
  rw [hu] at htx
  exact absurd htx (by simp [Slot.isTx])

/-- A block with a slot that holds no transaction is not fully known. -/
theorem Ledger.not_blockAllKnown (hl : Ledger E s) (hshard : shardnum < (s.blk b).numShards)
    (hoff : txoff < (s.blk b).shardSize shardnum)
    (hu : ((s.shardOf b shardnum).u txoff).isTx = false) : blockAllKnown s b = false := by
  by_contra hall
  rw [Bool.not_eq_false, blockAllKnown, List.all_eq_true] at hall
  have htx := hl.isTx_of_allKnown (hall shardnum (List.mem_range.mpr hshard))
    (by rw [hl.size]; exact hoff)
  rw [hu] at htx
  exact absurd htx (by simp)

theorem shard_lt_of_proven {C : Crypto D} {h : TxRefHash D}
    (hproven : Proven C (s.blk b) shardnum txoff h) : shardnum < (s.blk b).numShards := by
  obtain ⟨proof, rfl, rfl, hacc⟩ := hproven
  exact (checkProofByhash_eq_true.mp hacc).1

/-- A change to the shards of a block of which not everything is known. -/
theorem NodeHas.refill {g : Slot D → Prop} (h : NodeOk E s) (ht : Trail E g s s₁)
    (hr : Refilled s s₁ b) : NodeHas E (Lagging b) s₁ :=
  h.of_trail ht fun hroom => ((h.chain (hr.numBlocks ▸ hroom)).lagging b).refilled hr

omit [Digest D] [DecidableEq D] in
/-- Storing or dropping proofs. -/
theorem refilled_modProof (f : BlockShard D → Option (Nat → Option (Proof D))) :
    Refilled s (s.modShard b shardnum fun shard => { shard with proof := f shard }) b := by
  have hall : ∀ i, shardAllKnown
      ((s.modShard b shardnum fun shard => { shard with proof := f shard }).shardOf b i)
        = shardAllKnown (s.shardOf b i) := by
    intro i
    by_cases hi : i = shardnum
    · subst hi
      rw [shardOf_modShard]
      rfl
    · rw [shardOf_modShard_ne fun h => hi h.2]
  refine refilled_of_blk rfl (fun x => blk_modShard _ x) (fun x hx => ?_) (fun h => ?_) rfl rfl rfl
  · unfold State.modShard
    rw [modBlock_ne hx]
  · unfold blockAllKnown at h ⊢
    rw [blk_modShard]
    simp only [hall]
    exact h

omit [Digest D] [DecidableEq D] in
/-- Changing a shard of a block of which not everything is known. -/
theorem refilled_of_modShard (f : BlockShard D → BlockShard D)
    (hnot : blockAllKnown s b = false) (hnum : s₁.numBlocks = s.numBlocks)
    (hblk : s₁.blk = (s.modShard b shardnum f).blk)
    (hchains : s₁.longestChains = s.longestChains) (hknowns : s₁.longestKnowns = s.longestKnowns)
    (hpref : s₁.preferredChain = s.preferredChain) : Refilled s s₁ b := by
  refine refilled_of_blk hnum (fun x => ?_) (fun x hx => ?_) (fun hall => ?_) hchains hknowns hpref
  · rw [hblk]
    exact blk_modShard f x
  · rw [hblk]
    unfold State.modShard
    rw [modBlock_ne hx]
  · rw [hnot] at hall
    exact absurd hall (by simp)

/-- The proofs of a shard are dropped. -/
theorem NodeHas.dropProofs (h : NodeHas E (Lagging b) s) (shardnum : Nat) :
    NodeHas E (Lagging b) (s.modShard b shardnum fun shard => { shard with proof := none }) := by
  refine h.of_trail (.single (Step.storeProofs (g := fun _ => False) b shardnum fun _ => none))
    fun hroom => ?_
  exact (h.chain hroom).refilled (refilled_modProof fun _ => none)

/-- A slot is filled: the heads lag behind. -/
theorem fillSlot_lagging (h : NodeOk E s) {tx : Tx D} {refs : List InputRef}
    (hb : b < s.numBlocks)
    (hproven : Proven E.crypto (s.blk b) shardnum txoff (hashTxAndRefs E.crypto tx refs))
    (hok : TxOk E.crypto tx) (hu : ((s.shardOf b shardnum).u txoff).isTx = false)
    (hfill : fillSlot E s b shardnum txoff tx refs = .ok s₁) :
    NodeHas E (Lagging b) s₁ ∧ b < s₁.numBlocks ∧ shardnum < (s₁.blk b).numShards := by
  have hshard := shard_lt_of_proven hproven
  have hnot := h.toLedger.not_blockAllKnown hshard (off_lt_of_proven hproven) hu
  have hrefill : Step E (fun _ => False) s s₁ → Refilled s s₁ b →
      NodeHas E (Lagging b) s₁ ∧ b < s₁.numBlocks ∧ shardnum < (s₁.blk b).numShards := by
    intro hstep hr
    have hlater := (hstep.ledger h.toLedger).2
    refine ⟨h.refill (.single hstep) hr, hb.trans_le hlater.numBlocks, ?_⟩
    unfold Block.numShards
    rw [hlater.hdr_eq hb]
    exact hshard
  cases hslot : (s.shardOf b shardnum).u txoff with
  | tx tx' refs' =>
    rw [hslot] at hu
    exact absurd hu (by simp [Slot.isTx])
  | hash e =>
    rw [fillSlot_of_hash hslot] at hfill
    split_ifs at hfill with hh
    subst hh
    injection hfill with hfill
    subst hfill
    exact hrefill (.fillHash b shardnum txoff tx refs hb hslot hok fun hno => absurd hno id)
      (refilled_of_modShard (fun shard => shard.upgradeTx txoff tx refs) hnot rfl rfl rfl rfl rfl)
  | unknown =>
    rw [fillSlot_of_unknown hslot] at hfill
    injection hfill with hfill
    subst hfill
    exact hrefill (.fillUnknown b shardnum txoff tx refs hb hslot hproven hok fun hno => absurd hno id)
      (refilled_of_modShard (fun shard => shard.setTx txoff tx refs) hnot rfl rfl rfl rfl rfl)

/-- The end of `put_tx_in_shard`: the heads catch up. -/
theorem afterPutTx_nodeOk (h : NodeHas E (Lagging b) s) (hb : b < s.numBlocks)
    (hshard : shardnum < (s.blk b).numShards) {source : Option Nat} {tx : Tx D}
    (hafter : afterPutTx E s source b shardnum txoff tx = .ok s') : NodeOk E s' := by
  unfold afterPutTx at hafter
  obtain ⟨s₁, h₁, hafter⟩ := of_bind_eq_ok hafter
  have hmoves := (checkResolvedTxs_moves (g := fun _ => False) (steady_lagging b) h.toLedger
    (.refl s) tx).of_ok h₁
  have hlater := (hmoves.ledger h.toLedger).2
  have hlag := hmoves.keeps h
  have hb₁ : b < s₁.numBlocks := hb.trans_le hlater.numBlocks
  have hshard₁ : shardnum < (s₁.blk b).numShards := by
    unfold Block.numShards
    rw [hlater.hdr_eq hb]
    exact hshard
  dsimp only at hafter
  -- the proofs that are not needed any more are dropped
  generalize hs₂ : (if shardAllHashes (s₁.shardOf b shardnum) then
      s₁.modShard b shardnum fun shard => { shard with proof := none } else s₁) = s₂ at hafter
  have hkept : NodeHas E (Lagging b) s₂ ∧ s₂.numBlocks = s₁.numBlocks ∧
      (s₂.blk b).numShards = (s₁.blk b).numShards := by
    rw [← hs₂]
    split_ifs
    · refine ⟨hlag.dropProofs shardnum, rfl, ?_⟩
      rw [blk_modShard]
      rfl
    · exact ⟨hlag, rfl, rfl⟩
  obtain ⟨hlag₂, hnum₂, hshards₂⟩ := hkept
  have hb₂ : b < s₂.numBlocks := hnum₂ ▸ hb₁
  -- what is saved and sent leaves the heads where they are
  have hrest : ∀ s₃, NodeOk E s₃ → (do
      let s₄ ← saveTx E.crypto s₃.setNeedsRecheck b shardnum txoff
      let s₅ ← sendTxInBlockToPeers E.crypto s₄ source b shardnum txoff
      checkBlockShard E s₅ b shardnum .checkShardAfterTx
      Except.ok s₅) = .ok s' → NodeOk E s' := by
    intro s₃ h₃ hrest
    obtain ⟨s₄, h₄, hrest⟩ := of_bind_eq_ok hrest
    obtain ⟨s₅, h₅, hrest⟩ := of_bind_eq_ok hrest
    obtain ⟨_, -, hrest⟩ := of_bind_eq_ok hrest
    injection hrest with hrest
    have hstill₄ : Still s₃ s₄ := by
      unfold saveTx at h₄
      split_ifs at h₄
      · injection h₄ with h₄
        exact h₄ ▸ (Still.refl s₃).setNeedsRecheck
      · obtain ⟨_, -, h₄⟩ := of_bind_eq_ok h₄
        injection h₄ with h₄
        exact h₄ ▸ (Still.refl s₃).setNeedsRecheck.emit _
    have hstill₅ : Still s₃ s₅ := by
      unfold sendTxInBlockToPeers at h₅
      obtain ⟨_, -, h₅⟩ := of_bind_eq_ok h₅
      injection h₅ with h₅
      exact h₅ ▸ hstill₄.emit _
    exact hrest ▸ steady_nodeOk.still hstill₅ h₃
  split_ifs at hafter with hall
  · obtain ⟨s₃, h₃, hafter⟩ := of_bind_eq_ok hafter
    refine hrest s₃ ?_ hafter
    have hq := (updateBlockPtrsNewShard_quiet E.crypto (.refl s₂) b).of_ok h₃
    refine hlag₂.of_trail (Trail.quiet (g := fun _ => False) .refl hq) fun hroom => ?_
    obtain ⟨s₀, hi, hr, hf⟩ := hlag₂.chain (hq.numBlocks ▸ hroom)
    obtain ⟨_, -, h₃⟩ := of_bind_eq_ok h₃
    injection h₃ with h₃
    exact ⟨h₃ ▸ hr.inv hi (hr.numBlocks ▸ hb₂), hq.flags hf⟩
  · refine hrest s₂ ?_ hafter
    refine hlag₂.of_trail (g := fun _ => False) .refl fun hroom => ?_
    refine (hlag₂.chain hroom).settled hb₂ (Bool.eq_false_iff.mpr fun hknown => hall ?_)
    exact List.all_eq_true.mp hknown shardnum (List.mem_range.mpr (hshards₂ ▸ hshard₁))

theorem putTx_nodeOk (h : NodeOk E s) {source : Option Nat} {tx : Tx D} {refs : List InputRef}
    (hb : b < s.numBlocks)
    (hproven : Proven E.crypto (s.blk b) shardnum txoff (hashTxAndRefs E.crypto tx refs))
    (hok : TxOk E.crypto tx)
    (hput : putTxInShard E s source b shardnum txoff tx refs = .ok s') : NodeOk E s' := by
  have hfilled : ((s.shardOf b shardnum).u txoff).isTx = false →
      (fillSlot E s b shardnum txoff tx refs >>= fun s₁ =>
        afterPutTx E s₁ source b shardnum txoff tx) = .ok s' → NodeOk E s' := by
    intro hu hput
    obtain ⟨s₁, hfill, hafter⟩ := of_bind_eq_ok hput
    obtain ⟨hlag, hb₁, hshard₁⟩ := fillSlot_lagging h hb hproven hok hu hfill
    exact afterPutTx_nodeOk hlag hb₁ hshard₁ hafter
  unfold putTxInShard at hput
  cases hu : (s.shardOf b shardnum).u txoff with
  | tx tx' refs' =>
    rw [hu] at hput
    obtain ⟨_, -, hput⟩ := of_bind_eq_ok hput
    injection hput with hput
    exact hput ▸ h
  | hash e =>
    rw [hu] at hput hfilled
    exact hfilled rfl hput
  | unknown =>
    rw [hu] at hput hfilled
    exact hfilled rfl hput

theorem putTxhash_nodeOk (h : NodeOk E s) {e : TxRefHash D} {r : State D × Bool}
    (hb : b < s.numBlocks) (hproven : Proven E.crypto (s.blk b) shardnum txoff e)
    (hput : putTxhashInShard E s b shardnum txoff e = .ok r) : NodeOk E r.1 := by
  have hshard := shard_lt_of_proven hproven
  have hoff := off_lt_of_proven hproven
  unfold putTxhashInShard at hput
  cases hentry : txrefhashInShard E.crypto (s.shardOf b shardnum) txoff with
  | some p =>
    rw [hentry] at hput
    obtain ⟨_, -, hput⟩ := of_bind_eq_ok hput
    injection hput with hput
    exact hput ▸ h
  | none =>
    rw [hentry] at hput
    obtain ⟨_, -, hput⟩ := of_bind_eq_ok hput
    injection hput with hput
    subst hput
    have hu := txrefhashInShard_eq_none.mp hentry
    have hstep : Step E (fun _ => False) s (filledWithHash E s b shardnum txoff e) :=
      .setHash b shardnum txoff e hb hu hproven fun hno => absurd hno id
    have hr : Refilled s (filledWithHash E s b shardnum txoff e) b :=
      refilled_of_modShard (fun shard => shard.setHash txoff e)
        (h.toLedger.not_blockAllKnown hshard hoff (by rw [hu]; rfl)) rfl rfl rfl rfl rfl
    have hlag := h.refill (.single hstep) hr
    -- the slot has a hash now, so the block is still not fully known
    have hslot : (((filledWithHash E s b shardnum txoff e).shardOf b shardnum).u txoff).isTx
        = false := by
      show (((s.modShard b shardnum fun shard => shard.setHash txoff e).shardOf b shardnum).u
        txoff).isTx = false
      rw [shardOf_modShard]
      show Slot.isTx (Function.update (s.shardOf b shardnum).u txoff (.hash e) txoff) = false
      rw [Function.update_self]
      rfl
    have hblk : (filledWithHash E s b shardnum txoff e).blk b
        = { s.blk b with shard := ((filledWithHash E s b shardnum txoff e).blk b).shard } :=
      blk_modShard (fun shard => shard.setHash txoff e) b
    have hnot : blockAllKnown (filledWithHash E s b shardnum txoff e) b = false := by
      refine hlag.toLedger.not_blockAllKnown ?_ ?_ hslot
      · rw [hblk]
        exact hshard
      · rw [hblk]
        exact hoff
    exact hlag.of_trail (g := fun _ => False) .refl fun hroom => (hlag.chain hroom).settled hb hnot

theorem putProof_nodeOk (h : NodeOk E s) {proof : Proof D} {e : TxRefHash D}
    (hb : b < s.numBlocks) (haccepted : checkProofByhash E.crypto proof (s.blk b) e = true) :
    NodeOk E (putProofInShard s b proof) := by
  obtain ⟨hshard, -, -⟩ := checkProofByhash_eq_true.mp haccepted
  unfold putProofInShard
  dsimp only
  split_ifs with hall
  · exact h
  · have hr : Refilled s (s.modShard b proof.pos.shard.toNat fun shard => shard.addProof proof) b :=
      refilled_modProof fun shard => (shard.addProof proof).proof
    have hlag := h.refill (.single (Step.storeProofs (g := fun _ => False) b _
      fun shard => (shard.addProof proof).proof)) hr
    refine hlag.of_trail (g := fun _ => False) .refl fun hroom =>
      (hlag.chain hroom).settled hb ?_
    -- a fully known block needs no proofs
    rw [Bool.eq_false_iff]
    intro hknown
    refine hall ?_
    have hknown₀ := List.all_eq_true.mp hknown proof.pos.shard.toNat
      (List.mem_range.mpr (by rw [blk_modShard]; exact hshard))
    rw [shardOf_modShard] at hknown₀
    exact h.toLedger.allHashes_of_allKnown hknown₀

-- ---------------------------------------------------------------------------
-- Adding a block
-- ---------------------------------------------------------------------------

omit [Digest D] [DecidableEq D] in
theorem Attached.flagsSound {prev : Nat} (h : Attached s s₁ prev b) (ht : TreeOk s)
    (hf : FlagsSound s) : FlagsSound s₁ := by
  intro c hc
  by_cases hcb : c = b
  · rw [hcb, h.flag_new] at hc
    exact absurd hc (by simp)
  · rw [h.blk_old c hcb] at hc
    exact (h.known_old ht hcb).mpr (hf c hc)

omit [Digest D] in
/-- A block that `block_add` is given fits, while a depth can count the blocks. -/
theorem ChainSound.admitted (h : ChainSound s) {prev : Nat} {nb : NewBlock D}
    (hadd : Addable s prev nb) (hroom : s.numBlocks < depthLimit) :
    (ChainOp.addBlock prev nb).Admitted s := by
  have hle := h.tree.depth_le hadd.prev_lt
  have hlt : prev < s.numBlocks := hadd.prev_lt
  refine ⟨hadd.prev_lt, ?_, blockWork_pos hadd.expHigh⟩
  unfold Block.depth at hle ⊢
  unfold depthLimit at hroom
  rw [hadd.depth, UInt32.toNat_add]
  show ((s.blk prev).hdr.depth.toNat + 1) % 2 ^ 32 = _
  exact Nat.mod_eq_of_lt (by omega)

theorem addBlock_nodeOk (h : NodeOk E s) {prev : Nat} {nb : NewBlock D} (hadd : Addable s prev nb)
    {r : State D × BlockId} (hr : blockAdd s prev nb = .ok r) : NodeOk E r.1 := by
  have ht := (blockAdd_trail (E := E) (g := fun _ => False) .refl nb hadd).of_ok hr
  obtain ⟨_, -, hr⟩ := of_bind_eq_ok hr
  injection hr with hr
  subst hr
  refine h.of_trail ht fun hroom => ?_
  have hq := blockAddHeads_quiet s prev nb
  have hroom' : s.numBlocks + 1 ≤ depthLimit := by
    have hnum := hq.numBlocks
    rw [(sewBlock_same s prev nb).1] at hnum
    exact hnum ▸ hroom
  have hs := h.chain (by omega)
  have ha := hs.admitted hadd (by omega)
  have hatt := attached_sewBlock ha.1 ha.2.1 ha.2.2
  exact ⟨addBlock_inv hs.toChainInv ha, hq.flags (hatt.flagsSound hs.tree hs.flags)⟩

-- ---------------------------------------------------------------------------
-- Every run
-- ---------------------------------------------------------------------------

theorem kept_nodeOk (E : Env D) (B : Brought D) : Kept E (fun _ => False) B (NodeOk E) where
  toSteady := steady_nodeOk
  recheckPending _ hs h := h.calm (.recheckPending hs)
    ((recheckPendingTxs_calm (.refl _)).of_ok hs)
  addPending _ hok hs h := h.calm (.addPending _ _ hok hs)
    ((addPendingTx_calm (.refl _) _).of_ok hs)
  dropPending _ hs h := h.calm (.dropPending _ hs)
    ((dropPendingTx_calm (.refl _) _).of_ok hs)
  putTx _ hb hproven hok _ _ hput h := putTx_nodeOk h hb hproven hok hput
  putTxhash _ hb hproven _ _ hput h := putTxhash_nodeOk h hb hproven hput
  putProof _ hb hacc h := putProof_nodeOk h hb hacc
  addBlock _ hadd _ hr h := addBlock_nodeOk h hadd hr

theorem nodeOk_startNode (sha merkle : D) (nonce2 : Bytes 13) (tailer : BlockTailer)
    (now : UInt32) (opts : FeeOptions) :
    NodeOk E (startNode (genesisBlock sha merkle nonce2 tailer) now opts) := by
  have hreach : NodeReach E (startNode (genesisBlock sha merkle nonce2 tailer) now opts) :=
    .start sha merkle nonce2 tailer now opts
  have hinv := newState_inv sha merkle nonce2 tailer now
  refine ⟨registry_of_nodeReach hreach, Nat.one_pos, fun shardnum => ?_, fun _ => ?_⟩
  · show (((List.replicate 4 (0 : UInt8))[shardnum]?).getD 0).toNat = 0
    rw [List.getElem?_replicate]
    split_ifs <;> rfl
  · have hsame : SameHeads (newState (genesisBlock sha merkle nonce2 tailer) now)
        (startNode (genesisBlock sha merkle nonce2 tailer) now opts) :=
      ⟨⟨rfl, fun _ => rfl⟩, fun _ _ => rfl, rfl, rfl, rfl⟩
    refine ⟨⟨hsame.toSameBlocks.treeOk hinv.tree, hsame.headsOk hinv.heads⟩, fun c _ a _ => ?_⟩
    exact hinv.genesis_known

/-- **The tree and the heads of a running node** are right, as long as it has fewer blocks than
a depth can count. -/
theorem nodeOk_of_nodeReach (h : NodeReach E s) : NodeOk E s := by
  induction h with
  | start sha merkle nonce2 tailer now opts => exact nodeOk_startNode sha merkle nonce2 tailer now opts
  | @step s s' event _ hstep ih =>
    exact ((nodeStep_moves (kept_nodeOk E _) ih.toLedger event
      (event.fillsClean_false E s) le_rfl).of_ok hstep).keeps ih

end Pettycoin
