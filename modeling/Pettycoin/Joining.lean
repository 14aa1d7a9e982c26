import Pettycoin.Loading
import Pettycoin.CheckChains
import Pettycoin.NodeHeads
import Pettycoin.PrevTxhashes

/-!
# Pettycoin — the mined block joins the chain

`block_add` links the block below the head of the longest knowns, and the head stays
where it is unless there is nothing in the block (`joined_blockAddHeads`). What the
lookups found from the head they find from the block, so what was right for the
pending transactions there is right here (`Joined.justMined`).

* `joined_blockAddHeads` — the heads, the tree and the lookups after `block_add`;
* `Joined.lies_iff` — what lies before the block;
* `Joined.pendingFor` — the inputs and refs of what is pending;
* `Joined.justMined` — the block as `Filling` takes it on.
-/

namespace Pettycoin

open ExceptRules Forest

variable {D : Type} {E : Env D} {s s₁ s' : State D} {b : Nat} {nb : NewBlock D}

-- ---------------------------------------------------------------------------
-- Adding a block onto the head
-- ---------------------------------------------------------------------------

/-- The comparison with the longest chains leaves the blocks alone. -/
theorem comparedWithChains_blk (s : State D) (b : Nat) :
    (comparedWithChains s b).blk = s.blk ∧ (comparedWithChains s b).numBlocks = s.numBlocks ∧
      (comparedWithChains s b).now = s.now := by
  have hordered : ∀ chains, (newLongest { s with longestChains := chains } b).blk = s.blk ∧
      (newLongest { s with longestChains := chains } b).numBlocks = s.numBlocks ∧
      (newLongest { s with longestChains := chains } b).now = s.now := by
    intro chains
    unfold newLongest updatePreferredChain orderBlockPointers
    dsimp only
    split_ifs <;> split <;> exact ⟨rfl, rfl, rfl⟩
  unfold comparedWithChains
  split
  · exact hordered _
  · exact hordered _
  · exact ⟨rfl, rfl, rfl⟩

/-- From `s` to `s₁` block `b` was added onto the head of the longest knowns. The head stays, or
moves to the block if all of it is known. -/
structure Joined (s s₁ : State D) (nb : NewBlock D) (b : Nat) : Prop where
  num : b = s.numBlocks
  numBlocks : s₁.numBlocks = s.numBlocks + 1
  tree : TreeOk s₁
  old : ∀ x : Nat, x ≠ b → s₁.blk x = { s.blk x with allKnown := (s₁.blk x).allKnown }
  hdr : (s₁.blk b).hdr = nb.hdr
  sha : (s₁.blk b).sha = nb.sha
  shardNums : (s₁.blk b).shardNums = nb.shardNums
  merkles : (s₁.blk b).merkles = nb.merkles
  shard : ∀ i : Nat, s₁.shardOf b i = newBlockShard i (nb.shardNums[i]?.getD 0).toNat
  prev : (s₁.blk b).prev = some (knownHead s)
  clean : (s₁.blk b).complaint = none
  anc : ∀ x : Nat, x ≠ b → (Anc (prevOf s₁) x b ↔ Anc (prevOf s) x (knownHead s))
  txhash : s₁.txhash = s.txhash
  inputhash : s₁.inputhash = s.inputhash
  now : s₁.now = s.now
  pend : s₁.pending.pend = s.pending.pend
  unknownTx : s₁.pending.unknownTx = s.pending.unknownTx
  numUnknown : s₁.pending.numUnknown = s.pending.numUnknown
  head : blockAllKnown s₁ b = true → knownHead s₁ = b
  onHead : blockAllKnown s₁ b = false → OnHead s₁ b

theorem sewBlock_now (s : State D) (prev : BlockId) (nb : NewBlock D) :
    (sewBlock s prev nb).now = s.now := by
  unfold sewBlock
  dsimp only
  split_ifs <;> rfl

/-- Onto a block without a complaint. -/
theorem blockAddHeads_of_clean {prev : BlockId} (hprev : prev < s.numBlocks)
    (hclean : (s.blk prev).complaint = none) :
    blockAddHeads s prev nb = updateBlockPtrsNewBlock (sewBlock s prev nb) s.numBlocks := by
  obtain ⟨features, hblk⟩ := blk_sewBlock nb hprev
  have hnone : ((sewBlock s prev nb).blk s.numBlocks).complaint = none := by
    rw [hblk, Function.update_self]
    exact hclean
  unfold blockAddHeads
  dsimp only
  rw [hnone]
  rfl

namespace Attached

/-- After the comparison with the longest chains the block is still on the head: its parent is
the head, so no other longest known comes to the front. -/
theorem onHead_compared (h : Attached s s₁ (knownHead s) b) (hi : ChainInv s) (hclean : Clean s₁ b) :
    OnHead (comparedWithChains s₁ b) b := by
  have hbest := (hi.heads.knowns.mem _).mp (headD_mem hi.heads.knowns.ne_nil)
  have hstays : knownHead (comparedWithChains s₁ b) = knownHead s :=
    (h.knownHead_compared hi.tree hi.heads hclean).1 fun hs => hs.2.2.1 (Anc.refl _ _)
  have hblk := (comparedWithChains_blk s₁ b).1
  have hold := h.blk_old (knownHead s) h.prev_ne
  refine ⟨?_, ?_, ?_, ?_, ?_⟩
  · rw [hblk, hstays]
    exact h.prev_new
  · rw [hstays]
    exact h.prev_ne
  · rw [hblk, hstays, hold]
    exact (hi.heads.knowns.flag _ hbest.1.1).mpr hbest.1.2
  · rw [hblk, hstays, hold]
    exact h.work_new
  · unfold Block.depth
    rw [hblk, hstays, hold]
    exact h.depth_new

/-- No block is above it. -/
theorem leaf_compared (h : Attached s s₁ (knownHead s) b) (ht : TreeOk s) (x : Nat) :
    prevOf (comparedWithChains s₁ b) x ≠ some b := by
  intro hx
  unfold prevOf at hx
  rw [(comparedWithChains_blk s₁ b).1] at hx
  have htree := h.treeOk ht
  have hlt := htree.prev_lt x b hx
  have hxlt := htree.lt_of_prev hx
  have hnum := h.numBlocks
  have hb := h.num
  omega

/-- The clock stands still, and what is pending is as it was but for the flag; the block is the
head if all of it is known, and else on the head. -/
theorem updated (h : Attached s s₁ (knownHead s) b) (hi : ChainInv s) (hclean : Clean s₁ b) :
    (updateBlockPtrsNewBlock s₁ b).now = s₁.now ∧
      (updateBlockPtrsNewBlock s₁ b).pending.unknownTx = s₁.pending.unknownTx ∧
      (updateBlockPtrsNewBlock s₁ b).pending.numUnknown = s₁.pending.numUnknown ∧
      (blockAllKnown s₁ b = true → knownHead (updateBlockPtrsNewBlock s₁ b) = b) ∧
      (blockAllKnown s₁ b = false → OnHead (updateBlockPtrsNewBlock s₁ b) b) := by
  obtain ⟨hblk, hnum, hnow⟩ := comparedWithChains_blk s₁ b
  have hpending := comparedWithChains_pending s₁ b
  have hon := h.onHead_compared hi hclean
  have hall : blockAllKnown (comparedWithChains s₁ b) b = blockAllKnown s₁ b := by
    unfold blockAllKnown State.shardOf
    rw [hblk]
  have hchild := updateKnown_child hon (by rw [hnum, h.numBlocks]; omega)
    (by rw [hblk]; exact hclean.2) (h.leaf_compared hi.tree)
  rw [hall] at hchild
  rw [updateBlockPtrsNewBlock_eq, hall]
  by_cases hknown : blockAllKnown s₁ b = true
  · obtain ⟨hhead, hp, hn⟩ := hchild hknown
    have hpending' : (updateKnown (comparedWithChains s₁ b) b).pending
        = (comparedWithChains s₁ b).setNeedsRecheck.pending := hp
    rw [if_pos hknown]
    refine ⟨hn.trans hnow, ?_, ?_, fun _ => hhead, fun hno => absurd hknown (by rw [hno]; simp)⟩
    · show (updateKnown _ _).pending.unknownTx = _
      rw [hpending']
      show (comparedWithChains s₁ b).pending.unknownTx = _
      rw [hpending]
    · show (updateKnown _ _).pending.numUnknown = _
      rw [hpending']
      show (comparedWithChains s₁ b).pending.numUnknown = _
      rw [hpending]
  · rw [if_neg hknown]
    exact ⟨hnow, congrArg PendingBlock.unknownTx hpending, congrArg PendingBlock.numUnknown hpending,
      fun hno => absurd hno hknown, fun _ => ⟨hon.prev, hon.ne, hon.flag, hon.work, hon.depth⟩⟩

/-- The other blocks are above the same ones. -/
theorem anc_below_new (h : Attached s s₁ prev b) (ht : TreeOk s) {x : Nat} (hx : x ≠ b) :
    Anc (prevOf s₁) x b ↔ Anc (prevOf s) x prev := by
  rw [anc_iff_eq_or_parent, h.prev_new]
  constructor
  · rintro (heq | ⟨p, hp, hxp⟩)
    · exact absurd heq hx
    · obtain rfl := Option.some.inj hp
      exact (h.anc_old ht h.prev_ne).mp hxp
  · exact fun hxp => .inr ⟨_, rfl, (h.anc_old ht h.prev_ne).mpr hxp⟩

end Attached

/-- **`block_add` on the head of the longest knowns.** -/
theorem joined_blockAddHeads [Digest D] (hi : ChainInv s)
    (ha : (ChainOp.addBlock (knownHead s) nb).Admitted s) :
    Joined s (blockAddHeads s (knownHead s) nb) nb s.numBlocks := by
  obtain ⟨hprev, hdepth, hwork⟩ := ha
  have hgood : (s.blk (knownHead s)).complaint = none := (KnownsOk.head_clean hi.heads.knowns).2
  have h := attached_sewBlock hprev hdepth hwork
  have hq := blockAddHeads_quiet s (knownHead s) nb
  obtain ⟨-, htxhash, hpending, hinputhash⟩ := sewBlock_same s (knownHead s) nb
  obtain ⟨features, hblk⟩ := blk_sewBlock nb hprev
  have hnew : (sewBlock s (knownHead s) nb).blk s.numBlocks
      = { newBlock (knownHead s) (s.blk (knownHead s)).totalWork nb with
          pendingFeatures := features, complaint := (s.blk (knownHead s)).complaint } := by
    rw [hblk, Function.update_self]
  have hclean : Clean (sewBlock s (knownHead s) nb) s.numBlocks :=
    ⟨by rw [h.numBlocks]; omega, by rw [hnew, hgood]⟩
  obtain ⟨hnow, hunknown, hnumUnknown, hhead, honHead⟩ := h.updated hi hclean
  rw [← blockAddHeads_of_clean hprev hgood] at hnow hunknown hnumUnknown hhead honHead
  rw [← hq.toSameBlocks.blockAllKnown_eq] at hhead honHead
  exact {
    num := rfl
    numBlocks := hq.numBlocks.trans h.numBlocks
    tree := hq.toSameBlocks.treeOk (h.treeOk hi.tree)
    old := fun x hx => by rw [hq.blk x, h.blk_old x hx]
    hdr := by rw [hq.blk, hnew]; rfl
    sha := by rw [hq.blk, hnew]; rfl
    shardNums := by rw [hq.blk, hnew]; rfl
    merkles := by rw [hq.blk, hnew]; rfl
    shard := fun i => by unfold State.shardOf; rw [hq.blk, hnew]; rfl
    prev := by rw [hq.blk]; exact h.prev_new
    clean := by rw [hq.blk]; exact hclean.2
    anc := fun x hx => by
      rw [hq.toSameBlocks.prevOf_eq]
      exact h.anc_below_new hi.tree hx
    txhash := hq.txhash.trans htxhash
    inputhash := hq.inputhash.trans hinputhash
    now := hnow.trans (sewBlock_now s _ nb)
    pend := by rw [hq.pend, hpending]
    unknownTx := hunknown.trans (congrArg PendingBlock.unknownTx hpending)
    numUnknown := hnumUnknown.trans (congrArg PendingBlock.numUnknown hpending)
    head := hhead
    onHead := honHead }

-- ---------------------------------------------------------------------------
-- What the lookups find from it
-- ---------------------------------------------------------------------------

namespace Joined

section

variable (h : Joined s s₁ nb b) (ht : TreeOk s)
include h

theorem leaf (x : Nat) : prevOf s₁ x ≠ some b := by
  intro hx
  have hlt := h.tree.prev_lt x b hx
  have hxlt := h.tree.lt_of_prev hx
  have hnum := h.num
  have hnum₁ := h.numBlocks
  omega

include ht

theorem beside : Beside b s s₁ where
  leaf x hx := by
    have hlt := ht.prev_lt x b hx
    have hxlt := ht.lt_of_prev hx
    have hnum := h.num
    omega
  blk x hx := h.old x hx
  elems sha y i j _ := by rw [h.txhash]

/-- What comes before the block came before the head. -/
theorem preceeds_new {x : Nat} (hx : x ≠ b) :
    blockPreceeds s₁ x b = blockPreceeds s x (knownHead s) := by
  rw [Bool.eq_iff_iff, blockPreceeds_iff h.tree, blockPreceeds_iff ht]
  exact h.anc x hx

theorem not_preceeds {x : Nat} (hx : x ≠ b) : blockPreceeds s₁ b x = false :=
  ((h.beside ht).symm h.leaf).not_preceeds hx

variable [Digest D] [DecidableEq D] (hl : Ledger E s)
include hl

omit h ht in
/-- `txhash` names blocks only that there are. -/
theorem named_ne (h : Joined s s₁ nb b) {te : TxhashElem D} (hte : te ∈ s.txhash) {y i j : Nat}
    (hloc : te.loc = .inBlock y i j) : y ≠ b := by
  have hlt := (hl.inBlock te hte y i j hloc).1
  have hnum := h.num
  omega

/-- The lookups from the block find what they found from the head. -/
theorem lies_iff {sha : D} {place : BlockId × Nat × Nat} :
    Lies s₁ sha b place ↔ Lies s sha (knownHead s) place := by
  unfold Lies
  rw [h.txhash]
  refine exists_congr fun te => and_congr_right fun hte => and_congr_right fun _ =>
    and_congr_right fun hloc => ?_
  rw [h.preceeds_new ht (named_ne hl h hte hloc)]

theorem lookup_eq (sha : D) :
    txhashGettxAncestor s₁ sha b = txhashGettxAncestor s sha (knownHead s) :=
  txhashGettxAncestor_congr h.txhash fun _ hte _ _ _ hloc =>
    h.preceeds_new ht (named_ne hl h hte hloc)

/-- No more is spent. -/
theorem not_spent {inp : Input D} (hspent : txFindDoublespend s (knownHead s) none inp = none) :
    txFindDoublespend s₁ b none inp = none := by
  rw [txFindDoublespend_eq_none] at hspent ⊢
  intro ie hie te hte y i j hloc
  unfold inputhashVals at hie
  rw [h.inputhash] at hie
  unfold txhashVals at hte
  rw [h.txhash] at hte
  have hy := named_ne hl h (List.mem_of_mem_filter hte) hloc
  rcases hspent ie hie te hte y i j hloc with hme | htx | ⟨hbefore, -⟩
  · exact .inl hme
  · refine .inr (.inl ?_)
    rw [(h.beside ht).shardOf_eq hy]
    exact htx
  · refine .inr (.inr ⟨?_, h.not_preceeds ht hy⟩)
    rw [h.preceeds_new ht hy]
    exact hbefore

/-- What passed on the head passes on the block. -/
theorem checkTxInputs_ok {tx : Tx D} {n : Nat}
    (hok : checkTxInputs E s (knownHead s) none tx = .ok (.ok, n)) :
    checkTxInputs E s₁ b none tx = .ok (.ok, n) := by
  refine checkTxInputs_carried (fun inp _ addr amount hone => ?_) hok
  obtain ⟨intx, ⟨y, i, j, hfind, htx⟩, hout⟩ := checkOneInput_ok hone
  obtain ⟨te, hte, -, hloc, -⟩ := lies_of_lookup hfind
  refine checkOneInput_of_found (y := y) (i := i) (j := j) ?_ ?_ hout
    (h.not_spent ht hl (not_spent_of_checkOneInput hone))
  · rw [h.lookup_eq ht hl]
    exact hfind
  · rw [(h.beside ht).blockGetTx_eq (named_ne hl h hte hloc)]
    exact htx

/-- The refs made on the head for the next block are those made on the block. -/
theorem createRefs_eq (hdepth : nb.hdr.depth = (s.blk (knownHead s)).hdr.depth + 1) (tx : Tx D) :
    createRefs s₁ b tx 0 = createRefs s (knownHead s) tx 1 := by
  refine createRefs_congr fun inp _ => ?_
  refine resolveInput_congr (h.lookup_eq ht hl _) h.now fun y i j hfind => ?_
  obtain ⟨te, hte, -, hloc, -⟩ := lies_of_lookup hfind
  have hy := named_ne hl h hte hloc
  rw [h.old y hy, h.hdr, hdepth]
  refine ⟨rfl, ?_⟩
  dsimp only
  grind

end

variable [Digest D] [DecidableEq D]

/-- **The pending transactions are right for the block** as they were for the head. -/
theorem pendingFor (h : Joined s s₁ nb b) (ht : TreeOk s) (hl : Ledger E s)
    (hdepth : nb.hdr.depth = (s.blk (knownHead s)).hdr.depth + 1)
    (hp : PendingFor E s (knownHead s) 1) : PendingFor E s₁ b 0 := by
  have hmem : ∀ i t, t ∈ s₁.pending.pend i → t ∈ s.pending.pend i := fun i t hin => h.pend ▸ hin
  constructor
  · rw [h.pend]
    exact hp.pendOk
  · rw [h.pend]
    exact hp.sorted
  · exact fun i t hin => hp.inShard i t (hmem i t hin)
  · intro i t hin
    obtain ⟨n, hn⟩ := hp.inputs i t (hmem i t hin)
    exact ⟨n, h.checkTxInputs_ok ht hl hn⟩
  · intro i t hin
    rw [h.createRefs_eq ht hl hdepth]
    exact hp.refs i t (hmem i t hin)
  · exact fun i i' t hin t' hin' => hp.apart i i' t (hmem i t hin) t' (hmem i' t' hin')
  · intro i t hin
    rw [h.lookup_eq ht hl]
    exact hp.notInChain i t (hmem i t hin)
  · intro i t hin
    have hheld := hp.held i t (hmem i t hin)
    unfold HeldPending txhashGetPendingTx txhashVals at hheld ⊢
    rw [h.txhash]
    exact hheld

/-- What stays quiet does so still. -/
theorem staysQuiet (h : Joined s s₁ nb b) (ht : TreeOk s) {y i j : Nat} (hy : y ≠ b)
    (hq : StaysQuiet E s y i j) : StaysQuiet E s₁ y i j := by
  have hbeside := h.beside ht
  constructor
  · rw [h.old y hy]
    exact hq.clean
  · intro tx refs hslot inp hinp x i' j' hlies
    rw [hbeside.shardOf_eq hy] at hslot
    have hold := (hbeside.lies_iff h.leaf hy _).mp hlies
    rw [hbeside.blockGetTx_eq (hbeside.ne_of_lies hy hold)]
    exact hq.inputs tx refs hslot inp hinp x i' j' hold
  · intro tx refs hslot
    rw [hbeside.shardOf_eq hy] at hslot
    rw [hbeside.checkTxRefs_eq hy]
    exact hq.refs tx refs hslot

theorem undisturbed (h : Joined s s₁ nb b) (ht : TreeOk s) (hl : Ledger E s)
    (hu : Undisturbed E s (knownHead s)) : Undisturbed E s₁ b := by
  have hmem : ∀ i t, t ∈ s₁.pending.pend i → t ∈ s.pending.pend i := fun i t hin => h.pend ▸ hin
  constructor
  · intro i t hin inp hinp place place' hlies hlies'
    exact hu.single i t (hmem i t hin) inp hinp place place' ((h.lies_iff ht hl).mp hlies)
      ((h.lies_iff ht hl).mp hlies')
  · intro i t hin n hn ie hie te hte y i' j' hloc
    unfold inputhashVals at hie
    rw [h.inputhash] at hie
    unfold txhashVals at hte
    rw [h.txhash] at hte
    exact h.staysQuiet ht (named_ne hl h (List.mem_of_mem_filter hte) hloc)
      (hu.spenders i t (hmem i t hin) n hn ie hie te hte y i' j' hloc)

/-- **The block is just mined**, when its shards are those of the pending transactions. -/
theorem justMined (h : Joined s s₁ nb b) (ht : TreeOk s) (hl : Ledger E s) (hl₁ : LedgerOk E s₁)
    (hrec : InputsRecorded E s) (hdepth : nb.hdr.depth = (s.blk (knownHead s)).hdr.depth + 1)
    (hp : PendingFor E s (knownHead s) 1) (hu : Undisturbed E s (knownHead s))
    (hnums : ∀ i : Nat, (nb.shardNums[i]?.getD 0).toNat = (s.pending.pend i).length)
    (hroot : ∀ i : Nat, s.pending.pend i ≠ [] →
      nb.merkles[i]? = some (hashesRoot E.crypto (pendHashes E.crypto s.pending.pend i))) :
    JustMined E s₁ b where
  lt := by
    rw [h.numBlocks, h.num]
    exact Nat.lt_succ_self _
  ledger := hl₁.toLedger
  kept := hl₁.proofs
  recorded := hrec.congr h.inputhash
  clean := h.clean
  leaf := h.leaf
  unnamed te hte i j hloc := by
    rw [h.txhash] at hte
    exact named_ne hl h hte hloc rfl
  shard i := by rw [h.shard, hnums, h.pend]
  root i hne := by
    rw [h.merkles, h.pend]
    exact hroot i (h.pend ▸ hne)
  pending := h.pendingFor ht hl hdepth hp
  undisturbed := h.undisturbed ht hl hu

/-- Where the heads are when the shards begin to come in. -/
theorem loading (h : Joined s s₁ nb b) (hj : JustMined E s₁ b) :
    Loading E s₁ b (doneBelow s₁ 0) (doneBelow s₁ 0) s₁ := by
  have hnone : doneBelow s₁ 0 = fun _ => 0 := funext fun i => if_neg (Nat.not_lt_zero i)
  rw [hnone]
  have hfill := hj.filling
  exact ⟨hfill, rfl, rfl, fun _ => ⟨rfl, fun _ => rfl⟩,
    fun hall => h.head (hfill.blockAllKnown_iff.mpr hall)⟩

theorem onHead_of_pending (h : Joined s s₁ nb b) (hj : JustMined E s₁ b)
    (hsome : ∃ i, s₁.pending.pend i ≠ []) : OnHead s₁ b := by
  refine h.onHead (Bool.eq_false_iff.mpr fun hall => ?_)
  obtain ⟨i, hne⟩ := hsome
  obtain ⟨t, ht⟩ := List.exists_mem_of_ne_nil _ hne
  have hlen := hj.filling.blockAllKnown_iff.mp hall i (hj.lt_numShards ht)
  exact hne (List.length_eq_zero_iff.mp hlen.symm)

end Joined

end Pettycoin
