import Pettycoin.NoTrace
import Pettycoin.Reorg

/-!
# Pettycoin — reorganisations over whole runs

Whatever the node hears, it is done in a few operations (`opReach_of_nodeReach`),
and three of them move the head of the longest knowns (`HeadOp`).

* `reorg_reinstates_iff` — which of these lose transactions, exactly.
* `reorg_asks_iff` — which of them set `needs_recheck` when the head moves.
-/

namespace Pettycoin

open ExceptRules Forest

variable {D : Type} {s s₁ s' : State D} {b prev : Nat}

-- ---------------------------------------------------------------------------
-- Every run
-- ---------------------------------------------------------------------------

section

variable [Digest D] [DecidableEq D] {E : Env D}

/-- The states a node is in between two operations, however they follow on one
another. -/
inductive OpReach (E : Env D) : State D → Prop
  | start (sha merkle : D) (nonce2 : Bytes 13) (tailer : BlockTailer) (now : UInt32)
    (opts : FeeOptions) : OpReach E (startNode (genesisBlock sha merkle nonce2 tailer) now opts)
  | still {s s' : State D} : OpReach E s → Still s s' → OpReach E s'
  | publish {s s' : State D} {b : BlockId} {complaint : Complaint D} {origin : Option Nat} :
    OpReach E s → Provable E.crypto s b → publishComplaint E s b complaint origin = .ok s' →
    OpReach E s'
  | recheckPending {s s' : State D} : OpReach E s → recheckPendingTxs E s = .ok s' → OpReach E s'
  | addPending {s : State D} {tx : Tx D} {r : State D × AddPending} : OpReach E s →
    TxOk E.crypto tx → addPendingTx E s tx = .ok r → OpReach E r.1
  | dropPending {s s' : State D} {tx : Tx D} : OpReach E s → dropPendingTx E s tx = .ok s' →
    OpReach E s'
  | putTx {s s' : State D} {source : Option Nat} {b shardnum txoff : Nat} {tx : Tx D}
    {refs : List InputRef} : OpReach E s → b < s.numBlocks →
    Proven E.crypto (s.blk b) shardnum txoff (hashTxAndRefs E.crypto tx refs) →
    TxOk E.crypto tx → putTxInShard E s source b shardnum txoff tx refs = .ok s' → OpReach E s'
  | putTxhash {s : State D} {b shardnum txoff : Nat} {h : TxRefHash D} {r : State D × Bool} :
    OpReach E s → b < s.numBlocks → Proven E.crypto (s.blk b) shardnum txoff h →
    putTxhashInShard E s b shardnum txoff h = .ok r → OpReach E r.1
  | putProof {s : State D} {b : Nat} {proof : Proof D} {h : TxRefHash D} : OpReach E s →
    b < s.numBlocks → checkProofByhash E.crypto proof (s.blk b) h = true →
    OpReach E (putProofInShard s b proof)
  | addBlock {s : State D} {prev : BlockId} {nb : NewBlock D} {r : State D × BlockId} :
    OpReach E s → Addable s prev nb → blockAdd s prev nb = .ok r → OpReach E r.1

/-- The states inside of `put_tx_in_shard` of block `b`, from where a slot was filled to
where the heads are told: complaints may be made there. -/
inductive Working (E : Env D) (b : BlockId) : State D → Prop
  | idle {s : State D} : OpReach E s → Working E b s
  | fill {s s' : State D} {shardnum txoff : Nat} {tx : Tx D} {refs : List InputRef} :
    OpReach E s → b < s.numBlocks →
    Proven E.crypto (s.blk b) shardnum txoff (hashTxAndRefs E.crypto tx refs) →
    TxOk E.crypto tx → ((s.shardOf b shardnum).u txoff).isTx = false →
    fillSlot E s b shardnum txoff tx refs = .ok s' → Working E b s'
  | still {s s' : State D} : Working E b s → Still s s' → Working E b s'
  | publish {s s' : State D} {b' : BlockId} {complaint : Complaint D} {origin : Option Nat} :
    Working E b s → Provable E.crypto s b' → publishComplaint E s b' complaint origin = .ok s' →
    Working E b s'
  | dropProofs {s : State D} (shardnum : Nat) : Working E b s →
    Working E b (s.modShard b shardnum fun shard => { shard with proof := none })

theorem kept_opReach (E : Env D) (B : Brought D) : Kept E (fun _ => False) B (OpReach E) where
  still hs h := .still h hs
  publish _ hb hs h := .publish h hb hs
  recheckPending _ hs h := .recheckPending h hs
  addPending _ hok hs h := .addPending h hok hs
  dropPending _ hs h := .dropPending h hs
  putTx _ hb hproven hok _ _ hput h := .putTx h hb hproven hok hput
  putTxhash _ hb hproven _ _ hput h := .putTxhash h hb hproven hput
  putProof _ hb hacc h := .putProof h hb hacc
  addBlock _ hadd _ hr h := .addBlock h hadd hr

theorem nodeOk_of_opReach (h : OpReach E s) : NodeOk E s := by
  induction h with
  | start sha merkle nonce2 tailer now opts => exact nodeOk_startNode sha merkle nonce2 tailer now opts
  | still _ hs ih => exact (kept_nodeOk E fun _ _ _ _ => False).still hs ih
  | publish _ hb hs ih => exact (kept_nodeOk E fun _ _ _ _ => False).publish ih.toLedger hb hs ih
  | recheckPending _ hs ih => exact (kept_nodeOk E fun _ _ _ _ => False).recheckPending ih.toLedger hs ih
  | addPending _ hok hs ih => exact (kept_nodeOk E fun _ _ _ _ => False).addPending ih.toLedger hok hs ih
  | dropPending _ hs ih => exact (kept_nodeOk E fun _ _ _ _ => False).dropPending ih.toLedger hs ih
  | putTx _ hb hproven hok hput ih => exact putTx_nodeOk ih hb hproven hok hput
  | putTxhash _ hb hproven hput ih => exact putTxhash_nodeOk ih hb hproven hput
  | putProof _ hb hacc ih => exact putProof_nodeOk ih hb hacc
  | addBlock _ hadd hr ih => exact addBlock_nodeOk ih hadd hr

/-- Whatever the node hears, it is done in such operations. -/
theorem opReach_of_nodeReach (h : NodeReach E s) : OpReach E s := by
  induction h with
  | start sha merkle nonce2 tailer now opts => exact .start sha merkle nonce2 tailer now opts
  | @step s s' event hreach hstep ih =>
    exact ((nodeStep_moves (kept_opReach E _) (nodeOk_of_opReach ih).toLedger event
      (event.fillsClean_false E s) le_rfl).of_ok hstep).keeps ih

theorem lagging_of_working (h : Working E b s) : NodeHas E (Lagging b) s := by
  induction h with
  | idle h =>
    have hok := nodeOk_of_opReach h
    exact hok.of_trail (g := fun _ => False) .refl fun hroom => (hok.chain hroom).lagging b
  | fill h hb hproven hok hu hfill =>
    exact (fillSlot_lagging (nodeOk_of_opReach h) hb hproven hok hu hfill).1
  | still _ hs ih => exact (steady_lagging b).still hs ih
  | publish _ hb hs ih => exact (steady_lagging b).publish ih.toLedger hb hs ih
  | dropProofs shardnum _ ih => exact ih.dropProofs shardnum

/-- The operations that move the head of the longest knowns. -/
inductive HeadOp (D : Type)
  /-- `block_add` -/
  | addBlock (prev : BlockId) (nb : NewBlock D)
  /-- `update_block_ptrs_new_shard` -/
  | newShard (b : BlockId)
  /-- `publish_complaint`, with `update_block_ptrs_invalidated` -/
  | publish (b : BlockId) (complaint : Complaint D) (origin : Option Nat)

/-- Where the node does it. -/
def HeadOp.Admitted (E : Env D) (s : State D) : HeadOp D → Prop
  | addBlock prev nb => OpReach E s ∧ Addable s prev nb
  | newShard b => Working E b s ∧ b < s.numBlocks
  | publish b _ _ => (∃ b', Working E b' s) ∧ Provable E.crypto s b

def HeadOp.apply (E : Env D) (s : State D) : HeadOp D → Res (State D)
  | addBlock prev nb => do
    let (s, _) ← blockAdd s prev nb
    .ok s
  | newShard b => updateBlockPtrsNewShard E.crypto s b
  | publish b complaint origin => publishComplaint E s b complaint origin

/-- A transaction is put back: it is pending after the operation, or, for a complaint, when
`recheck_pending_txs` collects what is pending. -/
def HeadOp.PutBack (E : Env D) (s s' : State D) (tx : Tx D) : HeadOp D → Prop
  | addBlock _ _ | newShard _ => tx ∈ pendingTxs s'.pending
  | publish b complaint _ => GivenToRecheck E s b complaint tx

/-- The operation loses transactions. -/
def HeadOp.Loses (s : State D) : HeadOp D → Prop
  | addBlock prev nb => LosesAdding s prev nb
  | newShard _ => False
  | publish b complaint _ => LosesComplaining s b complaint

/-- The operation moves the head without asking for a recheck. -/
def HeadOp.Unasked (s : State D) : HeadOp D → Prop
  | addBlock prev nb => MovesUnasked s prev nb
  | newShard _ | publish .. => False

/-- `block_add` is what it does to the heads, of a node in order. -/
theorem addBlock_heads {nb : NewBlock D} (ha : (HeadOp.addBlock prev nb).Admitted E s)
    (hs' : (HeadOp.addBlock prev nb).apply E s = .ok s') (hroom : s'.numBlocks ≤ depthLimit) :
    s' = blockAddHeads s prev nb ∧ ChainInv s ∧ (ChainOp.addBlock prev nb).Admitted s := by
  obtain ⟨hreach, hadd⟩ := ha
  have hok := nodeOk_of_opReach hreach
  obtain ⟨r, hr, hs'⟩ := of_bind_eq_ok hs'
  injection hs' with hs'
  subst hs'
  obtain ⟨_, -, hr⟩ := of_bind_eq_ok hr
  injection hr with hr
  subst hr
  have hnum : (blockAddHeads s prev nb).numBlocks = s.numBlocks + 1 :=
    (blockAddHeads_quiet s prev nb).numBlocks.trans (sewBlock_same s prev nb).1
  change (blockAddHeads s prev nb).numBlocks ≤ depthLimit at hroom
  have hs := hok.chain (by omega)
  exact ⟨rfl, hs.toChainInv, hs.admitted hadd (by omega)⟩

/-- A shard that is complete never loses anything. -/
theorem newShard_reinstates (ha : (HeadOp.newShard b).Admitted E s)
    (hs' : (HeadOp.newShard b).apply E s = .ok s') (hroom : s'.numBlocks ≤ depthLimit) :
    Reinstates s s' fun tx => tx ∈ pendingTxs s'.pending := by
  obtain ⟨hwork, hb⟩ := ha
  have hq := (updateBlockPtrsNewShard_quiet E.crypto (.refl s) b).of_ok hs'
  obtain ⟨s₀, hi, hr, -⟩ := (lagging_of_working hwork).chain (hq.numBlocks ▸ hroom)
  obtain ⟨_, -, hs'⟩ := of_bind_eq_ok hs'
  injection hs' with hs'
  have hinv := hr.inv hi (hr.numBlocks ▸ hb)
  by_cases hall : blockAllKnown s b = true
  · rw [if_pos hall] at hs' hinv
    subst hs'
    have hold : knownHead s < s.numBlocks := by
      rw [hr.numBlocks, knownHead, hr.knowns]
      exact (KnownsOk.head_clean hi.heads.knowns).1
    exact updateKnown_reinstates (hr.treeOk hi.tree) hold
      (hq.numBlocks ▸ (KnownsOk.head_clean hinv.heads.knowns).1) hq.toSameBlocks
  · rw [if_neg hall] at hs'
    subst hs'
    exact fun hne => absurd rfl hne

/-- A complaint is published by a node in order. -/
theorem publish_lagging {complaint : Complaint D} {origin : Option Nat}
    (ha : (HeadOp.publish b complaint origin).Admitted E s)
    (hs' : (HeadOp.publish b complaint origin).apply E s = .ok s')
    (hroom : s'.numBlocks ≤ depthLimit) :
    Registry E s ∧ Recalculable s ∧ b < s.numBlocks ∧ b ≠ 0 := by
  obtain ⟨⟨b', hwork⟩, hb⟩ := ha
  have hlag := lagging_of_working hwork
  have ht := (publishComplaint_trail (g := fun _ => False) .refl hb complaint origin).of_ok hs'
  have hroom' := (ht.ledger hlag.toLedger).2.numBlocks.trans hroom
  exact ⟨hlag.toRegistry, (hlag.chain hroom').recalculable, hb.1, hlag.ne_genesis hb⟩

/-- **When a reorganisation puts the transactions back.** An operation that moves the head of
the longest knowns puts back what is known of the old branch, and asks for a recheck, exactly
when it is not one of those that lose transactions. -/
theorem reorg_reinstates_iff {op : HeadOp D} (ha : op.Admitted E s) (hs' : op.apply E s = .ok s')
    (hroom : s'.numBlocks ≤ depthLimit) :
    (knownHead s' ≠ knownHead s →
      (∀ x tx, Anc (prevOf s') x (knownHead s) → ¬ Anc (prevOf s') x (knownHead s') →
        tx ∈ blockTxs s x → op.PutBack E s s' tx) ∧ s'.pending.needsRecheck = true) ↔
      ¬ op.Loses s := by
  cases op with
  | addBlock prev nb =>
    obtain ⟨rfl, hi, hadm⟩ := addBlock_heads ha hs' hroom
    exact blockAddHeads_reinstates_iff hi hadm
  | newShard b => exact iff_of_true (newShard_reinstates ha hs' hroom) id
  | publish b complaint origin =>
    obtain ⟨hr, hrec, hb, hb0⟩ := publish_lagging ha hs' hroom
    exact publishComplaint_reinstates_iff hr hrec hb hb0 hs'

/-- **Which moves of the head ask for a recheck**: all but some swaps of `block_add`. -/
theorem reorg_asks_iff {op : HeadOp D} (ha : op.Admitted E s) (hs' : op.apply E s = .ok s')
    (hroom : s'.numBlocks ≤ depthLimit) :
    (knownHead s' ≠ knownHead s → s'.pending.needsRecheck = true) ↔ ¬ op.Unasked s := by
  cases op with
  | addBlock prev nb =>
    obtain ⟨rfl, hi, hadm⟩ := addBlock_heads ha hs' hroom
    exact blockAddHeads_asks_iff hi hadm
  | newShard b =>
    exact iff_of_true (fun hne => (newShard_reinstates ha hs' hroom hne).2) id
  | publish b complaint origin =>
    obtain ⟨hr, hrec, hb, hb0⟩ := publish_lagging ha hs' hroom
    exact iff_of_true (publishComplaint_asks hr hrec hb hb0 hs') id

end

-- ---------------------------------------------------------------------------
-- A fork
-- ---------------------------------------------------------------------------

/-- A block with the payment. -/
def forkFirst : BlockParts IdealDigest := lightBlock .zero 1 4 [(samplePayment, [])]

/-- An empty block besides. -/
def forkOther : BlockParts IdealDigest := lightBlock .zero 1 4 []

/-- A block on the empty one, with a transaction nobody has told yet. -/
def forkLonger : BlockParts IdealDigest :=
  lightBlock (hashBlock idealCrypto forkOther) 2 8 [(sampleFee, [⟨0, 0, 0, 0⟩])]

/-- What the node hears before the last block. -/
def forkRun : List (NodeEvent IdealDigest) :=
  [sampleHeader forkFirst, samplePacket forkFirst [(samplePayment, [])] 0 (samplePayment, []),
    sampleHeader forkOther]

/-- The last block, as `block_add` gets it. -/
def forkBlock : NewBlock IdealDigest := forkLonger.toNewBlock idealCrypto

theorem forkRun_spec :
    ∃ s s', NodeReach idealEnv s ∧ Addable s 2 forkBlock ∧ blockAdd s 2 forkBlock = .ok (s', 3) ∧
      s'.numBlocks = 4 ∧ knownHead s = 1 ∧ knownHead s' = 2 ∧ blockPreceeds s' 1 2 = false ∧
      blockTxs s 1 = [samplePayment] ∧ pendingTxs s'.pending = [] := by
  have hrun : (nodeRun idealEnv sampleNode forkRun >>= fun s => do
      let (s', b) ← blockAdd s 2 forkBlock
      .ok (decide (b = 3 ∧ 2 < s.numBlocks ∧
          forkBlock.hdr.shardOrder = protocolInitialShardOrder ∧
          forkBlock.hdr.depth = (s.blk 2).hdr.depth + 1 ∧
          getDifficulty s 2 = .ok forkBlock.tailer.difficulty ∧
          blockFindAny s forkBlock.sha = none),
        decide (s'.numBlocks = 4 ∧ knownHead s = 1 ∧ knownHead s' = 2 ∧
          blockPreceeds s' 1 2 = false ∧ blockTxs s 1 = [samplePayment] ∧
          pendingTxs s'.pending = [])))
      = .ok (true, true) := by
    decide +kernel
  obtain ⟨s, hs, hchecks⟩ := of_bind_eq_ok hrun
  obtain ⟨⟨s', b⟩, hadd, hchecks⟩ := of_bind_eq_ok hchecks
  injection hchecks with hchecks
  simp only [Prod.mk.injEq, decide_eq_true_eq] at hchecks
  obtain ⟨⟨rfl, hprev, horder, hdepth, hdiff, hfresh⟩, hheads⟩ := hchecks
  exact ⟨s, s', nodeReach_sampleNode.run hs,
    ⟨hprev, horder, hdepth, by decide, by decide, hdiff, hfresh⟩, hadd, hheads⟩

/-- At the fork the condition tells it. -/
theorem reorg_reinstates_iff_fork :
    ∃ s s', NodeReach idealEnv s ∧ (HeadOp.addBlock 2 forkBlock).apply idealEnv s = .ok s' ∧
      ((knownHead s' ≠ knownHead s →
        (∀ x tx, Anc (prevOf s') x (knownHead s) → ¬ Anc (prevOf s') x (knownHead s') →
          tx ∈ blockTxs s x → (HeadOp.addBlock 2 forkBlock).PutBack idealEnv s s' tx) ∧
          s'.pending.needsRecheck = true) ↔ ¬ (HeadOp.addBlock 2 forkBlock).Loses s) := by
  obtain ⟨s, s', hreach, hadd, hs', hnum, -⟩ := forkRun_spec
  have happly : (HeadOp.addBlock 2 forkBlock).apply idealEnv s = .ok s' := by
    show (blockAdd s 2 forkBlock >>= fun r => .ok r.1) = .ok s'
    rw [hs']
    rfl
  refine ⟨s, s', hreach, happly, ?_⟩
  exact reorg_reinstates_iff ⟨opReach_of_nodeReach hreach, hadd⟩ happly
    (by rw [hnum]; exact Nat.le_of_ble_eq_true rfl)

/-- The swap of `new_longest` leaves the payment of the old branch behind. -/
theorem reorg_loses :
    ∃ s s', NodeReach idealEnv s ∧
      (HeadOp.addBlock 2 forkBlock).Admitted idealEnv s ∧
      (HeadOp.addBlock 2 forkBlock).apply idealEnv s = .ok s' ∧
      knownHead s' ≠ knownHead s ∧ Anc (prevOf s') 1 (knownHead s) ∧
      ¬ Anc (prevOf s') 1 (knownHead s') ∧ samplePayment ∈ blockTxs s 1 ∧
      samplePayment ∉ pendingTxs s'.pending := by
  obtain ⟨s, s', hreach, hadd, hs', hnum, hhead, hhead', hoff, htxs, hpending⟩ := forkRun_spec
  have hop := opReach_of_nodeReach hreach
  have htree := ((nodeOk_of_opReach (.addBlock hop hadd hs')).chain
    (show s'.numBlocks ≤ depthLimit by rw [hnum]; exact Nat.le_of_ble_eq_true rfl)).tree
  refine ⟨s, s', hreach, ⟨hop, hadd⟩, ?_, ?_, ?_, ?_, ?_, ?_⟩
  · show (blockAdd s 2 forkBlock >>= fun r => .ok r.1) = .ok s'
    rw [hs']
    rfl
  · rw [hhead, hhead']
    decide
  · rw [hhead]
    exact Anc.refl _ _
  · rw [hhead', ← blockPreceeds_iff htree, hoff]
    decide
  · rw [htxs]
    exact List.mem_singleton_self _
  · rw [hpending]
    exact List.not_mem_nil

end Pettycoin
