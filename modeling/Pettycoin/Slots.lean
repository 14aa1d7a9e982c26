import Pettycoin.Registry

/-!
# Pettycoin — what is in the slots

Few of the operations of a node change what is in the slots of its blocks:
`put_tx_in_shard` and `put_txhash_in_shard` fill one, and a new block comes with
empty ones. A property of the blocks' headers and slots is kept by every event if
it is kept by these three (`SlotRule.nodeStep`).

* `SameSlots.trans` — calls that leave the slots alone;
* `putTxInShard_slot`, `putTxhashInShard_slot` — the two that do not;
* `SlotRule.kept` — any operation;
* `SlotRule.nodeStep` — any event.
-/

namespace Pettycoin

open ExceptRules

variable {D : Type} [Digest D] [DecidableEq D] {E : Env D} {B : Brought D}
  {I : State D → Prop} {s₀ s s' : State D} {b shardnum txoff : Nat}

/-- The blocks and what is in their slots are as they were. -/
structure SameSlots (s s' : State D) : Prop where
  numBlocks : s'.numBlocks = s.numBlocks
  header : ∀ x : Nat, (s'.blk x).header = (s.blk x).header
  complaint : ∀ x : Nat, (s.blk x).complaint.isSome → (s'.blk x).complaint.isSome
  slot : ∀ x i j : Nat, (s'.shardOf x i).u j = (s.shardOf x i).u j

/-- One slot is set, and the rest is as it was. -/
structure SlotPut (s s' : State D) (b shardnum txoff : Nat) (x : Slot D) : Prop where
  numBlocks : s'.numBlocks = s.numBlocks
  header : ∀ y : Nat, (s'.blk y).header = (s.blk y).header
  complaint : ∀ y : Nat, (s.blk y).complaint.isSome → (s'.blk y).complaint.isSome
  slot : ∀ y i j : Nat, (s'.shardOf y i).u j
    = if y = b ∧ i = shardnum ∧ j = txoff then x else (s.shardOf y i).u j

/-- A property of the headers and the slots, where packets bring `B`. -/
structure SlotRule (E : Env D) (B : Brought D) (I : State D → Prop) : Prop where
  same : ∀ {s s' : State D}, SameSlots s s' → I s → I s'
  putTx : ∀ {s s' : State D} {b shardnum txoff : Nat} {tx : Tx D} {refs : List InputRef},
    Ledger E s → b < s.numBlocks → Placed E B s b shardnum txoff tx refs →
    SlotPut s s' b shardnum txoff (.tx tx refs) → I s → I s'
  putHash : ∀ {s s' : State D} {b shardnum txoff : Nat} {h : TxRefHash D},
    Ledger E s → b < s.numBlocks → B b shardnum txoff h →
    SlotPut s s' b shardnum txoff (.hash h) → I s → I s'
  sew : ∀ {s : State D} {prev : BlockId} {nb : NewBlock D}, Ledger E s → Addable s prev nb →
    (∃ p : BlockParts D, nb = p.toNewBlock E.crypto) → I s → I (sewBlock s prev nb)

-- ---------------------------------------------------------------------------
-- What leaves the slots alone
-- ---------------------------------------------------------------------------

omit [Digest D] [DecidableEq D] in
theorem SameSlots.refl (s : State D) :
    SameSlots s s := ⟨rfl, fun _ => rfl, fun _ => id, fun _ _ _ => rfl⟩

omit [Digest D] [DecidableEq D] in
theorem SameSlots.trans {s₁ : State D} (h : SameSlots s s₁) (h' : SameSlots s₁ s') :
    SameSlots s s' :=
  ⟨h'.numBlocks.trans h.numBlocks, fun x => (h'.header x).trans (h.header x),
    fun x hc => h'.complaint x (h.complaint x hc), fun x i j => (h'.slot x i j).trans (h.slot x i j)⟩

omit [Digest D] [DecidableEq D] in
theorem SlotPut.same {x : Slot D} {s₁ : State D} (h : SlotPut s s₁ b shardnum txoff x)
    (h' : SameSlots s₁ s') : SlotPut s s' b shardnum txoff x :=
  ⟨h'.numBlocks.trans h.numBlocks, fun y => (h'.header y).trans (h.header y),
    fun y hc => h'.complaint y (h.complaint y hc), fun y i j => (h'.slot y i j).trans (h.slot y i j)⟩

omit [DecidableEq D] in
theorem Frame.sameSlots (hf : Frame E s s') : SameSlots s s' where
  numBlocks := hf.numBlocks
  header x := by
    show (s'.blk x).core.header = (s.blk x).core.header
    rw [hf.core]
  complaint := hf.complaint
  slot x i j := by rw [hf.shardOf_eq]

omit [Digest D] [DecidableEq D] in
theorem SameBlocks.sameSlots (h : SameBlocks s s') : SameSlots s s' where
  numBlocks := h.numBlocks
  header x := by
    rw [h.blk x]
    rfl
  complaint x hc := by
    rw [h.blk x]
    exact hc
  slot x i j := by
    unfold State.shardOf
    rw [h.blk x]

omit [Digest D] [DecidableEq D] in
theorem sameSlots_modProof (g : BlockShard D → Option (Nat → Option (Proof D))) :
    SameSlots s (s.modShard b shardnum fun shard => { shard with proof := g shard }) where
  numBlocks := rfl
  header x := by
    rw [blk_modShard]
    rfl
  complaint x hc := by
    rw [blk_modShard]
    exact hc
  slot x i j := by
    by_cases hne : x = b ∧ i = shardnum
    · obtain ⟨rfl, rfl⟩ := hne
      rw [shardOf_modShard]
    · rw [shardOf_modShard_ne hne]

omit [Digest D] [DecidableEq D] in
theorem putProofInShard_sameSlots (s : State D) (b : Nat) (proof : Proof D) :
    SameSlots s (putProofInShard s b proof) := by
  unfold putProofInShard
  dsimp only
  split_ifs
  · exact .refl s
  · exact sameSlots_modProof fun shard => (shard.addProof proof).proof

/-- What follows when a slot has been filled: complaints, the proofs dropped of a shard that is
full, the heads told, and calls. -/
theorem afterPutTx_keeps {source : Option Nat} {tx : Tx D}
    (hframe : ∀ {s s' : State D}, Frame E s s' → I s → I s')
    (hsame : ∀ {s s' : State D}, SameBlocks s s' → I s → I s')
    (hdrop : ∀ {s : State D}, I s →
      I (s.modShard b shardnum fun shard => { shard with proof := none }))
    (h : afterPutTx E s source b shardnum txoff tx = .ok s') (hI : I s) : I s' := by
  unfold afterPutTx at h
  obtain ⟨s₁, h₁, h⟩ := of_bind_eq_ok h
  have hI₁ := hframe ((checkResolvedTxs_frame (.refl E s) tx).of_ok h₁) hI
  dsimp only at h
  generalize hs₂ : (if shardAllHashes (s₁.shardOf b shardnum) then
      s₁.modShard b shardnum fun shard => { shard with proof := none } else s₁) = s₂ at h
  have hI₂ : I s₂ := by
    rw [← hs₂]
    split_ifs
    · exact hdrop hI₁
    · exact hI₁
  -- saving and sending record events only
  have hrest : ∀ s₃, I s₃ → (do
      let s₄ ← saveTx E.crypto s₃.setNeedsRecheck b shardnum txoff
      let s₅ ← sendTxInBlockToPeers E.crypto s₄ source b shardnum txoff
      checkBlockShard E s₅ b shardnum .checkShardAfterTx
      Except.ok s₅) = .ok s' → I s' := by
    intro s₃ hI₃ hrest
    obtain ⟨s₄, h₄, hrest⟩ := of_bind_eq_ok hrest
    obtain ⟨s₅, h₅, hrest⟩ := of_bind_eq_ok hrest
    obtain ⟨_, -, hrest⟩ := of_bind_eq_ok hrest
    injection hrest with hrest
    have hsame₄ : SameBlocks s₃ s₄ := by
      unfold saveTx at h₄
      split_ifs at h₄
      · injection h₄ with h₄
        exact h₄ ▸ ⟨rfl, fun _ => rfl⟩
      · obtain ⟨_, -, h₄⟩ := of_bind_eq_ok h₄
        injection h₄ with h₄
        exact h₄ ▸ ⟨rfl, fun _ => rfl⟩
    have hsame₅ : SameBlocks s₄ s₅ := by
      unfold sendTxInBlockToPeers at h₅
      obtain ⟨_, -, h₅⟩ := of_bind_eq_ok h₅
      injection h₅ with h₅
      exact h₅ ▸ ⟨rfl, fun _ => rfl⟩
    exact hrest ▸ hsame hsame₅ (hsame hsame₄ hI₃)
  split_ifs at h
  · obtain ⟨s₃, h₃, h⟩ := of_bind_eq_ok h
    have hq := (updateBlockPtrsNewShard_quiet E.crypto (.refl s₂) b).of_ok h₃
    exact hrest s₃ (hsame hq.toSameBlocks hI₂) h
  · exact hrest s₂ hI₂ h

theorem afterPutTx_sameSlots {source : Option Nat} {tx : Tx D}
    (h : afterPutTx E s source b shardnum txoff tx = .ok s') : SameSlots s s' :=
  afterPutTx_keeps (fun hf hsame => hsame.trans hf.sameSlots)
    (fun hs hsame => hsame.trans hs.sameSlots)
    (fun hsame => hsame.trans (sameSlots_modProof fun _ => none)) h (.refl s)

-- ---------------------------------------------------------------------------
-- What changes them
-- ---------------------------------------------------------------------------

omit [DecidableEq D] in
theorem SlotSet.slotPut {x : Slot D} {e : TxRefHash D} {f : BlockShard D → BlockShard D}
    (hs : SlotSet E s s' b shardnum txoff x e f) : SlotPut s s' b shardnum txoff x where
  numBlocks := hs.numBlocks
  header y := by
    rw [hs.blk_eq y]
    rfl
  complaint y hc := by
    rw [hs.blk_eq y]
    exact hc
  slot := hs.slot

/-- `put_tx_in_shard` fills the slot, or finds a transaction there. -/
theorem putTxInShard_slot (hl : Ledger E s) {source : Option Nat} {tx : Tx D}
    {refs : List InputRef}
    (hproven : Proven E.crypto (s.blk b) shardnum txoff (hashTxAndRefs E.crypto tx refs))
    (h : putTxInShard E s source b shardnum txoff tx refs = .ok s') :
    s' = s ∨ SlotPut s s' b shardnum txoff (.tx tx refs) := by
  have hfilled : ∀ s₁, SlotPut s s₁ b shardnum txoff (.tx tx refs) →
      afterPutTx E s₁ source b shardnum txoff tx = .ok s' →
      s' = s ∨ SlotPut s s' b shardnum txoff (.tx tx refs) :=
    fun s₁ hput hafter => .inr (hput.same (afterPutTx_sameSlots hafter))
  unfold putTxInShard at h
  cases hu : (s.shardOf b shardnum).u txoff with
  | tx tx' refs' =>
    rw [hu] at h
    obtain ⟨_, -, h⟩ := of_bind_eq_ok h
    injection h with h
    exact .inl h.symm
  | hash e =>
    rw [hu] at h
    obtain ⟨s₁, hfill, hafter⟩ := of_bind_eq_ok h
    rw [fillSlot_of_hash hu] at hfill
    split_ifs at hfill with he
    subst he
    injection hfill with hfill
    subst hfill
    exact hfilled _ (hl.slotSet_hash hu).slotPut hafter
  | unknown =>
    rw [hu] at h
    obtain ⟨s₁, hfill, hafter⟩ := of_bind_eq_ok h
    rw [fillSlot_of_unknown hu] at hfill
    injection hfill with hfill
    subst hfill
    exact hfilled _ (hl.slotSet_unknown tx refs hu (off_lt_of_proven hproven)).slotPut hafter

/-- `put_txhash_in_shard` fills an unknown slot. -/
theorem putTxhashInShard_slot (hl : Ledger E s) {e : TxRefHash D} {r : State D × Bool}
    (hproven : Proven E.crypto (s.blk b) shardnum txoff e)
    (h : putTxhashInShard E s b shardnum txoff e = .ok r) :
    r.1 = s ∨ SlotPut s r.1 b shardnum txoff (.hash e) := by
  unfold putTxhashInShard at h
  cases hentry : txrefhashInShard E.crypto (s.shardOf b shardnum) txoff with
  | some p =>
    rw [hentry] at h
    obtain ⟨_, -, h⟩ := of_bind_eq_ok h
    injection h with h
    exact .inl (congrArg Prod.fst h).symm
  | none =>
    rw [hentry] at h
    obtain ⟨_, -, h⟩ := of_bind_eq_ok h
    injection h with h
    subst h
    have hu := txrefhashInShard_eq_none.mp hentry
    have hput := (hl.slotSet_setHash hu (off_lt_of_proven hproven) (h := e)).slotPut
    exact .inr (hput.same ⟨rfl, fun _ => rfl, fun _ => id, fun _ _ _ => rfl⟩)

omit [Digest D] [DecidableEq D] in
/-- A new block comes with empty slots. -/
theorem slot_sewBlock {prev : Nat} (nb : NewBlock D) (hprev : prev < s.numBlocks) (x i j : Nat) :
    ((sewBlock s prev nb).shardOf x i).u j
      = if x = s.numBlocks then .unknown else (s.shardOf x i).u j := by
  obtain ⟨features, hblk⟩ := blk_sewBlock nb hprev
  unfold State.shardOf
  rw [hblk]
  split_ifs with hx
  · rw [hx, Function.update_self]
    rfl
  · rw [Function.update_of_ne hx]

omit [Digest D] [DecidableEq D] in
/-- `block_add` sews the block in, and then only the heads move. -/
theorem blockAdd_sameBlocks {prev : BlockId} {nb : NewBlock D} {r : State D × BlockId}
    (h : blockAdd s prev nb = .ok r) : SameBlocks (sewBlock s prev nb) r.1 := by
  obtain ⟨_, -, h⟩ := of_bind_eq_ok h
  injection h with h
  subst h
  exact (blockAddHeads_quiet s prev nb).toSameBlocks

omit [Digest D] [DecidableEq D] in
theorem blockAdd_sameSlots {prev : BlockId} {nb : NewBlock D} {r : State D × BlockId}
    (h : blockAdd s prev nb = .ok r) : SameSlots (sewBlock s prev nb) r.1 :=
  (blockAdd_sameBlocks h).sameSlots

omit [DecidableEq D] in
/-- A node starts with nothing in its slots. -/
theorem slot_startNode (sha merkle : D) (nonce2 : Bytes 13) (tailer : BlockTailer)
    (now : UInt32) (opts : FeeOptions) (x i j : Nat) :
    ((startNode (genesisBlock sha merkle nonce2 tailer) now opts).shardOf x i).u j = .unknown := by
  rfl

-- ---------------------------------------------------------------------------
-- The rule
-- ---------------------------------------------------------------------------

theorem SlotRule.kept (hI : SlotRule E B I) : Kept E (fun _ => False) B I where
  still hs := hI.same hs.toSameBlocks.sameSlots
  publish _ _ hs := hI.same ((publishComplaint_frame (.refl E _) _ _ _).of_ok hs).sameSlots
  recheckPending _ hs := hI.same ((recheckPendingTxs_frame (.refl E _)).of_ok hs).sameSlots
  addPending _ hok hs := hI.same ((addPendingTx_frame (.refl E _) (.inr hok)).of_ok hs).sameSlots
  dropPending _ hs := hI.same ((dropPendingTx_frame (.refl E _) _).of_ok hs).sameSlots
  putTx hl hb hproven _ _ hplaced hput h := by
    rcases putTxInShard_slot hl hproven hput with rfl | hslot
    · exact h
    · exact hI.putTx hl hb hplaced hslot h
  putTxhash hl hb hproven hB _ hput h := by
    rcases putTxhashInShard_slot hl hproven hput with heq | hslot
    · exact heq ▸ h
    · exact hI.putHash hl hb hB hslot h
  putProof _ _ _ := hI.same (putProofInShard_sameSlots _ _ _)
  addBlock hl hadd hp hr h := hI.same (blockAdd_sameSlots hr) (hI.sew hl hadd hp h)

/-- Whatever the node does with an event, it keeps the property. -/
theorem SlotRule.nodeStep {event : NodeEvent D} (hI : SlotRule E (event.Brings E s) I)
    (hl : Ledger E s) (hstep : nodeStep E s event = .ok s') (h : I s) : I s' :=
  ((nodeStep_moves hI.kept hl event (event.fillsClean_false E s) le_rfl).of_ok hstep).keeps h

-- ---------------------------------------------------------------------------
-- Runs of events of a kind
-- ---------------------------------------------------------------------------

/-- The states a node reaches when every event meets a condition. -/
inductive ReachWhere (E : Env D) (ok : State D → NodeEvent D → Prop) : State D → Prop
  | start (sha merkle : D) (nonce2 : Bytes 13) (tailer : BlockTailer) (now : UInt32)
      (opts : FeeOptions) :
    ReachWhere E ok (startNode (genesisBlock sha merkle nonce2 tailer) now opts)
  | step {s s' : State D} (event : NodeEvent D) : ReachWhere E ok s → ok s event →
    nodeStep E s event = .ok s' → ReachWhere E ok s'

theorem ReachWhere.nodeReach {ok : State D → NodeEvent D → Prop} (h : ReachWhere E ok s) :
    NodeReach E s := by
  induction h with
  | start sha merkle nonce2 tailer now opts => exact .start sha merkle nonce2 tailer now opts
  | step event _ _ hstep ih => exact .step event ih hstep

end Pettycoin
