import Pettycoin.ReorgRun
import Pettycoin.Slots

/-!
# Pettycoin — the proofs that are stored

`put_proof_in_shard` keeps an accepted proof under the place it names, and nothing else
adds one: `put_tx_in_shard` drops those of a shard when the last hash of it is known, and a
new block comes without. So a stored proof is accepted for the entry at its place
(`storedProof_accepted`). The refs stored with a transaction are one for each of its inputs
(`refsLength_of_nodeReach`).

* `proofsRight_of_opReach` — over whole runs;
* `storedProof_accepted` — what is stored is accepted;
* `refsLength_of_nodeReach` — a ref for each input.
-/

namespace Pettycoin

open ExceptRules

variable {D : Type} [Digest D] [DecidableEq D] {E : Env D} {C : Crypto D} {s s' : State D}
  {b shardnum txoff : Nat}

/-- A stored proof is for its place, and is accepted there for some entry. -/
def ProofsRight (C : Crypto D) (s : State D) : Prop :=
  ∀ (b i j : Nat) (proof : Proof D), (s.shardOf b i).proof.bind (· j) = some proof →
    ∃ e, Proves C (s.blk b) i j e proof

/-- The headers are as they were, and no proof is stored that was not. -/
structure ProofsFewer (s s' : State D) : Prop where
  header : ∀ x : Nat, (s'.blk x).header = (s.blk x).header
  proofs : ∀ (x i j : Nat) (proof : Proof D), (s'.shardOf x i).proof.bind (· j) = some proof →
    (s.shardOf x i).proof.bind (· j) = some proof

-- ---------------------------------------------------------------------------
-- What adds no proof
-- ---------------------------------------------------------------------------

omit [Digest D] [DecidableEq D] in
theorem ProofsFewer.refl (s : State D) : ProofsFewer s s := ⟨fun _ => rfl, fun _ _ _ _ => id⟩

omit [Digest D] [DecidableEq D] in
theorem ProofsFewer.trans {s₁ : State D} (h : ProofsFewer s s₁) (h' : ProofsFewer s₁ s') :
    ProofsFewer s s' :=
  ⟨fun x => (h'.header x).trans (h.header x),
    fun x i j proof hp => h.proofs x i j proof (h'.proofs x i j proof hp)⟩

theorem ProofsRight.fewer (h : ProofsRight C s) (hf : ProofsFewer s s') : ProofsRight C s' := by
  intro x i j proof hp
  obtain ⟨e, hshard, htxoff, hacc⟩ := h x i j proof (hf.proofs x i j proof hp)
  have hheader := hf.header x
  refine ⟨e, hshard, htxoff, (checkProofByhash_congr ?_ ?_ ?_ proof e).trans hacc⟩
  · exact (congrArg Block.hdr hheader :)
  · exact (congrArg Block.shardNums hheader :)
  · exact (congrArg Block.merkles hheader :)

omit [DecidableEq D] in
theorem Frame.proofsFewer (hf : Frame E s s') : ProofsFewer s s' where
  header := hf.sameSlots.header
  proofs x i j proof hp := by rwa [hf.shardOf_eq] at hp

omit [Digest D] [DecidableEq D] in
theorem SameBlocks.proofsFewer (h : SameBlocks s s') : ProofsFewer s s' where
  header := h.sameSlots.header
  proofs x i j proof hp := by
    unfold State.shardOf at hp
    rw [h.blk x] at hp
    exact hp

omit [Digest D] [DecidableEq D] in
theorem proofsFewer_modShard {f : BlockShard D → BlockShard D}
    (hf : ∀ (shard : BlockShard D) (j : Nat) (proof : Proof D),
      (f shard).proof.bind (· j) = some proof → shard.proof.bind (· j) = some proof) :
    ProofsFewer s (s.modShard b shardnum f) where
  header x := by
    rw [blk_modShard]
    rfl
  proofs x i j proof hp := by
    by_cases hat : x = b ∧ i = shardnum
    · obtain ⟨rfl, rfl⟩ := hat
      rw [shardOf_modShard] at hp
      exact hf _ j proof hp
    · rwa [shardOf_modShard_ne hat] at hp

omit [DecidableEq D] in
theorem SlotSet.proofsFewer {x : Slot D} {e : TxRefHash D} {f : BlockShard D → BlockShard D}
    (hs : SlotSet E s s' b shardnum txoff x e f)
    (hf : ∀ shard : BlockShard D, (f shard).proof = shard.proof) : ProofsFewer s s' := by
  have hfewer : ProofsFewer s (s.modShard b shardnum f) :=
    proofsFewer_modShard fun shard j proof hp => by rwa [hf] at hp
  refine ⟨fun y => ?_, fun y i j proof hp => ?_⟩
  · rw [hs.blk]
    exact hfewer.header y
  · refine hfewer.proofs y i j proof ?_
    unfold State.shardOf at hp ⊢
    rwa [hs.blk] at hp

theorem afterPutTx_proofsFewer {source : Option Nat} {tx : Tx D}
    (h : afterPutTx E s source b shardnum txoff tx = .ok s') : ProofsFewer s s' :=
  afterPutTx_keeps (fun hf h => h.trans hf.proofsFewer) (fun hs h => h.trans hs.proofsFewer)
    (fun h => h.trans (proofsFewer_modShard fun _ _ _ hp => absurd hp (by simp))) h (.refl s)

theorem putTxInShard_proofsFewer (hl : Ledger E s) {source : Option Nat} {tx : Tx D}
    {refs : List InputRef}
    (hproven : Proven E.crypto (s.blk b) shardnum txoff (hashTxAndRefs E.crypto tx refs))
    (h : putTxInShard E s source b shardnum txoff tx refs = .ok s') : ProofsFewer s s' := by
  unfold putTxInShard at h
  cases hu : (s.shardOf b shardnum).u txoff with
  | tx tx' refs' =>
    rw [hu] at h
    obtain ⟨_, -, h⟩ := of_bind_eq_ok h
    exact Except.ok.inj h ▸ .refl s
  | hash e =>
    rw [hu] at h
    obtain ⟨s₁, hfill, hafter⟩ := of_bind_eq_ok h
    rw [fillSlot_of_hash hu] at hfill
    split_ifs at hfill with he
    subst he
    obtain rfl := Except.ok.inj hfill
    exact ((hl.slotSet_hash hu).proofsFewer fun _ => rfl).trans (afterPutTx_proofsFewer hafter)
  | unknown =>
    rw [hu] at h
    obtain ⟨s₁, hfill, hafter⟩ := of_bind_eq_ok h
    rw [fillSlot_of_unknown hu] at hfill
    obtain rfl := Except.ok.inj hfill
    exact ((hl.slotSet_unknown tx refs hu (off_lt_of_proven hproven)).proofsFewer fun _ => rfl).trans
      (afterPutTx_proofsFewer hafter)

theorem putTxhashInShard_proofsFewer (hl : Ledger E s) {e : TxRefHash D} {r : State D × Bool}
    (hproven : Proven E.crypto (s.blk b) shardnum txoff e)
    (h : putTxhashInShard E s b shardnum txoff e = .ok r) : ProofsFewer s r.1 := by
  unfold putTxhashInShard at h
  cases hentry : txrefhashInShard E.crypto (s.shardOf b shardnum) txoff with
  | some p =>
    rw [hentry] at h
    obtain ⟨_, -, h⟩ := of_bind_eq_ok h
    exact Except.ok.inj h ▸ .refl s
  | none =>
    rw [hentry] at h
    obtain ⟨_, -, h⟩ := of_bind_eq_ok h
    have hu := txrefhashInShard_eq_none.mp hentry
    obtain rfl := Except.ok.inj h
    refine ((hl.slotSet_setHash hu (off_lt_of_proven hproven) (h := e)).proofsFewer
      fun _ => rfl).trans ?_
    exact ⟨fun _ => rfl, fun _ _ _ _ => id⟩

-- ---------------------------------------------------------------------------
-- What adds one
-- ---------------------------------------------------------------------------

/-- `put_proof_in_shard` keeps an accepted proof under the place it names. -/
theorem putProofInShard_right (h : ProofsRight C s) {proof : Proof D} {e : TxRefHash D}
    (hacc : checkProofByhash C proof (s.blk b) e = true) :
    ProofsRight C (putProofInShard s b proof) := by
  have hheader := (putProofInShard_sameSlots s b proof).header
  intro x i j stored hstored
  have hright : ∃ e, Proves C (s.blk x) i j e stored := by
    unfold putProofInShard at hstored
    dsimp only at hstored
    split_ifs at hstored with hall
    · exact h x i j stored hstored
    · by_cases hat : x = b ∧ i = proof.pos.shard.toNat
      · obtain ⟨rfl, rfl⟩ := hat
        rw [shardOf_modShard] at hstored
        have hthere : ∀ k : Nat, ((s.shardOf x proof.pos.shard.toNat).proof.getD fun _ => none) k
            = (s.shardOf x proof.pos.shard.toNat).proof.bind (· k) := by
          intro k
          cases (s.shardOf x proof.pos.shard.toNat).proof <;> rfl
        unfold BlockShard.addProof at hstored
        simp only [Option.bind_some, hthere] at hstored
        by_cases hj : j = proof.pos.txoff.toNat
        · subst hj
          rw [Function.update_self] at hstored
          cases hold : (s.shardOf x proof.pos.shard.toNat).proof.bind (· proof.pos.txoff.toNat) with
          | none =>
            rw [hold] at hstored
            obtain rfl := Option.some.inj hstored
            exact ⟨e, rfl, rfl, hacc⟩
          | some old =>
            rw [hold] at hstored
            obtain rfl := Option.some.inj hstored
            exact h x _ _ _ hold
        · rw [Function.update_of_ne hj, hthere] at hstored
          exact h x _ j stored hstored
      · rw [shardOf_modShard_ne hat] at hstored
        exact h x i j stored hstored
  obtain ⟨e', hshard, htxoff, hacc'⟩ := hright
  refine ⟨e', hshard, htxoff, (checkProofByhash_congr ?_ ?_ ?_ stored e').trans hacc'⟩
  · exact (congrArg Block.hdr (hheader x) :)
  · exact (congrArg Block.shardNums (hheader x) :)
  · exact (congrArg Block.merkles (hheader x) :)

/-- A new block comes without proofs. -/
theorem blockAdd_right (h : ProofsRight C s) {prev : BlockId} {nb : NewBlock D}
    (hadd : Addable s prev nb) {r : State D × BlockId} (hr : blockAdd s prev nb = .ok r) :
    ProofsRight C r.1 := by
  have hsew : ProofsRight C (sewBlock s prev nb) := by
    obtain ⟨features, hblk⟩ := blk_sewBlock nb hadd.prev_lt
    intro x i j proof hp
    by_cases hx : x = s.numBlocks
    · subst hx
      unfold State.shardOf at hp
      rw [hblk, Function.update_self] at hp
      have hnone : (none : Option (Proof D)) = some proof := hp
      cases hnone
    · have hold : (sewBlock s _ nb).blk x = s.blk x := blk_sewBlock_old hadd.prev_lt hx
      unfold State.shardOf at hp
      rw [hold] at hp ⊢
      exact h x i j proof hp
  exact hsew.fewer (blockAdd_sameBlocks hr).proofsFewer

theorem proofsRight_of_opReach (h : OpReach E s) : ProofsRight E.crypto s := by
  have hledger : ∀ {s : State D}, OpReach E s → Ledger E s := fun h =>
    (nodeOk_of_opReach h).toLedger
  induction h with
  | start sha merkle nonce2 tailer now opts =>
    intro x i j proof hp
    have hnone : (none : Option (Proof D)) = some proof := hp
    cases hnone
  | still _ hs ih => exact ih.fewer hs.toSameBlocks.proofsFewer
  | publish _ _ hs ih => exact ih.fewer ((publishComplaint_frame (.refl E _) _ _ _).of_ok hs).proofsFewer
  | recheckPending _ hs ih => exact ih.fewer ((recheckPendingTxs_frame (.refl E _)).of_ok hs).proofsFewer
  | addPending _ hok hs ih => exact ih.fewer ((addPendingTx_frame (.refl E _) (.inr hok)).of_ok hs).proofsFewer
  | dropPending _ hs ih => exact ih.fewer ((dropPendingTx_frame (.refl E _) _).of_ok hs).proofsFewer
  | putTx h _ hproven _ hput ih => exact ih.fewer (putTxInShard_proofsFewer (hledger h) hproven hput)
  | putTxhash h _ hproven hput ih =>
    exact ih.fewer (putTxhashInShard_proofsFewer (hledger h) hproven hput)
  | putProof _ _ hacc ih => exact putProofInShard_right ih hacc
  | addBlock _ hadd hr ih => exact blockAdd_right ih hadd hr

/-- Without collisions a stored proof is accepted for the entry at its place. -/
theorem storedProof_accepted (hreach : NodeReach E s) (hC : Function.Injective E.crypto.doubleSha)
    {proof : Proof D} (hstored : (s.shardOf b shardnum).proof.bind (· txoff) = some proof)
    {e : TxRefHash D} (hentry : entryAt E.crypto s b shardnum txoff = some e) :
    Proves E.crypto (s.blk b) shardnum txoff e proof := by
  obtain ⟨e', hproves⟩ := proofsRight_of_opReach (opReach_of_nodeReach hreach) b shardnum txoff
    proof hstored
  obtain rfl := ((ledgerOk_of_nodeReach hreach).proven b shardnum txoff e hentry).unique hC
    ⟨proof, hproves⟩
  exact hproves

-- ---------------------------------------------------------------------------
-- The refs that are stored
-- ---------------------------------------------------------------------------

/-- Every input of a stored transaction has a ref. -/
def RefsLength (s : State D) : Prop :=
  ∀ (b i j : Nat) (tx : Tx D) (refs : List InputRef), (s.shardOf b i).u j = .tx tx refs →
    refs.length = numInputs tx

theorem slotRule_refsLength (E : Env D) (B : Brought D) : SlotRule E B RefsLength where
  same hsame h b i j tx refs hu := h b i j tx refs ((hsame.slot b i j).symm.trans hu)
  putTx _ _ hplaced hput h x i j tx refs hu := by
    rw [hput.slot] at hu
    split_ifs at hu
    · injection hu with htx hrefs
      subst htx hrefs
      rcases hplaced.origin with ⟨-, hmade⟩ | ⟨-, -, hlen⟩
      · exact (forall₂_of_mapM hmade).length_eq.symm
      · exact hlen
    · exact h x i j tx refs hu
  putHash _ _ _ hput h x i j tx refs hu := by
    rw [hput.slot] at hu
    split_ifs at hu
    exact h x i j tx refs hu
  sew _ hadd _ h x i j tx refs hu := by
    rw [slot_sewBlock _ hadd.prev_lt] at hu
    split_ifs at hu
    exact h x i j tx refs hu

theorem refsLength_of_nodeReach (h : NodeReach E s) : RefsLength s := by
  induction h with
  | start sha merkle nonce2 tailer now opts =>
    intro b i j tx refs hu
    rw [slot_startNode] at hu
    cases hu
  | step event hreach hstep ih =>
    exact (slotRule_refsLength E _).nodeStep (ledgerOk_of_nodeReach hreach).toLedger hstep ih

end Pettycoin
