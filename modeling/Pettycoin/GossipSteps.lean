import Pettycoin.Gossip
import Pettycoin.NodeSteps

/-!
# Pettycoin — what the handlers pass on

The functions of `check_block.c`, and the handlers of packets: blocks, transactions
in blocks and complaints are passed on when they are new (`nodeStep_spreads`). A
transaction by itself is passed on whenever `recv_tx` does not refuse it
(`recvTx_told`).

* `putTxInShard_spreads` — a transaction in a block;
* `announceBlock_spreads` — a block;
* `recvTx_told` — a transaction by itself, which may be passed on again;
* `nodeStep_told` — all that a node passes on in one step.
-/

namespace Pettycoin

open ExceptRules Novelty

variable {D : Type} [Digest D] [DecidableEq D] {E : Env D} {s₀ s s' : State D} {b : Nat}

-- ---------------------------------------------------------------------------
-- Proofs
-- ---------------------------------------------------------------------------

omit [DecidableEq D] in
/-- The proof that `create_proof` makes or finds names the block. -/
theorem createProof_block (hl : Labels s) {C : Crypto D} {shardnum txoff : Nat} {proof : Proof D}
    (h : createProof C s b shardnum txoff = .ok proof) : proof.pos.block = (s.blk b).sha := by
  unfold createProof at h
  dsimp only at h
  split at h
  · rename_i stored hstored
    obtain rfl := Except.ok.inj h
    exact hl.proofs b shardnum txoff _ hstored
  · obtain ⟨-, -, h⟩ := of_bind_eq_ok h
    obtain ⟨merkle, -, h⟩ := of_bind_eq_ok h
    obtain rfl := Except.ok.inj h
    rfl

omit [DecidableEq D] in
theorem provenTxAt_block (hl : Labels s) {C : Crypto D} {shardnum txoff : Nat} {t : ProvenTx D}
    (h : provenTxAt C s b shardnum txoff = .ok t) : t.proof.pos.block = (s.blk b).sha := by
  obtain ⟨proof, hproof, h⟩ := of_bind_eq_ok h
  obtain ⟨tx, -, h⟩ := of_bind_eq_ok h
  obtain ⟨refs, -, h⟩ := of_bind_eq_ok h
  obtain rfl := Except.ok.inj h
  exact createProof_block hl hproof

-- ---------------------------------------------------------------------------
-- complain.c
-- ---------------------------------------------------------------------------

theorem complainBadInput_spreads (h : Spreads s₀ s) (t : ProvenTx D)
    (hb : Labelled s b t.proof.pos.block) (badInput : Nat) (intx : Tx D) :
    Keeps (complainBadInput E s b t badInput intx) (Spreads s₀) := by
  unfold complainBadInput
  exact (keeps_any _).bind fun _ _ =>
    publishComplaint_spreads h (.txBadInput badInput t intx) hb none

theorem complainMisorder_spreads (h : Spreads s₀ s) (t : ProvenTx D)
    (hb : Labelled s b t.proof.pos.block) (conflictTxoff : Nat) :
    Keeps (complainMisorder E s b t conflictTxoff) (Spreads s₀) := by
  unfold complainMisorder
  exact (keeps_any _).bind fun conflict _ =>
    publishComplaint_spreads h (.txMisorder t conflict) hb none

theorem complainBadInputRef_spreads (h : Spreads s₀ s) (t : ProvenTx D)
    (hb : Labelled s b t.proof.pos.block) (badRefnum referred : Nat) :
    Keeps (complainBadInputRef E s b t badRefnum referred) (Spreads s₀) := by
  unfold complainBadInputRef
  refine (keeps_any _).bind fun _ _ => (keeps_any _).bind fun input _ => ?_
  exact publishComplaint_spreads h (.badInputRef badRefnum t input) hb none

theorem complainDoublespend_spreads (h : Spreads s₀ s) (one two : Spend D)
    (hb : Labelled s two.block two.proof.pos.block) :
    Keeps (complainDoublespend E s one two) (Spreads s₀) := by
  unfold complainDoublespend
  refine (keeps_any _).bind fun _ _ => (keeps_any _).bind fun refs1 _ => ?_
  refine (keeps_any _).bind fun refs2 _ => ?_
  exact publishComplaint_spreads h (.doublespend one.input two.input
    ⟨one.proof, one.tx, refs1⟩ ⟨two.proof, two.tx, refs2⟩) hb none

theorem complainBadClaim_spreads (h : Spreads s₀ s) (claim : ProvenTx D)
    (hb : Labelled s b claim.proof.pos.block) (rewardBlock shardnum txoff : Nat) :
    Keeps (complainBadClaim E s b claim rewardBlock shardnum txoff) (Spreads s₀) := by
  unfold complainBadClaim
  exact (keeps_any _).bind fun reward _ =>
    publishComplaint_spreads h (.claimInputInvalid claim reward) hb none

-- ---------------------------------------------------------------------------
-- Inputs and refs
-- ---------------------------------------------------------------------------

theorem complainAboutInputs_spreads (h : Spreads s₀ s) (t : ProvenTx D)
    (hb : Labelled s b t.proof.pos.block) {ierr : InputEcode} (hne : ierr ≠ .doublespend)
    (bad : Nat) : Keeps (complainAboutInputs E s b t ierr bad) fun r => Spreads s₀ r.1 := by
  unfold complainAboutInputs
  cases ierr with
  | ok => exact h
  | unknown =>
    refine (keeps_any _).bind fun _ _ => ?_
    split_ifs
    · exact h.emit rfl
    · exact h
  | bad =>
    refine (keeps_any _).bind fun _ _ => (keeps_any _).bind fun _ _ => ?_
    exact (complainBadInput_spreads h t hb _ _).bind fun _ hs => hs
  | badAmount =>
    refine (keeps_any _).bind fun inputs _ => ?_
    exact (publishComplaint_spreads h (.txBadAmount t inputs) hb none).bind
      fun _ hs => hs
  | doublespend => exact absurd rfl hne
  | claimBad =>
    refine (keeps_any _).bind fun _ _ => (keeps_any _).bind fun pos _ => ?_
    exact (complainBadClaim_spreads h t hb _ _ _).bind fun _ hs => hs

theorem complainAboutRefs_spreads (h : Spreads s₀ s) (t : ProvenTx D)
    (hb : Labelled s b t.proof.pos.block) (ierr : InputEcode) :
    Keeps (complainAboutRefs E s b t ierr) fun r => Spreads s₀ r.1 := by
  unfold complainAboutRefs
  refine (keeps_any _).bind fun r _ => ?_
  obtain ⟨rerr, bad⟩ := r
  dsimp only
  split
  · exact h
  · trivial
  · split_ifs
    · exact h
    · exact (keeps_any _).bind fun _ _ => h.emit rfl
  · exact (complainBadInputRef_spreads h t hb _ _).bind fun _ hs => hs

theorem checkTxInputsAndRefs_spreads (h : Spreads s₀ s) (t : ProvenTx D)
    (hb : Labelled s b t.proof.pos.block) :
    Keeps (checkTxInputsAndRefs E s b t) fun r => Spreads s₀ r.1 := by
  unfold checkTxInputsAndRefs
  refine Ensures.bind (P := fun r => r.1 ≠ .doublespend)
    (keeps_of_ok fun _ hr => checkTxInputs_ne_doublespend hr) fun r hne => ?_
  obtain ⟨ierr, bad⟩ := r
  have hinputs : Keeps (complainAboutInputs E s b t ierr bad) fun r => Spreads s r.1 :=
    complainAboutInputs_spreads (.refl h.labels) t hb hne bad
  refine hinputs.bind fun r hr => ?_
  obtain ⟨s₁, valid⟩ := r
  dsimp only at hr ⊢
  split_ifs
  · exact complainAboutRefs_spreads (h.trans hr) t (hb.spreads hr) ierr
  · exact h.trans hr

theorem recheckElems_spreads (elems : List (TxhashElem D)) (h : Spreads s₀ s)
    (helems : ∀ te ∈ elems, ∀ b i j : Nat, te.loc = .inBlock b i j → b < s.numBlocks) :
    Keeps (recheckElems E elems s) fun r => Spreads s₀ r.1 := by
  induction elems generalizing s with
  | nil => exact h
  | cons te rest ih =>
    have hrest : ∀ te ∈ rest, ∀ b i j : Nat, te.loc = .inBlock b i j → b < s.numBlocks :=
      fun te hte => helems te (List.mem_cons_of_mem _ hte)
    unfold recheckElems
    split
    · exact ih (h.frame (Frame.setNeedsRecheck (.refl E s)) rfl) hrest
    · rename_i b shardnum txoff hloc
      refine (keeps_any _).bind fun _ _ => ?_
      split_ifs
      · exact ih h hrest
      · refine Ensures.bind (keeps_of_ok fun t ht => provenTxAt_block h.labels ht) fun t ht => ?_
        have hb : Labelled s b t.proof.pos.block :=
          ⟨helems te List.mem_cons_self b shardnum txoff hloc, ht.symm⟩
        refine (checkTxInputsAndRefs_spreads (.refl h.labels) t hb).bind fun r hr => ?_
        obtain ⟨s₁, valid⟩ := r
        dsimp only at hr ⊢
        split_ifs
        · exact ih (h.trans hr) fun te hte b i j hloc => hr.numBlocks (hrest te hte b i j hloc)
        · exact h.trans hr

theorem recheckSpenders_spreads (elems : List (InputhashElem D)) (h : Spreads s₀ s) :
    Keeps (recheckSpenders E elems s) fun r => Spreads s₀ r.1 := by
  induction elems generalizing s with
  | nil => exact h
  | cons ie rest ih =>
    unfold recheckSpenders recheckTx
    refine (recheckElems_spreads _ h fun te hte b i j hloc =>
      h.labels.placed te (List.mem_filter.mp hte).1 b i j hloc).bind fun r hr => ?_
    obtain ⟨s₁, valid⟩ := r
    dsimp only at hr ⊢
    split_ifs
    · exact ih hr
    · exact hr

theorem checkResolvedOutput_spreads (sha : D) (output : UInt16) (fuel : Nat) (h : Spreads s₀ s) :
    Keeps (checkResolvedOutput E sha output fuel s) (Spreads s₀) := by
  induction fuel generalizing s with
  | zero => trivial
  | succ fuel ih =>
    unfold checkResolvedOutput
    refine (recheckSpenders_spreads _ h).bind fun r hr => ?_
    obtain ⟨s₁, valid⟩ := r
    dsimp only at hr ⊢
    split_ifs
    · exact hr
    · exact ih hr

theorem checkResolvedTxs_spreads (h : Spreads s₀ s) (tx : Tx D) :
    Keeps (checkResolvedTxs E s tx) (Spreads s₀) :=
  Ensures.foldlM (fun _ _ _ hs => checkResolvedOutput_spreads _ _ _ hs) h

-- ---------------------------------------------------------------------------
-- Filling a shard
-- ---------------------------------------------------------------------------

variable {shardnum txoff : Nat} {f : BlockShard D → BlockShard D}

omit [Digest D] [DecidableEq D] in
/-- One shard is changed: its transactions stay, and its proofs name the block. -/
theorem Spreads.setShard (h : Spreads s₀ s) (txoff : Nat) (hb : b < s.numBlocks)
    (hn : s'.numBlocks = s.numBlocks) (hblk : s'.blk = (s.modShard b shardnum f).blk)
    (htxhash : ∀ te ∈ s'.txhash, te ∈ s.txhash ∨ te.loc = .inBlock b shardnum txoff)
    (hsilent : s'.forwarded = s.forwarded)
    (hslots : ∀ j, (txFor (s.shardOf b shardnum) j).isSome →
      (txFor (f (s.shardOf b shardnum)) j).isSome)
    (hproofs : ∀ j p, (f (s.shardOf b shardnum)).proof.bind (· j) = some p →
      p.pos.block = (s.blk b).sha) : Spreads s₀ s' := by
  have hhdr : ∀ x : Nat, (s'.blk x).sha = (s.blk x).sha ∧
      (s'.blk x).complaint = (s.blk x).complaint := by
    intro x
    rw [hblk, blk_modShard]
    exact ⟨rfl, rfl⟩
  have hdepth : ∀ x : Nat, (s'.blk x).depth = (s.blk x).depth := by
    intro x
    rw [hblk, blk_modShard]
    rfl
  have hshard : s'.shardOf b shardnum = f (s.shardOf b shardnum) := by
    show (s'.blk b).shard shardnum = _
    rw [hblk]
    exact shardOf_modShard f
  have hother : ∀ x i : Nat, ¬ (x = b ∧ i = shardnum) → s'.shardOf x i = s.shardOf x i := by
    intro x i hne
    show (s'.blk x).shard i = _
    rw [hblk]
    exact shardOf_modShard_ne hne f
  refine h.trans ⟨.silent (fun item hs => ?_) hsilent, ⟨?_, ?_, ?_, ?_⟩, fun x _ => (hhdr x).1⟩
  · cases item with
    | block x => exact hs.trans_eq hn.symm
    | slot x i j =>
      refine ⟨hs.1.trans_eq hn.symm, ?_⟩
      by_cases hx : x = b ∧ i = shardnum
      · obtain ⟨rfl, rfl⟩ := hx
        rw [hshard]
        exact hslots j hs.2
      · rw [hother x i hx]
        exact hs.2
    | complaint sha =>
      obtain ⟨x, hx, hsha, hsome⟩ := hs
      refine ⟨x, hx.trans_eq hn.symm, (hhdr x).1.trans hsha, ?_⟩
      rw [(hhdr x).2]
      exact hsome
    | tx tx => exact hs
  · intro x y hx hy hxy
    rw [hn] at hx hy
    rw [(hhdr x).1, (hhdr y).1] at hxy
    exact h.labels.distinct x y hx hy hxy
  · intro x i j p hp
    rw [(hhdr x).1]
    by_cases hx : x = b ∧ i = shardnum
    · obtain ⟨rfl, rfl⟩ := hx
      rw [hshard] at hp
      exact hproofs j p hp
    · rw [hother x i hx] at hp
      exact h.labels.proofs x i j p hp
  · intro te hte x i j hloc
    rw [hn]
    rcases htxhash te hte with hold | hnew
    · exact h.labels.placed te hold x i j hloc
    · rw [hnew] at hloc
      injection hloc with hbx
      exact hbx ▸ hb
  · intro x hx
    rw [hn] at hx
    rw [hdepth]
    exact h.labels.depth x hx

omit [Digest D] [DecidableEq D] in
/-- Only counters and proofs are changed. -/
theorem Spreads.modShard (h : Spreads s₀ s) (hb : b < s.numBlocks)
    (hu : (f (s.shardOf b shardnum)).u = (s.shardOf b shardnum).u)
    (hproofs : ∀ j p, (f (s.shardOf b shardnum)).proof.bind (· j) = some p →
      p.pos.block = (s.blk b).sha) : Spreads s₀ (s.modShard b shardnum f) := by
  refine h.setShard 0 hb rfl rfl (fun te hte => .inl hte) rfl (fun j hj => ?_) hproofs
  unfold txFor at hj ⊢
  rwa [hu]

omit [Digest D] [DecidableEq D] in
/-- A transaction put into a slot stays there, and so do the others. -/
theorem txFor_setTx (shard : BlockShard D) (txoff : Nat) (tx : Tx D) (refs : List InputRef) :
    txFor (shard.setTx txoff tx refs) txoff = some tx ∧
      ∀ j, (txFor shard j).isSome → (txFor (shard.setTx txoff tx refs) j).isSome := by
  have hu : (shard.setTx txoff tx refs).u txoff = .tx tx refs := Function.update_self ..
  have hself : txFor (shard.setTx txoff tx refs) txoff = some tx := by
    unfold txFor
    rw [hu]
  refine ⟨hself, fun j hj => ?_⟩
  by_cases hjo : j = txoff
  · subst hjo
    rw [hself]
    rfl
  · have hother : (shard.setTx txoff tx refs).u j = shard.u j := Function.update_of_ne hjo ..
    unfold txFor at hj ⊢
    rwa [hother]

/-- `put_tx_in_shard` fills the slot before anything else. -/
theorem fillSlot_spreads (h : Labels s) (hb : b < s.numBlocks) {tx : Tx D} {refs : List InputRef}
    (hu : ∀ tx' refs', (s.shardOf b shardnum).u txoff ≠ .tx tx' refs') :
    Keeps (fillSlot E s b shardnum txoff tx refs) fun s₁ =>
      Spreads s s₁ ∧ s₁.forwarded = s.forwarded ∧ ¬ Stored s (.slot b shardnum txoff) ∧
        Stored s₁ (.slot b shardnum txoff) := by
  have hnone : ¬ Stored s (.slot b shardnum txoff) := by
    rintro ⟨-, hsome⟩
    unfold txFor at hsome
    split at hsome
    · rename_i tx' refs' heq
      exact hu tx' refs' heq
    · exact absurd hsome (by simp)
  have hstored : ∀ s₁ : State D, s₁.numBlocks = s.numBlocks →
      txFor (s₁.shardOf b shardnum) txoff = some tx → Stored s₁ (.slot b shardnum txoff) :=
    fun s₁ hn htx => ⟨hb.trans_eq hn.symm, by rw [htx]; rfl⟩
  cases hslot : (s.shardOf b shardnum).u txoff with
  | unknown =>
    rw [fillSlot_of_unknown hslot]
    have hset := txFor_setTx (s.shardOf b shardnum) txoff tx refs
    have hspreads : Spreads s (filledUnknown E s b shardnum txoff tx refs) := by
      refine (Spreads.refl h).setShard (f := fun shard => shard.setTx txoff tx refs) txoff
        hb rfl rfl (fun te hte => ?_) rfl hset.2 fun j p hp => h.proofs b shardnum j p hp
      rcases List.mem_cons.mp ((E.txLayout.add_perm _ _).mem_iff.mp hte) with rfl | hold
      · exact .inr rfl
      · exact .inl hold
    refine ⟨hspreads, rfl, hnone, hstored _ rfl ?_⟩
    show txFor ((s.modShard b shardnum fun shard => shard.setTx txoff tx refs).shardOf b shardnum)
      txoff = some tx
    rw [shardOf_modShard]
    exact hset.1
  | hash entry =>
    rw [fillSlot_of_hash hslot]
    split_ifs
    · have hset := txFor_setTx
        { s.shardOf b shardnum with hashcount := (s.shardOf b shardnum).hashcount - 1 } txoff tx refs
      have hspreads : Spreads s (filledHash E s b shardnum txoff tx refs) :=
        (Spreads.refl h).setShard (f := fun shard => shard.upgradeTx txoff tx refs) txoff
          hb rfl rfl (fun te hte => .inl hte) rfl hset.2 fun j p hp => h.proofs b shardnum j p hp
      refine ⟨hspreads, rfl, hnone, hstored _ rfl ?_⟩
      show txFor ((s.modShard b shardnum fun shard => shard.upgradeTx txoff tx refs).shardOf b
        shardnum) txoff = some tx
      rw [shardOf_modShard]
      exact hset.1
    · trivial
  | tx tx' refs' => exact absurd hslot (hu tx' refs')

/-- Then it passes the transaction on. -/
theorem afterPutTx_spreads (h : Labels s) (hb : b < s.numBlocks) (source : Option Nat) (tx : Tx D) :
    Keeps (afterPutTx E s source b shardnum txoff tx) fun s' =>
      ∃ s₁, Spreads s s₁ ∧ s' = s₁.emit (.sendTxInBlockToPeers source b shardnum txoff) := by
  unfold afterPutTx
  refine (checkResolvedTxs_spreads (.refl h) tx).bind fun s₁ h₁ => ?_
  have hb₁ : b < s₁.numBlocks := h₁.numBlocks hb
  extract_lets s₂
  have h₂ : Spreads s s₂ := by
    show Spreads s (if _ then _ else _)
    split_ifs
    · exact h₁.modShard hb₁ rfl fun j p hp => absurd hp (by simp)
    · exact h₁
  have hrest : ∀ s₃, Spreads s s₃ → Keeps (do
      let s₄ ← saveTx E.crypto s₃.setNeedsRecheck b shardnum txoff
      let s₅ ← sendTxInBlockToPeers E.crypto s₄ source b shardnum txoff
      checkBlockShard E s₅ b shardnum .checkShardAfterTx
      Except.ok s₅) fun s' =>
        ∃ s₁, Spreads s s₁ ∧ s' = s₁.emit (.sendTxInBlockToPeers source b shardnum txoff) := by
    intro s₃ h₃
    have hflag : Spreads s s₃.setNeedsRecheck := h₃.frame (Frame.setNeedsRecheck (.refl E s₃)) rfl
    refine Ensures.bind (P := Spreads s) ?_ fun s₄ h₄ => ?_
    · unfold saveTx
      split_ifs
      · exact hflag
      · exact (keeps_any _).bind fun _ _ => hflag.emit rfl
    · refine Ensures.bind
        (P := fun s₅ => s₅ = s₄.emit (.sendTxInBlockToPeers source b shardnum txoff)) ?_
        fun s₅ h₅ => (keeps_any _).bind fun _ _ => ⟨s₄, h₄, h₅⟩
      unfold sendTxInBlockToPeers
      exact (keeps_any _).bind fun _ _ => rfl
  split_ifs
  · have hq : Ensures Fault.Plain (updateBlockPtrsNewShard E.crypto s₂ b) (Frame E s₂) :=
      (updateBlockPtrsNewShard_quiet E.crypto (.refl s₂) b).mono fun _ hq => (Frame.refl E s₂).quiet hq
    exact (h₂.silent hq (updateBlockPtrsNewShard_forwarded E.crypto s₂ b)).bind hrest
  · exact hrest s₂ h₂

/-- **A transaction in a block is passed on when its slot is filled.** -/
theorem putTxInShard_spreads (h : Spreads s₀ s) (hb : b < s.numBlocks) (source : Option Nat)
    (tx : Tx D) (refs : List InputRef) :
    Keeps (putTxInShard E s source b shardnum txoff tx refs) (Spreads s₀) := by
  unfold putTxInShard
  split
  · exact (keeps_any _).bind fun _ _ => h
  · rename_i hu
    refine (fillSlot_spreads h.labels hb fun tx' refs' heq => hu tx' refs' heq).bind fun s₁ h₁ => ?_
    obtain ⟨hfill, hsilent, hnone, hstored⟩ := h₁
    refine (afterPutTx_spreads hfill.labels (hfill.numBlocks hb) source tx).mono fun s' hs' => ?_
    obtain ⟨s₂, h₂, rfl⟩ := hs'
    have hemit : Spreads s₂ (s₂.emit .wakePeers) := (Spreads.refl h₂.labels).emit rfl
    refine h.trans ⟨.announce hfill.keeps hsilent hnone hstored h₂.toTellsOnce ?_
      (forwarded_tell rfl), ⟨h₂.labels.distinct, h₂.labels.proofs, h₂.labels.placed,
      h₂.labels.depth⟩,
      fun x hx => (hfill.trans h₂).sha x hx⟩
    exact hemit.keeps

theorem putTxhashInShard_spreads (h : Spreads s₀ s) (hb : b < s.numBlocks) (entry : TxRefHash D) :
    Keeps (putTxhashInShard E s b shardnum txoff entry) fun r => Spreads s₀ r.1 := by
  unfold putTxhashInShard
  split
  · exact (keeps_any _).bind fun _ _ => h
  · rename_i hentry
    refine (keeps_any _).bind fun _ _ => ?_
    have hnone : (s.shardOf b shardnum).u txoff = .unknown := by
      rw [txrefhashInShard_eq] at hentry
      cases hu : (s.shardOf b shardnum).u txoff with
      | unknown => rfl
      | hash e => rw [hu] at hentry; exact absurd hentry (by simp [Slot.entry])
      | tx tx refs => rw [hu] at hentry; exact absurd hentry (by simp [Slot.entry])
    refine h.setShard (f := fun shard => shard.setHash txoff entry) txoff hb rfl rfl
      (fun te hte => ?_) rfl (fun j hj => ?_) fun j p hp => h.labels.proofs b shardnum j p hp
    · rcases List.mem_cons.mp ((E.txLayout.add_perm _ _).mem_iff.mp hte) with rfl | hold
      · exact .inr rfl
      · exact .inl hold
    · have hne : j ≠ txoff := by
        rintro rfl
        unfold txFor at hj
        rw [hnone] at hj
        exact absurd hj (by simp)
      have hother : ((s.shardOf b shardnum).setHash txoff entry).u j
          = (s.shardOf b shardnum).u j := Function.update_of_ne hne ..
      unfold txFor at hj ⊢
      rwa [hother]

omit [Digest D] [DecidableEq D] in
theorem putProofInShard_spreads (h : Spreads s₀ s) (proof : Proof D)
    (hb : Labelled s b proof.pos.block) : Spreads s₀ (putProofInShard s b proof) := by
  unfold putProofInShard
  dsimp only
  split_ifs
  · exact h
  · refine h.modShard hb.1 rfl fun j p hp => ?_
    by_cases hj : j = proof.pos.txoff.toNat
    · subst hj
      rw [BlockShard.addProof, Option.bind_some, Function.update_self] at hp
      rcases Option.or_eq_some_iff.mp hp with hold | ⟨-, hnew⟩
      · refine h.labels.proofs b proof.pos.shard.toNat proof.pos.txoff.toNat p ?_
        cases hs : (s.shardOf b proof.pos.shard.toNat).proof with
        | none => rw [hs] at hold; exact absurd hold (by simp)
        | some proofs => rw [hs] at hold; exact hold
      · obtain rfl := Option.some.inj hnew
        exact hb.2.symm
    · rw [BlockShard.addProof, Option.bind_some, Function.update_of_ne hj] at hp
      refine h.labels.proofs b proof.pos.shard.toNat j p ?_
      cases hs : (s.shardOf b proof.pos.shard.toNat).proof with
      | none => rw [hs] at hp; exact absurd hp (by simp)
      | some proofs => rw [hs] at hp; exact hp

-- ---------------------------------------------------------------------------
-- Hashes
-- ---------------------------------------------------------------------------

theorem tryResolveHash_spreads (h : Spreads s₀ s) (hb : b < s.numBlocks) (source : Option Nat) :
    Keeps (tryResolveHash E s source b shardnum txoff) fun r => Spreads s₀ r.1 := by
  unfold tryResolveHash
  split
  · split
    · exact h
    · split
      · refine Ensures.bind (keeps_of_ok fun proof hp => createProof_block h.labels hp)
          fun proof hproof => ?_
        exact (complainMisorder_spreads h _ ⟨hb, hproof.symm⟩ _).bind fun _ hs => hs
      · exact (putTxInShard_spreads h hb source _ _).bind fun _ hs => hs
  · trivial

theorem tryResolveHashes_spreads (source : Option Nat) (addTodos : Bool) (l : List Nat)
    (h : Spreads s₀ s) (hb : b < s.numBlocks) :
    Keeps (tryResolveHashes E source b shardnum addTodos l s) (Spreads s₀) := by
  induction l generalizing s with
  | nil => exact h
  | cons i rest ih =>
    unfold tryResolveHashes
    split_ifs
    · exact h
    · exact ih h hb
    · refine (tryResolveHash_spreads (.refl h.labels) hb source).bind fun r hr => ?_
      obtain ⟨s₁, resolved⟩ := r
      dsimp only at hr ⊢
      have hb₁ : b < s₁.numBlocks := hr.numBlocks hb
      split_ifs
      · exact ih ((h.trans hr).emit rfl) hb₁
      · exact ih (h.trans hr) hb₁

theorem putTxhashesInShard_spreads (hashes : List (TxRefHash D)) (i : Nat) (h : Spreads s₀ s)
    (hb : b < s.numBlocks) :
    Keeps (putTxhashesInShard E b shardnum hashes i s) (Spreads s₀) := by
  induction hashes generalizing i s with
  | nil => exact h
  | cons entry rest ih =>
    unfold putTxhashesInShard
    refine (putTxhashInShard_spreads (.refl h.labels) hb entry).bind fun r hr => ?_
    obtain ⟨s₁, new⟩ := r
    exact ih _ (h.trans hr) (hr.numBlocks hb)

omit [Digest D] [DecidableEq D] in
theorem tellComplaint_spreads (h : Spreads s₀ s) (peer : Option Peer) (b : BlockId) :
    Spreads s₀ (tellComplaint s peer b) := by
  unfold tellComplaint
  split
  · exact h.emit rfl
  · exact h

omit [Digest D] in
/-- The block that is found by a hash has it. -/
theorem labelled_of_find {sha : D} (h : blockFindAny s sha = some b) : Labelled s b sha :=
  blockFindAny_spec h

theorem recvShard_spreads (h : Spreads s₀ s) (peer : Option Peer) (pkt : PktShard D) :
    Keeps (recvShard E s peer pkt) fun r => Spreads s₀ r.1 := by
  unfold recvShard
  dsimp only
  split
  · exact h.emit rfl
  · rename_i b hfind
    have hb := (labelled_of_find hfind).1
    split_ifs
    · exact tellComplaint_spreads h peer b
    · exact h
    · exact h
    · exact h
    · refine (keeps_any _).bind fun merkle _ => ?_
      split_ifs
      · exact h
      · refine (putTxhashesInShard_spreads _ _ (.refl h.labels) hb).bind fun s₁ h₁ => ?_
        refine (tryResolveHashes_spreads _ _ _ (h.trans h₁) (h₁.numBlocks hb)).bind fun _ hs => hs

theorem recvHashesInBlock_spreads (h : Spreads s₀ s) (peer : Peer) (pkt : HashProof D) :
    Keeps (recvHashesInBlock E s peer pkt) fun r => Spreads s₀ r.1 := by
  unfold recvHashesInBlock
  dsimp only
  split
  · exact h.emit rfl
  · rename_i b hfind
    have hb := labelled_of_find hfind
    split_ifs
    · exact h
    · refine (putTxhashInShard_spreads (.refl h.labels) hb.1 _).bind fun r h₁ => ?_
      obtain ⟨s₁, new⟩ := r
      dsimp only at h₁ ⊢
      split_ifs
      · exact h.trans h₁
      · have h₂ : Spreads s (putProofInShard s₁ b pkt.proof) :=
          putProofInShard_spreads h₁ pkt.proof (hb.spreads h₁)
        refine (tryResolveHash_spreads (h.trans h₂) (h₂.numBlocks hb.1) _).bind fun r h₃ => ?_
        obtain ⟨s₃, resolved⟩ := r
        dsimp only at h₃ ⊢
        split_ifs
        · exact h₃
        · exact h₃.emit rfl

-- ---------------------------------------------------------------------------
-- Transactions
-- ---------------------------------------------------------------------------

theorem recvProvenTx_spreads (h : Spreads s₀ s) (source : Option Nat) (t : ProvenTx D)
    (hb : Labelled s b t.proof.pos.block) :
    Keeps (recvProvenTx E s source b t) (Spreads s₀) := by
  unfold recvProvenTx
  dsimp only
  refine (checkTxInputsAndRefs_spreads (.refl h.labels) t hb).bind fun r h₁ => ?_
  obtain ⟨s₁, valid⟩ := r
  dsimp only at h₁ ⊢
  have hb₁ : Labelled s₁ b t.proof.pos.block := hb.spreads h₁
  split_ifs
  · exact h.trans h₁
  · split
    · exact complainMisorder_spreads (h.trans h₁) t hb₁ _
    · have h₂ : Spreads s (putProofInShard s₁ b t.proof) := putProofInShard_spreads h₁ t.proof hb₁
      exact putTxInShard_spreads (h.trans h₂) (h₂.numBlocks hb.1) source _ _

theorem recvTxInBlock_spreads (h : Spreads s₀ s) (peer : Option Peer) (t : ProvenTx D) :
    Keeps (recvTxInBlock E s peer t) fun r => Spreads s₀ r.1 := by
  unfold recvTxInBlock
  dsimp only
  split
  · show Spreads s₀ (if _ then _ else _)
    split_ifs
    · exact h.emit rfl
    · exact h
  · rename_i b hfind
    split_ifs
    · exact h
    · exact h
    · exact h
    · exact h
    · exact (recvProvenTx_spreads h _ t (labelled_of_find hfind)).bind fun _ hs => hs

theorem resolveHashesOf_spreads (source : Option Nat) (elems : List (TxhashElem D))
    (h : Spreads s₀ s)
    (helems : ∀ te ∈ elems, ∀ b i j : Nat, te.loc = .inBlock b i j → b < s.numBlocks) :
    Keeps (resolveHashesOf E source elems s) (Spreads s₀) := by
  induction elems generalizing s with
  | nil => exact h
  | cons te rest ih =>
    have hrest : ∀ te ∈ rest, ∀ b i j : Nat, te.loc = .inBlock b i j → b < s.numBlocks :=
      fun te hte => helems te (List.mem_cons_of_mem _ hte)
    unfold resolveHashesOf
    split
    · exact ih h hrest
    · rename_i b shardnum txoff hloc
      split_ifs
      · refine (tryResolveHash_spreads (.refl h.labels)
          (helems te List.mem_cons_self b shardnum txoff hloc) source).bind fun r h₁ => ?_
        obtain ⟨s₁, resolved⟩ := r
        exact ih (h.trans h₁) fun te hte b i j hloc => h₁.numBlocks (hrest te hte b i j hloc)
      · exact ih h hrest

-- ---------------------------------------------------------------------------
-- Blocks
-- ---------------------------------------------------------------------------

variable {prev : Nat} {nb : NewBlock D}

omit [Digest D] in
/-- A hash that is not found is not the hash of any block. -/
theorem sha_ne_of_findAny (h : Labels s) {sha : D} (hfind : blockFindAny s sha = none)
    (hb : b < s.numBlocks) : (s.blk b).sha ≠ sha := by
  intro heq
  have hmem : b ∈ (List.range s.numBlocks).reverse.flatMap (blockDepth s) := by
    refine List.mem_flatMap.mpr ⟨(s.blk b).depth, ?_, ?_⟩
    · exact List.mem_reverse.mpr (List.mem_range.mpr (lt_of_le_of_lt (h.depth b hb) hb))
    · exact List.mem_filter.mpr ⟨List.mem_range.mpr hb, beq_self_eq_true _⟩
  exact List.find?_eq_none.mp hfind b hmem (beq_iff_eq.mpr heq)

omit [Digest D] [DecidableEq D] in
/-- A block with a new hash is linked in; nothing is passed on yet. -/
theorem sewBlock_spreads (h : Labels s) (hprev : prev < s.numBlocks)
    (hdepth : nb.hdr.depth = (s.blk prev).hdr.depth + 1)
    (hfresh : ∀ x : Nat, x < s.numBlocks → (s.blk x).sha ≠ nb.sha) :
    Spreads s (sewBlock s prev nb) := by
  obtain ⟨features, hblk⟩ := blk_sewBlock nb hprev
  obtain ⟨hn, htxhash, -, -⟩ := sewBlock_same s prev nb
  have hold : ∀ x : Nat, x < s.numBlocks → (sewBlock s prev nb).blk x = s.blk x :=
    fun x hx => blk_sewBlock_old hprev (Nat.ne_of_lt hx)
  have hnew : ((sewBlock s prev nb).blk s.numBlocks).sha = nb.sha := by
    rw [hblk, Function.update_self]
    rfl
  have hcases : ∀ x : Nat, x < (sewBlock s prev nb).numBlocks →
      x < s.numBlocks ∨ x = s.numBlocks := by
    intro x hx
    rw [hn] at hx
    omega
  refine ⟨.silent (fun item hs => ?_) (sewBlock_forwarded s prev nb), ⟨?_, ?_, ?_, ?_⟩,
    fun x hx => by rw [hold x hx]⟩
  · cases item with
    | block x =>
      show x < _
      rw [hn]
      exact Nat.lt_succ_of_lt hs
    | slot x i j =>
      refine ⟨by rw [hn]; exact Nat.lt_succ_of_lt hs.1, ?_⟩
      unfold State.shardOf
      rw [hold x hs.1]
      exact hs.2
    | complaint sha =>
      obtain ⟨x, hx, hsha, hsome⟩ := hs
      refine ⟨x, by rw [hn]; exact Nat.lt_succ_of_lt hx, ?_, ?_⟩
      · rw [hold x hx]
        exact hsha
      · rw [hold x hx]
        exact hsome
    | tx tx => exact hs
  · intro x y hx hy hxy
    rcases hcases x hx with hx | rfl
    · rcases hcases y hy with hy | rfl
      · rw [hold x hx, hold y hy] at hxy
        exact h.distinct x y hx hy hxy
      · rw [hold x hx, hnew] at hxy
        exact absurd hxy (hfresh x hx)
    · rcases hcases y hy with hy | rfl
      · rw [hold y hy, hnew] at hxy
        exact absurd hxy.symm (hfresh y hy)
      · rfl
  · intro x i j p hp
    unfold State.shardOf at hp
    by_cases hx : x = s.numBlocks
    · subst hx
      rw [hblk, Function.update_self] at hp
      exact absurd hp (by simp [newBlock, newBlockShard])
    · rw [blk_sewBlock_old hprev hx] at hp ⊢
      exact h.proofs x i j p hp
  · intro te hte x i j hloc
    rw [htxhash] at hte
    rw [hn]
    exact Nat.lt_succ_of_lt (h.placed te hte x i j hloc)
  · intro x hx
    rcases hcases x hx with hx | rfl
    · rw [hold x hx]
      exact h.depth x hx
    · rw [hblk, Function.update_self]
      show nb.hdr.depth.toNat ≤ s.numBlocks
      have hle : (s.blk prev).hdr.depth.toNat ≤ prev := h.depth prev hprev
      have hwrap : nb.hdr.depth.toNat ≤ (s.blk prev).hdr.depth.toNat + 1 := by
        rw [hdepth, UInt32.toNat_add]
        exact Nat.mod_le _ _
      omega

/-- After `block_add` the block is there, and nothing has been passed on yet. -/
theorem blockAdd_spreads (E : Env D) (h : Labels s) (hadd : Addable s prev nb) :
    Keeps (blockAdd s prev nb) fun r =>
      Spreads s r.1 ∧ r.1.forwarded = s.forwarded ∧ ¬ Stored s (.block r.2) ∧
        Stored r.1 (.block r.2) := by
  refine keeps_of_ok fun r hr => ?_
  have hsilent := (blockAdd_forwarded s prev nb).of_ok hr
  unfold blockAdd at hr
  obtain ⟨-, -, hr⟩ := of_bind_eq_ok hr
  obtain rfl := Except.ok.inj hr
  have hsew : Spreads s (sewBlock s prev nb) :=
    sewBlock_spreads h hadd.prev_lt hadd.depth fun x hx => sha_ne_of_findAny h hadd.fresh hx
  have hheads : Spreads (sewBlock s prev nb) (blockAddHeads s prev nb) := by
    have hrest : (blockAddHeads s prev nb).forwarded = (sewBlock s prev nb).forwarded :=
      hsilent.trans (sewBlock_forwarded s prev nb).symm
    exact (Spreads.refl hsew.labels).frame
      ((Frame.refl E _).quiet (blockAddHeads_quiet s prev nb)) hrest
  have hthere : Stored (sewBlock s prev nb) (.block s.numBlocks) := by
    show s.numBlocks < _
    rw [(sewBlock_same s prev nb).1]
    exact Nat.lt_succ_self _
  exact ⟨hsew.trans hheads, hsilent, fun hs => Nat.lt_irrefl _ hs, hheads.keeps _ hthere⟩

omit [Digest D] [DecidableEq D] in
/-- Asking for shards passes nothing on. -/
theorem Spreads.ask {α : Type} {f : State D → α → State D} {l : List α} (h : Spreads s₀ s)
    (hf : ∀ (s : State D) (a : α), f s a = s ∨ ∃ e, e.item = none ∧ f s a = s.emit e) :
    Spreads s₀ (l.foldl f s) := by
  induction l generalizing s with
  | nil => exact h
  | cons a l ih =>
    rw [List.foldl_cons]
    refine ih ?_
    rcases hf s a with heq | ⟨e, he, heq⟩
    · rw [heq]
      exact h
    · rw [heq]
      exact h.emit he

omit [Digest D] [DecidableEq D] in
theorem syncBlockContents_spreads (h : Spreads s₀ s) (b : Nat) :
    Spreads s₀ (syncBlockContents s b) := by
  refine h.ask fun s shard => ?_
  split_ifs
  · exact .inl rfl
  · exact .inr ⟨_, rfl, rfl⟩
  · exact .inr ⟨_, rfl, rfl⟩

omit [Digest D] [DecidableEq D] in
theorem askBlockContents_spreads (h : Spreads s₀ s) (b : Nat) :
    Spreads s₀ (askBlockContents s b) := by
  refine h.ask fun s shard => ?_
  split_ifs
  · exact .inl rfl
  · exact .inr ⟨_, rfl, rfl⟩
  · exact .inl rfl

omit [Digest D] [DecidableEq D] in
/-- A new block is taken into stock, and passed on. -/
theorem Spreads.announce {item : Item D} {e : Event D} (h : Spreads s₀ s) (he : e.item = some item)
    (hsilent : s.forwarded = s₀.forwarded) (hnew : ¬ Stored s₀ item) (hthere : Stored s item) :
    Spreads s₀ (s.emit e) := by
  refine ⟨.announce h.keeps hsilent hnew hthere (.refl s) (fun item hs => ?_) (forwarded_tell he),
    ⟨h.labels.distinct, h.labels.proofs, h.labels.placed, h.labels.depth⟩, h.sha⟩
  cases item with
  | block b => exact hs
  | slot b i j => exact hs
  | complaint sha => exact hs
  | tx tx => exact hs

omit [DecidableEq D] in
/-- **A block is passed on when it is added.** -/
theorem announceBlock_spreads (C : Crypto D) (peer : Option Peer) (h : Spreads s₀ s)
    (hsilent : s.forwarded = s₀.forwarded) (hnew : ¬ Stored s₀ (.block b))
    (hthere : Stored s (.block b)) : Keeps (announceBlock C s peer b) (Spreads s₀) := by
  unfold announceBlock
  refine (keeps_any _).bind fun good _ => ?_
  split_ifs
  · exact h
  · split
    · exact h.announce rfl hsilent hnew hthere
    · rename_i peer
      split_ifs
      · exact syncBlockContents_spreads (h.emit rfl) b
      · exact askBlockContents_spreads (h.announce rfl hsilent hnew hthere) b

theorem recvBlock_spreads (h : Spreads s₀ s) (peer : Option Peer) (p : BlockParts D) :
    Keeps (recvBlock E.crypto s peer p) fun r => Spreads s₀ r.1 := by
  unfold recvBlock
  refine Ensures.bind (P := fun r => checkBlockHeader E.crypto s p = .ok r)
    (keeps_of_ok fun _ hr => hr) fun r hcheck => ?_
  split
  · rename_i prev
    have hok := headerOk_of_ok hcheck
    unfold recvGoodBlock
    split_ifs
    · exact h
    · split
      · exact tellComplaint_spreads h peer _
      · rename_i hnew
        refine (blockAdd_spreads E h.labels (hok.addable hnew)).bind fun r hr => ?_
        obtain ⟨s₁, b⟩ := r
        obtain ⟨h₁, hsilent, hfresh, hthere⟩ := hr
        refine (announceBlock_spreads E.crypto peer h₁ hsilent hfresh hthere).bind fun s₂ h₂ => ?_
        exact tellComplaint_spreads (h.trans h₂) peer b
  · split_ifs
    · exact h
    · unfold seekPredecessor
      refine Ensures.bind (P := Spreads s₀) ?_ fun s₁ h₁ => h₁
      refine (keeps_any _).bind fun enough _ => ?_
      simp only [ensures_ok]
      split_ifs
      · exact h.emit rfl
      · exact h
    · exact h

theorem recvBlockFromPeer_spreads (h : Spreads s₀ s) (peer : Peer) (p : BlockParts D) :
    Keeps (recvBlockFromPeer E.crypto s peer p) fun r => Spreads s₀ r.1 := by
  unfold recvBlockFromPeer
  exact (recvBlock_spreads h _ p).bind fun r hr => (keeps_any _).bind fun _ _ => hr

theorem recvShards_spreads (pkts : List (PktShard D)) (n : Nat) (h : Spreads s₀ s) :
    Keeps (recvShards E b pkts n s) fun r => Spreads s₀ r.1 := by
  induction pkts generalizing n s with
  | nil => exact h
  | cons pkt rest ih =>
    unfold recvShards
    split_ifs
    · exact ih _ h
    · refine (recvShard_spreads h none pkt).bind fun r hr => ?_
      obtain ⟨s₁, e⟩ := r
      dsimp only at hr ⊢
      split_ifs
      · exact hr
      · exact ih _ hr

theorem recheckPendingTxs_spreads (h : Spreads s₀ s) :
    Keeps (recheckPendingTxs E s) (Spreads s₀) :=
  h.silent (recheckPendingTxs_frame (.refl E s)) (recheckPendingTxs_forwarded E s)

theorem recvBlockFromGenerator_spreads (h : Spreads s₀ s) (p : BlockParts D)
    (shards : List (PktShard D)) :
    Keeps (recvBlockFromGenerator E s p shards) fun r => Spreads s₀ r.1 := by
  unfold recvBlockFromGenerator
  refine (recvBlock_spreads h none p).bind fun r hr => ?_
  obtain ⟨s₁, e, b⟩ := r
  dsimp only at hr ⊢
  split_ifs
  · exact hr
  · refine (keeps_any _).bind fun b _ => ?_
    refine (recvShards_spreads shards 0 hr).bind fun r hr => ?_
    obtain ⟨s₂, good⟩ := r
    dsimp only at hr ⊢
    split_ifs
    · exact hr
    · exact (recheckPendingTxs_spreads hr).bind fun _ h => h

-- ---------------------------------------------------------------------------
-- Received complaints
-- ---------------------------------------------------------------------------

/-- A complaint is published about the block of this hash. -/
def Verdict.Names (s : State D) (sha : D) (verdict : Verdict D) : Prop :=
  ∀ b : Nat, verdict = .publish b → Labelled s b sha

omit [Digest D] [DecidableEq D] in
theorem names_refuse {sha : D} (e : Ecode) : (Verdict.refuse e : Verdict D).Names s sha :=
  fun _ h => absurd h (by simp)

theorem labelled_of_proven {C : Crypto D} {t : ProvenTx D} (h : provenTxBlock C s t = .ok b) :
    Labelled s b t.proof.pos.block :=
  labelled_of_find (provenTxBlock_ok h).1

theorem names_publish {C : Crypto D} {t : ProvenTx D} (h : provenTxBlock C s t = .ok b) :
    (Verdict.publish b : Verdict D).Names s t.proof.pos.block := by
  intro b' hb'
  injection hb' with hb'
  exact hb' ▸ labelled_of_proven h

theorem withBlock_names {C : Crypto D} {t : ProvenTx D} {sha : D} {next : BlockId → Verdict D}
    (h : ∀ b : Nat, provenTxBlock C s t = .ok b → (next b).Names s sha) :
    (withBlock t (provenTxBlock C s t) next).Names s sha := by
  intro b hb
  obtain ⟨b', hok, hnext⟩ := withBlock_eq_publish.mp hb
  exact h b' hok b hnext

theorem complainTxMisorder_names (t1 t2 : ProvenTx D) :
    (complainTxMisorderVerdict E t1 t2 (provenTxBlock E.crypto s t1)
      (provenTxBlock E.crypto s t2)).Names s t1.proof.pos.block := by
  unfold complainTxMisorderVerdict
  refine withBlock_names fun b1 _ => ?_
  split
  · exact names_refuse _
  · rename_i b2 h2
    dsimp only
    -- it publishes about the other one's block, which is the same
    split_ifs with hblock
    · exact names_refuse _
    · exact names_refuse _
    · exact names_refuse _
    · rw [not_not.mp hblock]
      exact names_publish h2
    · exact names_refuse _
    · rw [not_not.mp hblock]
      exact names_publish h2
    · exact names_refuse _

theorem complainTxInvalid_names (C : Crypto D) (error : Ecode) (proof : Proof D) (tx : TxBlob D)
    (refs : List UInt8) :
    (complainTxInvalidVerdict C s error proof tx refs).Names s proof.pos.block := by
  unfold complainTxInvalidVerdict
  split
  · exact fun _ h => absurd h (by simp)
  · rename_i b hfind
    dsimp only
    split_ifs
    · exact names_refuse _
    · exact names_refuse _
    · exact names_refuse _
    · exact names_refuse _
    · intro b' hb'
      injection hb' with hb'
      exact hb' ▸ labelled_of_find hfind

theorem complainTxBadInput_names (inputnum : Nat) (t : ProvenTx D) (inTx : Tx D) :
    (complainTxBadInputVerdict E s inputnum t inTx (provenTxBlock E.crypto s t)).Names s
      t.proof.pos.block := by
  unfold complainTxBadInputVerdict
  refine withBlock_names fun b h => ?_
  split
  · split
    · exact names_refuse _
    · exact names_refuse _
    · exact names_publish h
  · exact names_refuse _

theorem complainTxBadAmount_names (t : ProvenTx D) (inputs : List (Tx D)) :
    (complainTxBadAmountVerdict E s t inputs (provenTxBlock E.crypto s t)).Names s
      t.proof.pos.block := by
  unfold complainTxBadAmountVerdict
  refine withBlock_names fun b h => ?_
  split
  · exact names_publish h
  · exact names_refuse _

theorem complainDoublespend_names (C : Crypto D) (input1 input2 : Nat) (t1 t2 : ProvenTx D) :
    (complainDoublespendVerdict s input1 input2 t1 t2 (provenTxBlock C s t1)
      (provenTxBlock C s t2)).Names s t2.proof.pos.block := by
  unfold complainDoublespendVerdict
  refine withBlock_names fun b1 _ => ?_
  split
  · exact names_refuse _
  · refine withBlock_names fun b2 h2 => ?_
    split
    · exact names_refuse _
    · split_ifs
      · exact names_refuse _
      · exact names_refuse _
      · exact names_publish h2

theorem complainBadInputRef_names (C : Crypto D) (inputnum : Nat) (t input : ProvenTx D) :
    (complainBadInputRefVerdict C s inputnum t input (provenTxBlock C s t)
      (provenTxBlock C s input)).Names s t.proof.pos.block := by
  unfold complainBadInputRefVerdict
  refine withBlock_names fun b h => ?_
  split
  · refine withBlock_names fun b2 _ => ?_
    split_ifs
    all_goals first
      | exact names_refuse _
      | exact names_publish h
  · exact names_refuse _

theorem complainClaim_names (C : Crypto D) (claim reward : ProvenTx D) :
    Keeps (complainClaimVerdict C s claim reward (provenTxBlock C s claim)
      (provenTxBlock C s reward)) (Verdict.Names s claim.proof.pos.block) := by
  unfold complainClaimVerdict
  split
  · rename_i claimB rewardB hclaim hreward
    split
    · split_ifs
      · exact names_refuse _
      · refine (keeps_any _).bind fun valid _ => ?_
        show Verdict.Names s _ _
        split_ifs
        · exact names_refuse _
        · exact names_publish hclaim
    · exact names_refuse _
  · exact withBlock_names fun _ _ => names_refuse _
  · exact withBlock_names fun _ _ => names_refuse _

theorem runVerdict_spreads (h : Spreads s₀ s) (peer : Peer) {complaint : Complaint D}
    {verdict : Verdict D} (hv : verdict.Names s complaint.block) :
    Keeps (runVerdict E s peer complaint verdict) fun r => Spreads s₀ r.1 := by
  cases verdict with
  | refuse e => exact h
  | askFor block => exact h.emit rfl
  | publish b => exact (publishComplaint_spreads h _ (hv b rfl) _).bind fun _ hs => hs

-- ---------------------------------------------------------------------------
-- Reports about transactions
-- ---------------------------------------------------------------------------

theorem dropPendingTx_spreads (h : Spreads s₀ s) (tx : Tx D) :
    Keeps (dropPendingTx E s tx) (Spreads s₀) :=
  h.silent (dropPendingTx_frame (.refl E s) tx) (dropPendingTx_forwarded E s tx)

theorem complainInBlocks_spreads {C : Crypto D}
    {complain : State D → BlockId → ProvenTx D → Res (State D)}
    (hc : ∀ (s : State D) (b : Nat) (t : ProvenTx D), Spreads s₀ s →
      Labelled s b t.proof.pos.block → Keeps (complain s b t) (Spreads s₀))
    (tx : Tx D) (elems : List (TxhashElem D)) (h : Spreads s₀ s) :
    Keeps (complainInBlocks C complain tx elems s) (Spreads s₀) := by
  induction elems generalizing s with
  | nil => exact h
  | cons te rest ih =>
    rw [complainInBlocks]
    split
    · exact ih h
    · rename_i b i j hloc
      split_ifs with hthere
      · refine Ensures.bind (keeps_of_ok fun proof hp => createProof_block h.labels hp)
          fun proof hproof => (keeps_any _).bind fun refs _ => ?_
        have hb : b < s.numBlocks := h.labels.placed te (by simpa using hthere) b i j hloc
        exact (hc s b ⟨proof, tx, refs⟩ h ⟨hb, hproof.symm⟩).bind fun s₁ h₁ => ih h₁
      · exact ih h

theorem recvTxBadInput_spreads (h : Spreads s₀ s) (inputnum : Nat) (tx inTx : Tx D) :
    Keeps (recvTxBadInput E s inputnum tx inTx) fun r => Spreads s₀ r.1 := by
  unfold recvTxBadInput
  dsimp only
  split_ifs
  · exact h
  · exact h
  · split
    · exact h
    · exact h
    · refine (complainInBlocks_spreads
        (fun s b t hs hb => complainBadInput_spreads hs t hb inputnum inTx) tx _ h).bind
        fun s₁ h₁ => ?_
      exact (dropPendingTx_spreads h₁ tx).bind fun _ hs => hs

theorem recvTxBadAmount_spreads (h : Spreads s₀ s) (tx : Tx D) (inputs : List (Tx D)) :
    Keeps (recvTxBadAmount E s tx inputs) fun r => Spreads s₀ r.1 := by
  unfold recvTxBadAmount
  dsimp only
  split_ifs
  · exact h
  · exact h
  · have hunset : ∀ (s : State D) (b : Nat) (t : ProvenTx D), Spreads s₀ s →
        Labelled s b t.proof.pos.block →
        Keeps (.error .uninitialised : Res (State D)) (Spreads s₀) := fun _ _ _ _ _ => trivial
    refine (complainInBlocks_spreads hunset tx _ h).bind fun s₁ h₁ => ?_
    exact (dropPendingTx_spreads h₁ tx).bind fun _ hs => hs

/-- What `complain_doublespend` gets is proven to be in the block it complains about. -/
theorem doublespendCall_labelled (h : Labels s) (C : Crypto D) (pkt : PktTxDoublespend D) :
    Keeps (doublespendCall C s pkt) fun call =>
      ∀ one two, call = some (one, two) → Labelled s two.block two.proof.pos.block := by
  unfold doublespendCall
  split
  · exact fun _ _ hcall => absurd hcall (by simp)
  · rename_i one two hnext
    obtain ⟨te, hte, hloc⟩ := (named_of_nextSpends hnext).2
    have hspend : Keeps (spendOf C s two) fun spend =>
        Labelled s spend.block spend.proof.pos.block := by
      unfold spendOf
      refine Ensures.bind (keeps_of_ok fun proof hp => createProof_block h hp) fun _ hproof => ?_
      exact ⟨h.placed te hte _ _ _ hloc, hproof.symm⟩
    refine (keeps_any _).bind fun one' _ => hspend.bind fun two' htwo => ?_
    intro one'' two'' heq
    injection heq with heq
    injection heq with _ htwos
    subst htwos
    exact htwo

theorem complainDoublespends_spreads (pkt : PktTxDoublespend D) (fuel : Nat) (h : Spreads s₀ s) :
    Keeps (complainDoublespends E pkt fuel s) (Spreads s₀) := by
  induction fuel generalizing s with
  | zero => exact trivial
  | succ fuel ih =>
    unfold complainDoublespends
    refine (doublespendCall_labelled h.labels E.crypto pkt).bind fun call hcall => ?_
    split
    · exact h
    · exact (complainDoublespend_spreads h _ _ (hcall _ _ rfl)).bind fun s₁ h₁ => ih h₁

theorem recvTxDoublespend_spreads (h : Spreads s₀ s) (pkt : PktTxDoublespend D) :
    Keeps (recvTxDoublespend E s pkt) fun r => Spreads s₀ r.1 := by
  unfold recvTxDoublespend dropBoth
  dsimp only
  split_ifs
  · exact h
  · refine Ensures.bind (P := Spreads s₀) ?_ fun s₁ h₁ => ?_
    · exact (dropPendingTx_spreads h pkt.txA).bind fun s₁ h₁ => dropPendingTx_spreads h₁ pkt.txB
    · exact (complainDoublespends_spreads pkt _ h₁).bind fun _ hs => hs

-- ---------------------------------------------------------------------------
-- Transactions by themselves
-- ---------------------------------------------------------------------------

/-- `recv_tx` does not refuse the transaction. -/
def NotRefused (E : Env D) (s : State D) (tx : Tx D) : Prop :=
  checkTx E.crypto s tx none = .none ∧
    ∃ s₁ r, addPendingTx E s tx = .ok (s₁, r) ∧ (r.ierr = .ok ∨ r.ierr = .unknown)

/-- What the event makes the node pass on whether it knows it or not. -/
def PassesOn (E : Env D) (s : State D) (event : NodeEvent D) (tx : Tx D) : Prop :=
  ∃ peer, event = .packet peer (.tx tx) ∧ NotRefused E s tx

/-- From `s` to `s'` the items passed on are new, apart from one transaction by itself. -/
structure Tells (P : Tx D → Prop) (s s' : State D) : Prop where
  keeps : ∀ item, Stored s item → Stored s' item
  labels : Labels s'
  told : ∃ new, s'.forwarded = s.forwarded ++ new ∧ new.Nodup ∧
    (∀ item ∈ new, (¬ Stored s item ∧ Stored s' item) ∨ ∃ tx, item = .tx tx ∧ P tx) ∧
    ∀ tx, P tx → Item.tx tx ∈ new

omit [Digest D] [DecidableEq D] in
/-- Without such a transaction. -/
theorem Spreads.tells {P : Tx D → Prop} (h : Spreads s s') (hP : ∀ tx, ¬ P tx) :
    Tells P s s' := by
  obtain ⟨new, hlog, hnodup, hnew⟩ := h.told
  exact ⟨h.keeps, h.labels, new, hlog, hnodup, fun item hitem => .inl (hnew item hitem),
    fun tx htx => absurd htx (hP tx)⟩

omit [Digest D] [DecidableEq D] in
/-- With it. -/
theorem Spreads.tells_tx {P : Tx D → Prop} {tx : Tx D} {exclude : Nat} (h : Spreads s s')
    (hP : ∀ tx', P tx' ↔ tx' = tx) : Tells P s (s'.emit (.sendTxToPeers (some exclude) tx)) := by
  obtain ⟨new, hlog, hnodup, hnew⟩ := h.told
  have hsame : ∀ item, Stored s' item → Stored (s'.emit (.sendTxToPeers (some exclude) tx)) item := by
    intro item hs
    cases item with
    | block b => exact hs
    | slot b i j => exact hs
    | complaint sha => exact hs
    | tx tx => exact hs
  refine ⟨fun item hs => hsame item (h.keeps item hs),
    ⟨h.labels.distinct, h.labels.proofs, h.labels.placed, h.labels.depth⟩, new ++ [.tx tx], ?_, ?_,
    fun item hitem => ?_, fun tx' htx' => ?_⟩
  · rw [forwarded_tell rfl, hlog, List.append_assoc]
  · refine hnodup.append (List.nodup_singleton _) fun item hitem hlast => ?_
    obtain rfl := List.mem_singleton.mp hlast
    exact (hnew _ hitem).2
  · rcases List.mem_append.mp hitem with hold | hlast
    · exact .inl ⟨(hnew item hold).1, hsame item (hnew item hold).2⟩
    · exact .inr ⟨tx, List.mem_singleton.mp hlast, (hP tx).mpr rfl⟩
  · obtain rfl := (hP tx').mp htx'
    exact List.mem_append.mpr (.inr (List.mem_singleton.mpr rfl))

omit [DecidableEq D] in
/-- A call after it that passes nothing on. -/
theorem Tells.frame {P : Tx D → Prop} {s₁ : State D} (h : Tells P s s₁) (hf : Frame E s₁ s')
    (hsilent : s'.forwarded = s₁.forwarded) : Tells P s s' := by
  obtain ⟨new, hlog, hnodup, hnew, hP⟩ := h.told
  refine ⟨fun item hs => stored_of_frame hf (h.keeps item hs), h.labels.frame hf, new,
    hsilent.trans hlog, hnodup, fun item hitem => ?_, hP⟩
  exact (hnew item hitem).imp_left fun hfresh => ⟨hfresh.1, stored_of_frame hf hfresh.2⟩

theorem addPendingTx_spreads (h : Labels s) {tx : Tx D}
    (hcheck : checkTx E.crypto s tx none = .none) :
    Keeps (addPendingTx E s tx) fun r => Spreads s r.1 :=
  keeps_of_ok fun _ hr => (Spreads.refl h).frame
    ((addPendingTx_frame (.refl E s) (.inr (txOk_of_checkTx_none hcheck))).of_ok hr)
    ((addPendingTx_forwarded E s tx).of_ok hr)

theorem recvPendingTx_told (h : Spreads s₀ s) (peer : Peer) (tx : Tx D) :
    Keeps (recvPendingTx E s peer tx) fun s' =>
      ∃ s₁, Spreads s₀ s₁ ∧ s' = s₁.emit (.sendTxToPeers (some peer.id) tx) := by
  unfold recvPendingTx
  refine (resolveHashesOf_spreads _ _ h fun te hte b i j hloc => ?_).bind
    fun s₁ h₁ => ⟨s₁, h₁, rfl⟩
  exact h.labels.placed te (List.mem_filter.mp hte).1 b i j hloc

/-- **A transaction by itself is passed on unless it is refused.** -/
theorem recvTx_told (h : Labels s) (peer : Peer) (tx : Tx D) :
    Keeps (recvTx E s peer tx) fun r =>
      Tells (fun tx' => tx' = tx ∧ NotRefused E s tx) s r.1 := by
  unfold recvTx
  dsimp only
  split_ifs with hcheck
  · exact (Spreads.refl h).tells fun _ htx => hcheck htx.2.1
  · rw [not_not] at hcheck
    refine Ensures.bind (P := fun r => addPendingTx E s tx = .ok r) (keeps_of_ok fun _ hr => hr)
      fun r hr => ?_
    have h₁ := (addPendingTx_spreads h hcheck).of_ok hr
    obtain ⟨s₁, r⟩ := r
    dsimp only at h₁ ⊢
    have hpassed : ∀ s₂, Spreads s s₂ → (r.ierr = .ok ∨ r.ierr = .unknown) →
        Keeps (do
          let s₃ ← recvPendingTx E s₂ peer tx
          Except.ok (s₃, Ecode.none)) fun r =>
            Tells (fun tx' => tx' = tx ∧ NotRefused E s tx) s r.1 := by
      intro s₂ h₂ hierr
      refine (recvPendingTx_told h₂ peer tx).bind fun s₃ hs₃ => ?_
      obtain ⟨s₄, h₄, rfl⟩ := hs₃
      exact h₄.tells_tx fun tx' => and_iff_left ⟨hcheck, s₁, r, hr, hierr⟩
    have hrefused : ∀ s₂, Spreads s s₂ → ¬ (r.ierr = .ok ∨ r.ierr = .unknown) →
        Tells (fun tx' => tx' = tx ∧ NotRefused E s tx) s s₂ := by
      intro s₂ h₂ hne
      refine h₂.tells fun tx' htx' => hne ?_
      obtain ⟨s₃, r', hr', hierr⟩ := htx'.2.2
      obtain ⟨-, rfl⟩ := Prod.mk.inj (Except.ok.inj (hr.symm.trans hr'))
      exact hierr
    split
    · rename_i hierr
      exact hpassed s₁ h₁ (.inl hierr)
    · rename_i hierr
      refine (keeps_any _).bind fun inp _ => ?_
      split_ifs
      · exact hpassed _ (h₁.emit rfl) (.inr hierr)
      · exact hpassed s₁ h₁ (.inr hierr)
    · rename_i hierr
      have hne : ¬ (r.ierr = .ok ∨ r.ierr = .unknown) := by simp [hierr]
      split_ifs
      · exact hrefused s₁ h₁ hne
      · unfold tellPeerAboutBadInput
        refine Ensures.bind (P := fun s₂ => Tells _ s s₂) ?_ fun _ h => h
        exact (keeps_any _).bind fun _ _ => (keeps_any _).bind fun _ _ =>
          hrefused _ (h₁.emit rfl) hne
    · rename_i hierr
      have hne : ¬ (r.ierr = .ok ∨ r.ierr = .unknown) := by simp [hierr]
      unfold tellPeerAboutBadAmount
      refine Ensures.bind (P := fun s₂ => Tells _ s s₂) ?_ fun _ h => h
      exact (keeps_any _).bind fun _ _ => hrefused _ (h₁.emit rfl) hne
    · rename_i hierr
      have hne : ¬ (r.ierr = .ok ∨ r.ierr = .unknown) := by simp [hierr]
      unfold tellPeerAboutDoublespend
      refine Ensures.bind (P := fun s₂ => Tells _ s s₂) ?_ fun _ h => h
      refine (keeps_any _).bind fun _ _ => (keeps_any _).bind fun pos _ => ?_
      obtain ⟨y, i, j⟩ := pos
      refine (keeps_any _).bind fun _ _ => ?_
      split
      · trivial
      · exact hrefused _ (h₁.emit rfl) hne
    · rename_i hierr
      have hne : ¬ (r.ierr = .ok ∨ r.ierr = .unknown) := by simp [hierr]
      refine (keeps_any _).bind fun inp _ => ?_
      unfold sendClaimInput
      refine Ensures.bind (P := fun s₂ => Tells _ s s₂) ?_ fun _ h => h
      refine (keeps_any _).bind fun pos _ => ?_
      obtain ⟨y, i, j⟩ := pos
      exact (keeps_any _).bind fun _ _ => hrefused _ (h₁.emit rfl) hne

-- ---------------------------------------------------------------------------
-- The node
-- ---------------------------------------------------------------------------

theorem recvPacket_told (h : Labels s) (peer : Peer) (pkt : Packet D) :
    Keeps (recvPacket E s peer pkt) fun r =>
      Tells (PassesOn E s (.packet peer pkt)) s r.1 := by
  have hrefl : Spreads s s := .refl h
  have hother : (∀ tx, pkt ≠ .tx tx) → ∀ {x : Res (State D × Ecode)},
      Keeps x (fun r => Spreads s r.1) →
        Keeps x fun r => Tells (PassesOn E s (.packet peer pkt)) s r.1 := by
    intro hne x hx
    refine hx.mono fun r hr => hr.tells ?_
    rintro tx ⟨peer', heq, -⟩
    injection heq with _ hpkt
    exact hne tx hpkt
  unfold recvPacket
  dsimp only
  cases pkt with
  | tx tx =>
    refine (recvTx_told h peer tx).mono fun r hr => ?_
    have hP : (PassesOn E s (.packet peer (.tx tx))) = fun tx' => tx' = tx ∧ NotRefused E s tx := by
      funext tx'
      refine propext ⟨?_, ?_⟩
      · rintro ⟨peer', heq, hpass⟩
        injection heq with _ hpkt
        injection hpkt with htx
        exact ⟨htx.symm, htx ▸ hpass⟩
      · rintro ⟨rfl, hpass⟩
        exact ⟨peer, rfl, hpass⟩
    rw [hP]
    exact hr
  | block p => exact hother (by simp) (recvBlockFromPeer_spreads hrefl peer p)
  | hashesInBlock pkt => exact hother (by simp) (recvHashesInBlock_spreads hrefl peer pkt)
  | shard pkt => exact hother (by simp) (recvShard_spreads hrefl (some peer) pkt)
  | txInBlock t => exact hother (by simp) (recvTxInBlock_spreads hrefl (some peer) t)
  | txBadInput inputnum tx inTx =>
    exact hother (by simp) (recvTxBadInput_spreads hrefl inputnum tx inTx)
  | txBadAmount tx inputs => exact hother (by simp) (recvTxBadAmount_spreads hrefl tx inputs)
  | txDoublespend pkt => exact hother (by simp) (recvTxDoublespend_spreads hrefl pkt)
  | complainTxMisorder t1 t2 =>
    exact hother (by simp) (runVerdict_spreads hrefl peer (complainTxMisorder_names t1 t2))
  | complainTxInvalid error proof tx refs =>
    have hblock : (invalidTxComplaint error proof tx).block = proof.pos.block := by
      unfold invalidTxComplaint
      split <;> rfl
    refine hother (by simp) (runVerdict_spreads hrefl peer ?_)
    rw [hblock]
    exact complainTxInvalid_names _ error proof tx refs
  | complainTxBadInput inputnum t inTx =>
    exact hother (by simp) (runVerdict_spreads hrefl peer (complainTxBadInput_names inputnum t inTx))
  | complainTxBadAmount t inputs =>
    exact hother (by simp) (runVerdict_spreads hrefl peer (complainTxBadAmount_names t inputs))
  | complainDoublespend input1 input2 t1 t2 =>
    exact hother (by simp)
      (runVerdict_spreads hrefl peer (complainDoublespend_names _ input1 input2 t1 t2))
  | complainBadInputRef inputnum t input =>
    exact hother (by simp)
      (runVerdict_spreads hrefl peer (complainBadInputRef_names _ inputnum t input))
  | complainClaimInputInvalid claim reward =>
    refine hother (by simp) ((complainClaim_names _ claim reward).bind fun verdict hv => ?_)
    exact runVerdict_spreads hrefl peer hv

/-- **What a node passes on** is new to it, apart from transactions by themselves that are not
refused. -/
theorem nodeStep_told (h : Labels s) (event : NodeEvent D) :
    Keeps (nodeStep E s event) (Tells (PassesOn E s event) s) := by
  have hother : (∀ peer tx, event ≠ .packet peer (.tx tx)) → ∀ {x : Res (State D)},
      Keeps x (Spreads s) → Keeps x (Tells (PassesOn E s event) s) := by
    intro hne x hx
    refine hx.mono fun r hr => hr.tells ?_
    rintro tx ⟨peer, heq, -⟩
    exact hne peer tx heq
  cases event with
  | packet peer pkt =>
    refine Ensures.bind (P := fun r => Tells (PassesOn E s (.packet peer pkt)) s r.1) ?_
      fun r hr => by cases r; exact hr
    unfold pktIn
    refine (recvPacket_told h peer pkt).bind fun r hr => ?_
    obtain ⟨s₁, e⟩ := r
    dsimp only at hr ⊢
    split_ifs
    · exact hr
    · refine Ensures.bind (P := fun s₂ => Frame E s₁ s₂ ∧ s₂.forwarded = s₁.forwarded)
        (keeps_of_ok fun s₂ hs₂ => ?_) fun s₂ hs₂ => hr.frame hs₂.1 hs₂.2
      exact ⟨(recheckPendingTxs_frame (.refl E s₁)).of_ok hs₂,
        (recheckPendingTxs_forwarded E s₁).of_ok hs₂⟩
  | generator p shards =>
    exact hother (by simp)
      ((recvBlockFromGenerator_spreads (.refl h) p shards).bind fun _ hr => hr)
  | sendrawtransaction tx =>
    refine hother (by simp) (Ensures.bind (P := fun r => Spreads s r.1) ?_
      fun r hr => by cases r; exact hr)
    unfold sendrawtransaction
    split_ifs with hcheck
    · exact .refl h
    · rw [not_not] at hcheck
      refine (addPendingTx_spreads h hcheck).bind fun r h₁ => ?_
      obtain ⟨s₁, r⟩ := r
      dsimp only at h₁ ⊢
      split
      · exact h₁.emit rfl
      · exact (keeps_any _).bind fun _ _ => (h₁.emit rfl).emit rfl
      · exact h₁
  | clock now =>
    have hf : Frame E s { s with now := now } := (Frame.refl E s).congr rfl rfl rfl rfl
    exact hother (by simp) ((Spreads.refl h).frame hf rfl)

omit [Digest D] [DecidableEq D] in
/-- A node that starts has one block, and nothing in it. -/
theorem labels_start (genesis : Block D) (now : UInt32) (opts : FeeOptions)
    (hshard : ∀ i, (genesis.shard i).proof = none) (hdepth : genesis.depth = 0) :
    Labels (startNode genesis now opts) where
  distinct b c hb hc _ := (Nat.lt_one_iff.mp hb).trans (Nat.lt_one_iff.mp hc).symm
  proofs b i j p hp := by
    have hnone : ((startNode genesis now opts).shardOf b i).proof = none := hshard i
    rw [hnone] at hp
    exact absurd hp (by simp)
  placed te hte := absurd hte List.not_mem_nil
  depth b hb := by
    show genesis.depth ≤ b
    rw [hdepth]
    exact Nat.zero_le b

/-- The labels of a node are right. -/
theorem NodeReach.labels (h : NodeReach E s) : Labels s := by
  induction h with
  | start sha merkle nonce2 tailer now opts => exact labels_start _ now opts (fun _ => rfl) rfl
  | step event _ hs ih => exact ((nodeStep_told ih event).of_ok hs).labels

end Pettycoin
