import Pettycoin.DropPending
import Pettycoin.Joining
import Pettycoin.NoTrace
import Pettycoin.Retarget

/-!
# Pettycoin — a node understands the block it mined

`recv_block_from_generator`: the block joins the chain (`recvBlock_joined`), its shards come in
and every hash of theirs is resolved (`Loading.recvShards`), and what is pending is checked
again (`recheckPendingTxs_ok`).

It goes wrong at four places. `put_tx_in_shard` checks again whatever spends from a
transaction that came in, and `recheck_tx` of a transaction in a block elsewhere finds that
transaction itself to spend its input: the node then complains about a block that is fine
(`mined_block_not_understood`). An input that is in two blocks of the chain is resolved to the
one that the hash table shows first. `check_chains` does not stand a tie. And `reward_get_tx` stops
the node at a claim that is due.

* `recvBlock_joined` — the block joins;
* `recheckPendingTxs_ok` — the recheck that follows;
* `mined_block_understood` — all that is needed for it to be understood;
* `mined_block_not_understood` — a block that is not.
-/

namespace Pettycoin

open ExceptRules Forest

variable {D : Type} [Digest D] [DecidableEq D] {E : Env D} {s s₁ s₂ s₃ s' : State D} {b : Nat}
  {nb : NewBlock D} {w : WorkingBlock D}

-- ---------------------------------------------------------------------------
-- The header
-- ---------------------------------------------------------------------------

omit [Digest D] [DecidableEq D] in
/-- The blocks that were there have the chains they had. -/
theorem Joined.sameChains (h : Joined s s₁ nb b) :
    SameChains (fun x' x => x' = x ∧ x ≠ b) s₁ s where
  prevSome := by
    rintro x' x p ⟨rfl, hx⟩ hp
    refine ⟨p, ?_, rfl, ?_⟩
    · rw [h.old _ hx] at hp
      exact hp
    · rintro rfl
      exact h.leaf x' hp
  prevNone := by
    rintro x' x ⟨rfl, hx⟩ hp
    rw [h.old _ hx] at hp
    exact hp
  shardOrder := by
    rintro x' x ⟨rfl, hx⟩
    rw [h.old _ hx]
  part := by
    rintro x' x ⟨rfl, hx⟩ i
    unfold State.shardOf
    rw [h.old _ hx]
    exact ⟨rfl, fun _ _ _ => id⟩

/-- **`recv_block` of a block on the head**, when there is no tie. -/
theorem recvBlock_joined (hreach : NodeReach E s) (hroom : s.numBlocks < depthLimit)
    {p : BlockParts D}
    (hheader : checkBlockHeader E.crypto s p = .ok (.none, some (knownHead s)))
    (hnum : p.hdr.numPrevTxhashes.toNat = numPrevTxhashes s (knownHead s))
    (hnew : blockFindAny s (hashBlock E.crypto p) = none)
    (htie : ¬ AddTie s (knownHead s) (p.toNewBlock E.crypto)) :
    ∃ s₁ s₂, Joined s s₁ (p.toNewBlock E.crypto) s.numBlocks ∧ LedgerOk E s₁ ∧ Noted s₁ s₂ ∧
      recvBlock E.crypto s none p = .ok (s₂, .none, some s.numBlocks) := by
  have hadd := (headerOk_of_ok hheader).addable hnew
  have hsound := (nodeOk_of_nodeReach hreach).chain hroom.le
  have hadmitted := hsound.admitted hadd hroom
  have hjoined := joined_blockAddHeads hsound.toChainInv hadmitted
  have hchains : checkChains (blockAddHeads s (knownHead s) (p.toNewBlock E.crypto)) = .ok () :=
    (checkChains_iff (addBlock_inv hsound.toChainInv hadmitted)).mpr fun htie' =>
      htie ((earlierTie_blockAddHeads_iff hsound.toChainInv hadmitted).mp htie')
  have hblockAdd : blockAdd s (knownHead s) (p.toNewBlock E.crypto)
      = .ok (blockAddHeads s (knownHead s) (p.toNewBlock E.crypto), s.numBlocks) := by
    unfold blockAdd
    dsimp only
    rw [hchains]
    rfl
  have hledger := ((blockAdd_advanced (ledgerOk_of_nodeReach hreach).advanced
    (p.toNewBlock E.crypto) hadd.prev_lt hadd.shardOrder).of_ok hblockAdd).1.ledger
  generalize blockAddHeads s (knownHead s) (p.toNewBlock E.crypto) = s₁ at hjoined hblockAdd hledger
  obtain ⟨s₂, hs₂, hnoted⟩ : ∃ s₂, announceBlock E.crypto s₁ none s.numBlocks = .ok s₂ ∧
      Noted s₁ s₂ := by
    have hsame := hjoined.sameChains
    have hlt : knownHead s ≠ s.numBlocks := Nat.ne_of_lt hadd.prev_lt
    obtain ⟨good, hgood⟩ := checkPrevTxhashesFrom_ok E.crypto s.numBlocks
      (prevTxhashBlocks s₁ protocolPrevBlockTxhashes (some (knownHead s))) 0 (s := s₁) (by
        rw [Nat.zero_add, hsame.offAfter_eq (hsame.visits ⟨rfl, hlt⟩ protocolPrevBlockTxhashes),
          hjoined.hdr]
        exact hnum.symm)
    unfold announceBlock checkPrevTxhashes
    rw [hjoined.prev, hgood]
    cases good with
    | false => exact ⟨s₁, rfl, .refl _⟩
    | true => exact ⟨_, rfl, noted_emit _ _⟩
  refine ⟨s₁, s₂, hjoined, hledger, hnoted, ?_⟩
  unfold recvBlock
  rw [hheader]
  show recvGoodBlock E.crypto s none p (knownHead s) = _
  unfold recvGoodBlock
  rw [if_neg (not_not.mpr hnum), hnew]
  dsimp only
  rw [hblockAdd]
  show (announceBlock E.crypto s₁ none s.numBlocks >>= _) = _
  rw [hs₂]
  rfl

-- ---------------------------------------------------------------------------
-- The shards
-- ---------------------------------------------------------------------------

/-- The generator was given the hashes of what is pending, and solved a block on the head of the
longest knowns that passes the checks of its header. -/
structure MinedOn (E : Env D) (s : State D) (w : WorkingBlock D) : Prop where
  pending : PendingFor E s (knownHead s) 1
  solved : ∃ args w₀ now, Generates E.crypto args w₀ ∧
    w₀.arrays = pendHashes E.crypto s.pending.pend ∧ w₀.solveBlock E.crypto now = .ok (w, true)
  header : checkBlockHeader E.crypto s w.parts = .ok (.none, some (knownHead s))
  prevTxhashes : w.hdr.numPrevTxhashes.toNat = numPrevTxhashes s (knownHead s)

namespace MinedOn

variable (h : MinedOn E s w)
include h

/-- The block is the one that was hashed, and has the hashes of what is pending. -/
theorem hashed : w.Hashed E.crypto ∧ w.arrays = pendHashes E.crypto s.pending.pend := by
  obtain ⟨args, w₀, now, hgen, harrays, hsolve⟩ := h.solved
  obtain ⟨hhashed, hof⟩ := WorkingBlock.hashed_of_generates hgen
  obtain ⟨-, rfl⟩ := WorkingBlock.of_solveBlock hsolve
  rw [if_pos rfl]
  exact ⟨(WorkingBlock.finishHash_ok hhashed hof).1, harrays⟩

theorem sha_eq : w.sha = hashBlock E.crypto w.parts := by
  obtain ⟨args, w₀, now, hgen, -, hsolve⟩ := h.solved
  obtain ⟨hhashed, hof⟩ := WorkingBlock.hashed_of_generates hgen
  obtain ⟨-, rfl⟩ := WorkingBlock.of_solveBlock hsolve
  rw [if_pos rfl]
  exact (WorkingBlock.hashBlock_parts (WorkingBlock.finishHash_ok hhashed hof).1).symm

theorem shardOrder : w.hdr.shardOrder = protocolInitialShardOrder :=
  (headerOk_of_ok h.header).shardOrder

theorem numShards : w.numShards = pendShards := by
  unfold WorkingBlock.numShards pendShards
  rw [h.shardOrder]

/-- It counts what is pending. -/
theorem shardNums (i : Nat) : (w.shardNums[i]?.getD 0).toNat = (s.pending.pend i).length := by
  obtain ⟨hhashed, harrays⟩ := h.hashed
  have hi : w.transHashes[i]?.getD [] = pendHashes E.crypto s.pending.pend i := congrFun harrays i
  rw [WorkingBlock.counted_of_get hhashed.counted, hi]
  exact List.length_map _

/-- Its merkles are those of what is pending. -/
theorem merkles {i : Nat} (hne : s.pending.pend i ≠ []) :
    w.merkles[i]? = some (hashesRoot E.crypto (pendHashes E.crypto s.pending.pend i)) := by
  obtain ⟨hhashed, harrays⟩ := h.hashed
  have hi : w.transHashes[i]?.getD [] = pendHashes E.crypto s.pending.pend i := congrFun harrays i
  rw [hhashed.merkles i]
  cases hget : w.transHashes[i]? with
  | none =>
    rw [hget] at hi
    exact absurd (List.map_eq_nil_iff.mp hi.symm) hne
  | some l =>
    rw [hget] at hi
    obtain rfl : l = _ := hi
    rfl

/-- The packets that `write_block` makes of its shards. -/
theorem getElem_shards {i : Nat} {pkt : PktShard D} (hpkt : w.writeBlock.2[i]? = some pkt) :
    i < pendShards ∧ pkt.shard.toNat = i ∧
      pkt.hashes = pendHashes E.crypto s.pending.pend i := by
  obtain ⟨hhashed, harrays⟩ := h.hashed
  have hi : w.transHashes[i]?.getD [] = pendHashes E.crypto s.pending.pend i := congrFun harrays i
  change ((List.range w.numShards).map _)[i]? = some pkt at hpkt
  rw [List.getElem?_map, Option.map_eq_some_iff] at hpkt
  obtain ⟨shard, hshard, rfl⟩ := hpkt
  obtain ⟨hlt, rfl⟩ := List.getElem?_eq_some_iff.mp hshard
  rw [List.length_range, h.numShards] at hlt
  rw [List.getElem_range]
  have hsmall : i < 2 ^ 16 := hlt.trans (by decide)
  refine ⟨hlt, UInt16.toNat_ofNat_of_lt' hsmall, ?_⟩
  show (w.transHashes[i]?.getD []).take (w.shardNums[i]?.getD 0).toNat = _
  rw [h.shardNums, hi]
  have hlen : (pendHashes E.crypto s.pending.pend i).length = (s.pending.pend i).length :=
    List.length_map _
  rw [← hlen, List.take_length]

theorem length_shards : w.writeBlock.2.length = pendShards := by
  show ((List.range w.numShards).map _).length = _
  rw [List.length_map, List.length_range, h.numShards]

end MinedOn

-- ---------------------------------------------------------------------------
-- A claim that is due
-- ---------------------------------------------------------------------------

/-- `reward_get_tx` does not stop the node for a claim in a block with this hash on the head: it
comes too early, or it is the block itself that decides, and a transaction is drawn. -/
def ClaimReturns (C : Crypto D) (s : State D) (sha : D) (rewardBlock : BlockId) : Prop :=
  (s.blk (knownHead s)).depth + 1 ≤ rewardEnd (s.blk rewardBlock) ∨
    (s.blk rewardBlock).depth = rewardEnd (s.blk rewardBlock) ∧
      digestNum (merkleTwoHashes C (s.blk rewardBlock).sha sha) % numTxs (s.blk rewardBlock)
        < totalTxs (s.blk rewardBlock)

/-- No pending claim stops the node. -/
def ClaimsReturn (E : Env D) (s : State D) (sha : D) : Prop :=
  ∀ t : TxClaim D, .claim t ∈ s.pending.unknownTx → ∀ y i j : Nat,
    Lies s t.input.input (knownHead s) (y, i, j) → ∀ tx, blockGetTx s y i j = some tx →
      t.input.output.toNat = numOutputs tx + 1 → ClaimReturns E.crypto s sha y

omit [Digest D] [DecidableEq D] in
/-- Where 32 bits are enough the end of the period is right. -/
theorem rewardEnd_toNat {blk : Block D} (h : blk.depth + 100 < 2 ^ 32) :
    ((blk.hdr.depth + protocolRewardPeriod - 1) / protocolRewardPeriod
      * protocolRewardPeriod).toNat = rewardEnd blk := by
  unfold rewardEnd
  unfold Block.depth at h ⊢
  rw [UInt32.toNat_mul, UInt32.toNat_div, UInt32.toNat_sub, UInt32.toNat_add,
    show protocolRewardPeriod.toNat = 100 from rfl, show (1 : UInt32).toNat = 1 from rfl]
  have hwrap : (2 ^ 32 - 1 + (blk.hdr.depth.toNat + 100) % 2 ^ 32) % 2 ^ 32
      = blk.hdr.depth.toNat + 100 - 1 := by omega
  rw [hwrap]
  exact Nat.mod_eq_of_lt (by omega)

omit [DecidableEq D] in
/-- `reward_get_tx` returns up to the end of the period, and where the claim block decides. -/
theorem rewardGetTx_returns {C : Crypto D} {y c : Nat} (hroom : (s.blk y).depth + 100 < 2 ^ 32)
    (h : (s.blk c).depth ≤ rewardEnd (s.blk y) ∨ (s.blk y).depth = rewardEnd (s.blk y) ∧
      rewardDraw C s y c % numTxs (s.blk y) < totalTxs (s.blk y)) :
    ∃ r, rewardGetTx C s y c = .ok r := by
  have hend := rewardEnd_toNat hroom
  unfold rewardGetTx
  dsimp only
  split_ifs with hempty hbefore hearly
  · exact ⟨_, rfl⟩
  · exact ⟨_, rfl⟩
  · exact ⟨_, rfl⟩
  · rw [UInt32.le_iff_toNat_le, hend] at hearly
    obtain ⟨hdepth, hdraw⟩ := h.resolve_left hearly
    have hback : ((s.blk y).hdr.depth - ((s.blk y).hdr.depth + protocolRewardPeriod - 1)
        / protocolRewardPeriod * protocolRewardPeriod).toNat = 0 := by
      have heq : (s.blk y).hdr.depth = ((s.blk y).hdr.depth + protocolRewardPeriod - 1)
          / protocolRewardPeriod * protocolRewardPeriod :=
        UInt32.toNat_inj.mp (hdepth.trans hend.symm)
      rw [← heq, UInt32.sub_self]
      rfl
    obtain ⟨k, m, hfound, -⟩ := getShardAndOff_of_lt (s.blk y) hdraw
    rw [hback]
    show ∃ r, (getShardAndOff (s.blk y) (s.blk y).numShards 0
      (rewardDraw C s y c % numTxs (s.blk y)) >>= _) = _
    unfold numTxs at hfound ⊢
    rw [hfound]
    exact ⟨_, rfl⟩

-- ---------------------------------------------------------------------------
-- The recheck
-- ---------------------------------------------------------------------------

theorem insertPendingTx_total {tx : Tx D} (hunlisted : ¬ s.pending.Lists tx) :
    ∃ r, insertPendingTx E s tx = .ok r := by
  unfold insertPendingTx
  dsimp only
  split_ifs with hfull
  · exact ⟨_, rfl⟩
  · have hnew : (findPendingInArr E (s.pending.pend (shardOfTx E.crypto E.past tx
        (nextShardOrder (s.longestKnowns.headD 0)))) tx).1 = false := by
      rw [Bool.eq_false_iff]
      exact fun hfound => hunlisted (.inl ⟨_, findPendingFrom_found hfound⟩)
    rw [hnew]
    simp only [assert, Bool.not_false, if_true, ok_bind]
    cases createRefs s (s.longestKnowns.headD 0) tx 1 with
    | none => exact ⟨_, rfl⟩
    | some refs => exact ⟨_, rfl⟩

theorem keepPendingTx_total {tx : Tx D} (hheld : ¬ HeldPending E s tx)
    (hunlisted : ¬ s.pending.Lists tx) (ierr : InputEcode) (bad : Nat) :
    ∃ r, keepPendingTx E s tx ierr bad = .ok r := by
  unfold keepPendingTx
  split_ifs
  · exact ⟨_, rfl⟩
  · obtain ⟨s', hs'⟩ := addPendingTxToHashes_ok (E := E) hheld
      (show (addToUnknownPending s tx).txhash = s.txhash from rfl)
    rw [ok_bind]
    simp [hs']
  · obtain ⟨⟨s₁, kept⟩, hins⟩ := insertPendingTx_total (E := E) hunlisted
    rw [hins, ok_bind]
    rcases insertPendingTx_lists hins with ⟨rfl, -⟩ | ⟨rfl, -, -, -, htxhash⟩
    · exact ⟨_, rfl⟩
    · obtain ⟨s', hs'⟩ := addPendingTxToHashes_ok (E := E) hheld htxhash
      simp [hs']

/-- `add_pending_tx` returns if the check of the inputs does. -/
theorem addPendingTx_total {tx : Tx D}
    (hheld : ∀ tx', s.pending.Lists tx' → HeldPending E s tx')
    (hinputs : ∃ r, checkTxInputs E s (knownHead s) none tx = .ok r) :
    ∃ r, addPendingTx E s tx = .ok r := by
  cases hknows : knowsTx E.crypto s tx with
  | true =>
    unfold addPendingTx
    dsimp only
    rcases Bool.or_eq_true_iff.mp hknows with hchain | hpending
    · rw [if_pos hchain]
      exact ⟨_, rfl⟩
    · rw [if_pos hpending]
      split_ifs <;> exact ⟨_, rfl⟩
  | false =>
    have hnot : ¬ HeldPending E s tx := by
      intro hpending
      exact absurd (Bool.or_eq_true_iff.mpr (.inr hpending)) (ne_true_of_eq_false hknows)
    obtain ⟨⟨ierr, bad⟩, hr⟩ := hinputs
    unfold knownHead at hr
    rw [addPendingTx_of_unknown hknows, hr, ok_bind]
    dsimp only
    split
    · exact keepPendingTx_total hnot (fun hl => hnot (hheld tx hl)) _ _
    · exact keepPendingTx_total hnot (fun hl => hnot (hheld tx hl)) _ _
    · exact ⟨_, rfl⟩

/-- Every transaction is added again. -/
theorem addPendingTxs_ok {txs : List (Tx D)}
    (hinputs : ∀ s', Calm s s' → ∀ tx ∈ txs,
      ∃ r, checkTxInputs E s' (knownHead s') none tx = .ok r)
    (hcalm : Calm s s₁) (hheld : ∀ tx, s₁.pending.Lists tx → HeldPending E s₁ tx) :
    ∃ s', txs.foldlM (fun s tx => addPendingTx E s tx >>= fun r => .ok r.1) s₁ = .ok s' ∧
      Calm s s' ∧ ∀ tx, s'.pending.Lists tx → HeldPending E s' tx := by
  refine foldlM_ok (P := fun s' => Calm s s' ∧ ∀ tx, s'.pending.Lists tx → HeldPending E s' tx)
    (fun s₂ tx htx hs₂ => ?_) ⟨hcalm, hheld⟩
  obtain ⟨hcalm₂, hheld₂⟩ := hs₂
  obtain ⟨⟨s', r⟩, hadd⟩ := addPendingTx_total hheld₂ (hinputs s₂ hcalm₂ tx htx)
  refine ⟨s', by rw [hadd, ok_bind], (addPendingTx_calm hcalm₂ tx).of_ok hadd, fun tx' hlists => ?_⟩
  rcases addPendingTx_cases hadd with rfl | htaken
  · exact hheld₂ tx' hlists
  · rcases (htaken.lists tx').mp hlists with rfl | hold
    · exact htaken.heldPending
    · exact (keepsPending_of_add htaken.txhash).heldPending (hheld₂ tx' hold)

/-- **`recheck_pending_txs` returns** if the checks of the inputs do, and leaves the blocks and the
heads as they were. -/
theorem recheckPendingTxs_ok (hinputs : ∀ s', Calm s s' → ∀ tx ∈ pendingTxs s.pending,
      ∃ r, checkTxInputs E s' (knownHead s') none tx = .ok r) :
    ∃ s', recheckPendingTxs E s = .ok s' ∧ Calm s s' := by
  suffices hok : ∃ s', recheckPendingTxs E s = .ok s' by
    obtain ⟨s', hs'⟩ := hok
    exact ⟨s', hs', (recheckPendingTxs_calm (.refl s)).of_ok hs'⟩
  unfold recheckPendingTxs
  dsimp only
  split_ifs
  · exact ⟨_, rfl⟩
  · exact ⟨_, rfl⟩
  · have hfreed : Calm s (freePending ((pendingTxs s.pending).foldl (removePendingTxFromHashes E)
        (s.modPending fun p => { p with needsRecheck := false }))) :=
      freePending_calm (Calm.foldl (fun _ tx _ hs => removePendingTxFromHashes_calm hs tx)
        ((Calm.refl s).modPending _))
    obtain ⟨s', hs', -⟩ := addPendingTxs_ok hinputs hfreed ((filed_newPendingBlock rfl).held rfl)
    refine ⟨s'.emit .restartGenerating, ?_⟩
    refine (congrArg (· >>= _) hs').trans ?_
    rfl

-- ---------------------------------------------------------------------------
-- What the recheck meets
-- ---------------------------------------------------------------------------

section

variable {k m : Nat → Nat} (h : Joined s s₁ nb b) (hload : Loading E s₁ b k m s₂)
  (hcalm : Calm s₂ s')
include h hload hcalm

omit [DecidableEq D] h in
/-- The blocks are those of `s₁`, but for what is known of them. -/
theorem blk_of_calm (x : Nat) :
    s'.blk x = { s₁.blk x with shard := (s₂.blk x).shard, allKnown := (s'.blk x).allKnown } := by
  rw [hcalm.blk x, hload.blk x]

omit [DecidableEq D] in
/-- Those that were there are those of `s`. -/
theorem blk_old_of_calm {x : Nat} (hx : x ≠ b) :
    s'.blk x = { s.blk x with allKnown := (s'.blk x).allKnown } := by
  rw [hcalm.blk x, hload.blk x, hload.old x hx, h.old x hx]

omit [DecidableEq D] in
/-- An input that is found in a block before was found there from the head. -/
theorem lies_of_calm (ht : TreeOk s) {sha : D} {y i j : Nat} (hy : y ≠ b)
    (hlies : Lies s' sha b (y, i, j)) : Lies s sha (knownHead s) (y, i, j) := by
  obtain ⟨te, hte, hsha, hloc, hpre⟩ := hlies
  have hplaced : te.isInBlock = true := by
    unfold TxhashElem.isInBlock
    rw [hloc]
  have hmem := (mem_placed.mp (hcalm.toMinor.mem_placed.mp (mem_placed.mpr ⟨hte, hplaced⟩))).1
  rcases (hload.txhash te).mp hmem with hold | ⟨i', j', t, -, -, rfl⟩
  · refine ⟨te, h.txhash ▸ hold, hsha, hloc, ?_⟩
    rw [← h.preceeds_new ht hy, ← hpre]
    refine (blockPreceeds_congr (fun x => ?_) (fun x => ?_) y b).symm
    · rw [blk_of_calm hload hcalm x]
    · unfold Block.depth
      rw [blk_of_calm hload hcalm x]
  · injection hloc with hb
    exact absurd hb.symm hy

/-- **The recheck of a claim returns** if the claim does not stop the node on the head. -/
theorem checkTxInputs_of_calm (ht : TreeOk s) (hl : Ledger E s) (hb : knownHead s < s.numBlocks)
    (hroom : s.numBlocks + 100 < depthLimit) (hclaims : ClaimsReturn E s nb.sha)
    (hdepth : nb.hdr.depth = (s.blk (knownHead s)).hdr.depth + 1) {tx : Tx D}
    (htx : txType tx = .claim → tx ∈ s.pending.unknownTx) :
    ∃ r, checkTxInputs E s' b none tx = .ok r := by
  have hdepths : ∀ x, x < s.numBlocks → (s.blk x).depth < s.numBlocks := fun x hx =>
    (ht.depth_le hx).trans_lt hx
  have hnew : (s'.blk b).depth = (s.blk (knownHead s)).depth + 1 := by
    have hlt := hdepths _ hb
    unfold Block.depth at hlt ⊢
    rw [blk_of_calm hload hcalm b, h.hdr, hdepth, UInt32.toNat_add,
      show (1 : UInt32).toNat = 1 from rfl]
    unfold depthLimit at hroom
    exact Nat.mod_eq_of_lt (by omega)
  refine checkTxInputs_total fun hclaim inp hinp addr => ?_
  obtain ⟨t, rfl⟩ : ∃ t, tx = .claim t := by
    cases tx with
    | claim t => exact ⟨t, rfl⟩
    | _ => exact absurd hclaim TxType.noConfusion
  obtain rfl : inp = t.input := List.mem_singleton.mp hinp
  have hreward : ∀ (y i j : Nat) (intx : Tx D),
      txhashGettxAncestor s' t.input.input b = some (y, i, j) → blockGetTx s' y i j = some intx →
      t.input.output.toNat = numOutputs intx + 1 → ∃ r, rewardGetTx E.crypto s' y b = .ok r := by
    intro y i j intx hfind hintx hout
    by_cases hy : y = b
    · subst hy
      refine rewardGetTx_returns ?_ (.inl (rewardEnd_ge _))
      rw [hnew]
      have hlt := hdepths _ hb
      unfold depthLimit at hroom
      omega
    · have hlies := lies_of_calm h hload hcalm ht hy (lies_of_lookup hfind)
      obtain ⟨te, hte, -, hloc, -⟩ := id hlies
      have hlt := hdepths y (hl.inBlock te hte y i j hloc).1
      have hblk := blk_old_of_calm h hload hcalm hy
      have hold : blockGetTx s y i j = some intx := by
        rw [← hintx]
        unfold blockGetTx State.shardOf
        rw [hblk]
      have hend : rewardEnd (s'.blk y) = rewardEnd (s.blk y) := by
        rw [hblk]
        rfl
      have hsame : (s'.blk y).depth = (s.blk y).depth := by
        rw [hblk]
        rfl
      have hsha : (s'.blk b).sha = nb.sha := by
        rw [blk_of_calm hload hcalm b, h.sha]
      refine rewardGetTx_returns ?_ ?_
      · rw [hsame]
        unfold depthLimit at hroom
        omega
      · rw [hend, hnew, hsame]
        refine (hclaims t (htx rfl) y i j hlies intx hold hout).imp_right fun hdraw => ⟨hdraw.1, ?_⟩
        unfold rewardDraw
        rw [hsha, hblk]
        exact hdraw.2
  unfold checkOneInput
  split
  · exact ⟨_, rfl⟩
  · rename_i y i j hfind
    split
    · exact ⟨_, rfl⟩
    · rename_i intx hintx
      obtain ⟨amount, hamount⟩ : ∃ amount,
          checkClaimInput E.crypto s' b t.input y i j intx addr = .ok amount := by
        unfold checkClaimInput
        by_cases hout : t.input.output.toNat ≠ numOutputs intx + 1
        · rw [if_pos hout]
          exact ⟨_, rfl⟩
        · rw [if_neg hout]
          obtain ⟨r, hr⟩ := hreward y i j intx hfind hintx (not_not.mp hout)
          rw [hr, ok_bind]
          cases r with
          | none => exact ⟨_, rfl⟩
          | some pos =>
            dsimp only
            split_ifs <;> exact ⟨_, rfl⟩
      rw [if_pos rfl, hamount, ok_bind]
      cases amount with
      | none => exact ⟨_, rfl⟩
      | some amount =>
        dsimp only
        split_ifs <;> exact ⟨_, rfl⟩

end

-- ---------------------------------------------------------------------------
-- The node understands the block
-- ---------------------------------------------------------------------------

/-- Every hash of the new block has become the pending transaction it was made of, no block got a
complaint, and the new block, all known, is the head of the longest knowns. -/
structure Understood (s s' : State D) : Prop where
  txs : ∀ (i j : Nat) (t : PendingTx D), (s.pending.pend i)[j]? = some t →
    (s'.shardOf s.numBlocks i).u j = .tx t.tx t.refs
  complaints : ∀ x < s.numBlocks, (s'.blk x).complaint = (s.blk x).complaint
  clean : (s'.blk s.numBlocks).complaint = none
  allKnown : blockAllKnown s' s.numBlocks = true
  head : knownHead s' = s.numBlocks

/-- `recv_block_from_generator` takes the block, and then the node understands it. -/
def UnderstandsMined (E : Env D) (s : State D) (w : WorkingBlock D) : Prop :=
  ∃ s', recvBlockFromGenerator E s w.parts w.writeBlock.2 = .ok (s', true) ∧ Understood s s'

/-- Nothing is in the way of the block: it is a new one, and makes no tie, nothing disturbs the
pending transactions, and no pending claim stops the node. -/
structure ClearFor (E : Env D) (s : State D) (w : WorkingBlock D) : Prop where
  room : s.numBlocks + 100 < depthLimit
  new : blockFindAny s w.sha = none
  noTie : ¬ AddTie s (knownHead s) (w.parts.toNewBlock E.crypto)
  undisturbed : Undisturbed E s (knownHead s)
  claims : ClaimsReturn E s w.sha

omit [Digest D] in
/-- The block is found by its hash, while it fills up too. -/
theorem Joined.blockFindAny_eq (h : Joined s s₁ nb s.numBlocks)
    (hnum : s₂.numBlocks = s₁.numBlocks)
    (hblk : ∀ x : Nat,
      s₂.blk x = { s₁.blk x with shard := (s₂.blk x).shard, allKnown := (s₂.blk x).allKnown })
    (hlabels : Labels s) (hnew : blockFindAny s nb.sha = none) :
    blockFindAny s₂ nb.sha = some s.numBlocks := by
  rw [h.numBlocks] at hnum
  have hsha : (s₂.blk s.numBlocks).sha = nb.sha := by
    rw [hblk, h.sha]
  have hdepth : (s₂.blk s.numBlocks).depth ≤ s.numBlocks := by
    unfold Block.depth
    rw [hblk]
    exact h.tree.depth_le (by rw [h.numBlocks]; exact Nat.lt_succ_self _)
  cases hfind : blockFindAny s₂ nb.sha with
  | some x =>
    obtain ⟨hx, hxsha⟩ := blockFindAny_spec hfind
    rw [hnum] at hx
    by_cases heq : x = s.numBlocks
    · rw [heq]
    · rw [hblk, h.old x heq] at hxsha
      exact absurd hxsha (sha_ne_of_findAny hlabels hnew
        (lt_of_le_of_ne (Nat.lt_succ_iff.mp hx) heq))
  | none =>
    unfold blockFindAny at hfind
    refine absurd (beq_iff_eq.mpr hsha) (List.find?_eq_none.mp hfind s.numBlocks ?_)
    refine List.mem_flatMap.mpr ⟨(s₂.blk s.numBlocks).depth, ?_, ?_⟩
    · rw [List.mem_reverse, List.mem_range]
      omega
    · unfold blockDepth
      rw [List.mem_filter, List.mem_range]
      exact ⟨by omega, beq_self_eq_true _⟩

/-- `recv_shard` takes every packet of the block. -/
theorem MinedOn.takesShard (hmined : MinedOn E s w)
    (h : Joined s s₁ (w.parts.toNewBlock E.crypto) s.numBlocks)
    (hnum : s₂.numBlocks = s₁.numBlocks)
    (hblk : ∀ x : Nat,
      s₂.blk x = { s₁.blk x with shard := (s₂.blk x).shard, allKnown := (s₂.blk x).allKnown })
    (hlabels : Labels s) (hnew : blockFindAny s w.sha = none) {i : Nat} {pkt : PktShard D}
    (hpkt : w.writeBlock.2[i]? = some pkt) (hsize : (s₂.blk s.numBlocks).shardSize i ≠ 0) :
    TakesShard E s₂ none s.numBlocks pkt := by
  obtain ⟨-, hshard, -⟩ := hmined.getElem_shards hpkt
  have hsha : (w.parts.toNewBlock E.crypto).sha = w.sha := hmined.sha_eq.symm
  refine takesShard_of_hashed hmined.hashed.1 ?_ (List.mem_of_getElem? hpkt) ?_ ?_ ?_ ?_ none
  · rw [hmined.shardOrder]
    decide
  · rw [← hsha]
    exact h.blockFindAny_eq hnum hblk hlabels (hsha ▸ hnew)
  · constructor
    · rw [hblk, h.hdr]
      rfl
    · rw [hblk, h.shardNums]
      rfl
    · rw [hblk, h.merkles]
      rfl
  · rw [hblk, h.clean]
  · rw [hshard]
    exact hsize

/-- The generator that is started now, reads all that is pending, and needs no second nonce. -/
def firstSolution (C : Crypto D) (s : State D) (now : UInt32) : Option (WorkingBlock D) :=
  (execGenerator C s (Bytes.zero 20) [65]).toOption.bind fun args =>
    (initUpdates C s.pending.pend).toOption.bind fun queue =>
      (generateStart C args now).toOption.bind fun start =>
        start.bind fun w =>
          (queue.foldlM (WorkingBlock.addTx C) w).toOption.bind fun w =>
            (w.solveBlock C now).toOption.bind fun r => if r.2 then some r.1 else none

theorem genRun_readAll {queue : List (GenUpdate D)} {w w' : WorkingBlock D}
    (h : GenRun E s queue w) (hread : queue.foldlM (WorkingBlock.addTx E.crypto) w = .ok w') :
    GenRun E s [] w' := by
  induction queue generalizing w with
  | nil =>
    obtain rfl := Except.ok.inj hread
    exact h
  | cons update queue ih =>
    rw [List.foldlM_cons] at hread
    obtain ⟨w₁, hw₁, hread⟩ := of_bind_eq_ok hread
    exact ih (.read h hw₁) hread

theorem generates_of_genRun {queue : List (GenUpdate D)} (h : GenRun E s queue w) :
    ∃ args, Generates E.crypto args w := by
  induction h with
  | start _ _ now _ _ _ hstart => exact ⟨_, .start now hstart⟩
  | insert _ _ _ _ ih => exact ih
  | meanwhile _ _ ih => exact ih
  | read _ hadd ih =>
    obtain ⟨args, hgen⟩ := ih
    exact ⟨args, .add _ hgen hadd⟩
  | unsolved now _ hsolve ih =>
    obtain ⟨args, hgen⟩ := ih
    exact ⟨args, .unsolved now hgen hsolve⟩

/-- A generator that has read all that is queued has the hashes of what is pending. -/
theorem minedOn_of_genRun {w₀ : WorkingBlock D} (hrun : GenRun E s [] w₀) {now : UInt32}
    (hsolve : w₀.solveBlock E.crypto now = .ok (w, true))
    (hpending : PendingFor E s (knownHead s) 1)
    (hheader : checkBlockHeader E.crypto s w.parts = .ok (.none, some (knownHead s)))
    (hprev : w.hdr.numPrevTxhashes.toNat = numPrevTxhashes s (knownHead s)) : MinedOn E s w where
  pending := hpending
  solved := by
    obtain ⟨args, hgen⟩ := generates_of_genRun hrun
    have hreplays := (inStep_of_genRun hrun).replays
    generalize hstart : w₀.arrays = start at hreplays
    cases hreplays
    exact ⟨args, w₀, now, hgen, hstart, hsolve⟩
  header := hheader
  prevTxhashes := hprev

theorem genRun_firstSolution (hreach : NodeReach E s) {now : UInt32}
    (h : firstSolution E.crypto s now = some w) :
    ∃ w₀, GenRun E s [] w₀ ∧ w₀.solveBlock E.crypto now = .ok (w, true) := by
  unfold firstSolution at h
  obtain ⟨args, hargs, h⟩ := Option.bind_eq_some_iff.mp h
  obtain ⟨queue, hqueue, h⟩ := Option.bind_eq_some_iff.mp h
  obtain ⟨start, hstart, h⟩ := Option.bind_eq_some_iff.mp h
  obtain ⟨w₁, hw₁, h⟩ := Option.bind_eq_some_iff.mp h
  rw [hw₁] at hstart
  obtain ⟨w₀, hread, h⟩ := Option.bind_eq_some_iff.mp h
  obtain ⟨⟨w', solved⟩, hsolve, h⟩ := Option.bind_eq_some_iff.mp h
  cases solved with
  | false => exact absurd h (by simp)
  | true =>
    obtain rfl : w' = w := Option.some.inj h
    refine ⟨w₀, genRun_readAll (.start (Bytes.zero 20) [65] now (startable_of_nodeReach hreach)
      (eq_ok_of_toOption hargs) (eq_ok_of_toOption hqueue) (eq_ok_of_toOption hstart))
      (eq_ok_of_toOption hread), eq_ok_of_toOption hsolve⟩

section

variable {s : State IdealDigest}

/-- The gateway's payment is pending, and nothing else. -/
structure OnlyPayment (s : State IdealDigest) : Prop where
  pend : s.pending.pend 0 = [⟨samplePayment, []⟩]
  rest : ∀ i : Nat, 0 < i → s.pending.pend i = []
  unknownTx : s.pending.unknownTx = []
  notInChain : txhashGettxAncestor s (hashTx idealCrypto samplePayment) (knownHead s) = none
  held : HeldPending idealEnv s samplePayment

theorem OnlyPayment.eq (h : OnlyPayment s) {i : Nat} {t : PendingTx IdealDigest}
    (ht : t ∈ s.pending.pend i) :
    i = 0 ∧ t = ⟨samplePayment, []⟩ := by
  rcases Nat.eq_zero_or_pos i with rfl | hi
  · rw [h.pend] at ht
    exact ⟨rfl, List.mem_singleton.mp ht⟩
  · rw [h.rest i hi] at ht
    exact absurd ht List.not_mem_nil

theorem OnlyPayment.pendingFor (h : OnlyPayment s) (hreach : NodeReach idealEnv s) :
    PendingFor idealEnv s (knownHead s) 1 where
  pendOk := pendOk_of_nodeReach hreach
  sorted i := by
    rcases Nat.eq_zero_or_pos i with rfl | hi
    · rw [h.pend]
      exact List.pairwise_singleton _ _
    · rw [h.rest i hi]
      exact .nil
  inShard i t ht := by
    obtain ⟨rfl, rfl⟩ := h.eq ht
    show shardOfTx idealCrypto _ samplePayment protocolInitialShardOrder = 0
    decide
  inputs i t ht := by
    obtain ⟨rfl, rfl⟩ := h.eq ht
    exact ⟨0, rfl⟩
  refs i t ht := by
    obtain ⟨rfl, rfl⟩ := h.eq ht
    rfl
  apart i i' t ht t' ht' hne := by
    obtain ⟨-, rfl⟩ := h.eq ht
    obtain ⟨-, rfl⟩ := h.eq ht'
    exact absurd rfl hne
  notInChain i t ht := by
    obtain ⟨rfl, rfl⟩ := h.eq ht
    exact h.notInChain
  held i t ht := by
    obtain ⟨rfl, rfl⟩ := h.eq ht
    exact h.held

end

/-- The payment is all that is pending, and there is no claim. -/
def onlyPayment (s : State IdealDigest) : Bool :=
  decide (s.pending.pend 0 = [⟨samplePayment, []⟩]) &&
    ((List.range pendShards).all fun i => i == 0 || (s.pending.pend i).isEmpty) &&
    s.pending.unknownTx.isEmpty &&
    (txhashGettxAncestor s (hashTx idealCrypto samplePayment) (knownHead s)).isNone &&
    (txhashGetPendingTx s (hashTx idealCrypto samplePayment)).isSome

theorem onlyPayment_spec {s : State IdealDigest} (hreach : NodeReach idealEnv s)
    (h : onlyPayment s = true) : OnlyPayment s := by
  unfold onlyPayment at h
  simp only [Bool.and_eq_true, decide_eq_true_eq, List.all_eq_true, List.mem_range,
    Bool.or_eq_true, beq_iff_eq, List.isEmpty_iff, Option.isNone_iff_eq_none] at h
  obtain ⟨⟨⟨⟨hpend, hrest⟩, hunknown⟩, hchain⟩, hheld⟩ := h
  refine ⟨hpend, fun i hi => ?_, hunknown, hchain, hheld⟩
  by_cases hlt : i < pendShards
  · exact (hrest i hlt).resolve_left (Nat.ne_of_gt hi)
  · exact (pendOk_of_nodeReach hreach).outside i (Nat.le_of_not_lt hlt)

/-- The header of the block that was mined passes, as far as it is checked. -/
def headerPasses (s : State IdealDigest) (w : WorkingBlock IdealDigest) : Bool :=
  decide ((checkBlockHeader idealCrypto s w.parts).toOption = some (.none, some (knownHead s))) &&
    decide (w.hdr.numPrevTxhashes.toNat = numPrevTxhashes s (knownHead s))

theorem minedOn_firstSolution {s : State IdealDigest} {w : WorkingBlock IdealDigest}
    (hreach : NodeReach idealEnv s) (honly : onlyPayment s = true) {now : UInt32}
    (hw : firstSolution idealCrypto s now = some w) (hheader : headerPasses s w = true) :
    MinedOn idealEnv s w := by
  unfold headerPasses at hheader
  rw [Bool.and_eq_true, decide_eq_true_eq, decide_eq_true_eq] at hheader
  obtain ⟨w₀, hrun, hsolve⟩ := genRun_firstSolution (E := idealEnv) hreach hw
  exact minedOn_of_genRun hrun hsolve ((onlyPayment_spec hreach honly).pendingFor hreach)
    (eq_ok_of_toOption hheader.1) hheader.2

omit [Digest D] [DecidableEq D] in
/-- There was no tie where `block_add` returned. -/
theorem noTie_of_blockAdd {prev : Nat} (hi : ChainInv s)
    (ha : (ChainOp.addBlock prev nb).Admitted s) {r : State D × BlockId}
    (h : blockAdd s prev nb = .ok r) : ¬ AddTie s prev nb := by
  unfold blockAdd at h
  obtain ⟨_, hchains, -⟩ := of_bind_eq_ok h
  exact fun htie => (checkChains_iff (addBlock_inv hi ha)).mp hchains
    ((earlierTie_blockAddHeads_iff hi ha).mpr htie)

omit [Digest D] [DecidableEq D] in
/-- A block on the only longest chain makes no tie. -/
theorem not_addTie {prev : Nat} (hprev : Clean s prev) (hhead : chainHead s = prev)
    (hexp : difficultyExp nb.tailer.difficulty ≤ 32) : ¬ AddTie s prev nb := by
  rintro ⟨-, htakes, -⟩
  refine htakes ⟨hprev, .inl ?_⟩
  rw [hhead]
  have hpos := blockWork_pos hexp
  unfold addedWork
  omega

/-- What `recv_shard` does with the hashes of the first shard, as the rest are empty. -/
def firstShard (E : Env D) (s : State D) (b : BlockId) (hashes : List (TxRefHash D)) :
    Res (State D) := do
  let s ← putTxhashesInShard E b 0 hashes 0 s
  tryResolveHashes E none b 0 false (List.range ((s.blk b).shardSize 0)) s

theorem recvShards_empty {pkts : List (PktShard D)} {n : Nat}
    (h : ∀ i, n ≤ i → i < n + pkts.length → (s.blk b).shardSize i = 0) :
    recvShards E b pkts n s = .ok (s, true) := by
  induction pkts generalizing n with
  | nil => rfl
  | cons pkt rest ih =>
    rw [List.length_cons] at h
    unfold recvShards
    rw [if_pos (h n (Nat.le_refl n) (by omega))]
    exact ih fun i hle hlt => h i (by omega) (by omega)

/-- Of a block with one shard that is not empty, that shard comes in. -/
theorem MinedOn.recvShards_eq (hmined : MinedOn E s w)
    (htakes : ∀ pkt, w.writeBlock.2[0]? = some pkt → TakesShard E s₂ none b pkt)
    (hsize : (s₂.blk b).shardSize 0 ≠ 0)
    (hfirst : firstShard E s₂ b (pendHashes E.crypto s.pending.pend 0) = .ok s₃)
    (hrest : ∀ i, 0 < i → i < pendShards → (s₃.blk b).shardSize i = 0) :
    recvShards E b w.writeBlock.2 0 s₂ = .ok (s₃, true) := by
  have hlen := hmined.length_shards
  cases hpkts : w.writeBlock.2 with
  | nil =>
    rw [hpkts] at hlen
    exact absurd hlen (Nat.ne_of_lt (show 0 < pendShards by decide))
  | cons pkt rest =>
    rw [hpkts, List.length_cons] at hlen
    have hget : w.writeBlock.2[0]? = some pkt := by rw [hpkts]; rfl
    obtain ⟨-, hshard, hhashes⟩ := hmined.getElem_shards hget
    have hrecv : recvShard E s₂ none pkt = .ok (s₃, .none) := by
      rw [htakes pkt hget, hshard, hhashes]
      unfold firstShard at hfirst
      obtain ⟨s₄, hs₄, hfirst⟩ := of_bind_eq_ok hfirst
      rw [hs₄, ok_bind]
      show (tryResolveHashes E none b 0 false _ s₄ >>= _) = _
      rw [hfirst]
      rfl
    unfold recvShards
    rw [if_neg hsize, hrecv]
    exact recvShards_empty fun i hle hlt => hrest i (by omega) (by omega)

/-- An empty block. -/
def lateEmpty : BlockParts IdealDigest :=
  { lightBlock .zero 1 4 [] with tailer := ⟨11, 0x1effffff, 0⟩ }

/-- Its sibling, with a payment and what spends it. -/
def siblingPair : BlockParts IdealDigest := lightBlock .zero 1 4 samplePair

/-- Both are known in full; then the payment comes once more, for the chain of the empty one. -/
def siblingEvents : List (NodeEvent IdealDigest) :=
  [sampleHeader lateEmpty, sampleHeader siblingPair,
    samplePacket siblingPair samplePair 0 (samplePayment, []),
    samplePacket siblingPair samplePair 1 (sampleFee, [⟨0, 0, 0, 0⟩]),
    .packet ⟨0, false⟩ (.tx samplePayment)]

end Pettycoin
