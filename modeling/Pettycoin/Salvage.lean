import Pettycoin.HeadsRun
import Pettycoin.Quiet

/-!
# Pettycoin — what is put back into pending

`step_towards` finds the first block on the way from the fork to the old head
(`stepTowards_spec`), so that `steal_pending_txs` puts back the transactions of
the blocks of the old branch that are not on the new one, and no others
(`stealPendingTxs_spec`).

* `stepTowards_spec` — the first step from the fork;
* `stealPendingTxs_spec` — what is put back on the way;
* `updateKnown_salvaged` — in `update_known`.
-/

namespace Pettycoin

open Forest

variable {D : Type} {s s' : State D} {a b c : Nat}

-- ---------------------------------------------------------------------------
-- Finding the fork
-- ---------------------------------------------------------------------------

theorem TreeOk.exists_prev (h : TreeOk s) (hb : b < s.numBlocks) (hd : 0 < (s.blk b).depth) :
    ∃ p, prevOf s b = some p := by
  refine h.has_prev b (Nat.pos_of_ne_zero ?_) hb
  rintro rfl
  rw [h.depth_genesis] at hd
  omega

/-- Moving back to a depth: where that ends, and the block before. -/
theorem rewindTo_spec (h : TreeOk s) (hb : b < s.numBlocks) {depth n : Nat}
    (hn : (s.blk b).depth ≤ depth + n) :
    Anc (prevOf s) (rewindTo s depth n b).1 b ∧
      (s.blk (rewindTo s depth n b).1).depth = min depth (s.blk b).depth ∧
      ((rewindTo s depth n b).2 = none ∧ (s.blk b).depth ≤ depth ∨
        ∃ c, (rewindTo s depth n b).2 = some c ∧ Anc (prevOf s) c b ∧
          prevOf s c = some (rewindTo s depth n b).1) := by
  induction n generalizing b with
  | zero =>
    unfold rewindTo
    exact ⟨Anc.refl _ _, (Nat.min_eq_right (by omega)).symm, .inl ⟨rfl, by omega⟩⟩
  | succ n ih =>
    unfold rewindTo
    split_ifs with hd
    · obtain ⟨p, hp⟩ := h.exists_prev hb (by omega)
      have hdp := h.depth_prev b p hp
      have hpb := Anc.of_parent hp
      rw [show (s.blk b).prev = some p from hp]
      obtain ⟨hanc, hdepth, hlast⟩ := ih (h.anc_lt hpb hb) (show (s.blk p).depth ≤ depth + n by omega)
      refine ⟨hanc.trans hpb, ?_, .inr ?_⟩
      · rw [hdepth, Nat.min_eq_left (by omega), Nat.min_eq_left (by omega)]
      · rcases hlast with ⟨hnone, hle⟩ | ⟨c, hc, hcp, hprev⟩
        · refine ⟨b, by simp only [hnone, Option.none_or], Anc.refl _ _, ?_⟩
          have heq : (rewindTo s depth n p).1 = p :=
            h.anc_eq_of_depth hanc (by rw [hdepth, Nat.min_eq_right hle])
          rw [heq]
          exact hp
        · exact ⟨c, by simp only [hc, Option.some_or], hcp.trans hpb, hprev⟩
    · have hle : (s.blk b).depth ≤ depth := by omega
      exact ⟨Anc.refl _ _, (Nat.min_eq_right hle).symm, .inl ⟨rfl, hle⟩⟩

/-- `last` is the first block towards `target` after the fork with `curr`. -/
structure FirstStep (s : State D) (curr target last : Nat) : Prop where
  anc : Anc (prevOf s) last target
  off : ¬ Anc (prevOf s) last curr
  fork : ∃ p, prevOf s last = some p ∧ Anc (prevOf s) p curr

/-- Two blocks at the same depth move back until they meet. -/
theorem stepMeet_spec (h : TreeOk s) {curr target : Nat} {last : Option Nat} {n : Nat}
    (hc : Anc (prevOf s) c curr) (hcurr : curr < s.numBlocks) (ha : Anc (prevOf s) a target)
    (htarget : target < s.numBlocks) (hd : (s.blk c).depth = (s.blk a).depth)
    (hn : (s.blk c).depth < n)
    (hlast : c = a → ∃ x, last = some x ∧ FirstStep s curr target x) :
    ∃ x, stepMeet s n c a last = some x ∧ FirstStep s curr target x := by
  induction n generalizing c a last with
  | zero => omega
  | succ n ih =>
    unfold stepMeet
    split_ifs with heq
    · exact hlast heq
    · have hne : c ≠ a := heq
      have hpos : 0 < (s.blk c).depth := by
        refine Nat.pos_of_ne_zero fun h0 => hne ?_
        have hc0 : 0 = c := h.anc_eq_of_depth (h.genesis_anc (h.anc_lt hc hcurr)) (by omega)
        have ha0 : 0 = a := h.anc_eq_of_depth (h.genesis_anc (h.anc_lt ha htarget)) (by omega)
        exact hc0.symm.trans ha0
      obtain ⟨pc, hpc⟩ := h.exists_prev (h.anc_lt hc hcurr) hpos
      obtain ⟨pa, hpa⟩ := h.exists_prev (h.anc_lt ha htarget) (by omega)
      have hdc := h.depth_prev c pc hpc
      have hda := h.depth_prev a pa hpa
      rw [show (s.blk c).prev = some pc from hpc, show (s.blk a).prev = some pa from hpa]
      refine ih ((Anc.of_parent hpc).trans hc) ((Anc.of_parent hpa).trans ha) (by omega) (by omega)
        fun hmeet => ⟨a, rfl, ha, fun hac => hne ?_, pa, hpa, ?_⟩
      · -- both are ancestors of `curr` at the same depth
        rcases hac.total hc with hab | hba
        · exact (h.anc_eq_of_depth hab (by omega)).symm
        · exact h.anc_eq_of_depth hba (by omega)
      · exact hmeet ▸ (Anc.of_parent hpc).trans hc

/-- **`step_towards`** finds the first step from the fork, unless there is none. -/
theorem stepTowards_spec (h : TreeOk s) {curr target : Nat} (hcurr : curr < s.numBlocks)
    (htarget : target < s.numBlocks) :
    (stepTowards s curr target = none ∧ Anc (prevOf s) target curr) ∨
      ∃ last, stepTowards s curr target = some last ∧ FirstStep s curr target last := by
  obtain ⟨hanc, hdepth, -⟩ := rewindTo_spec h hcurr
    (show (s.blk curr).depth ≤ (s.blk target).depth + (s.blk curr).depth by omega)
  unfold stepTowards
  generalize (rewindTo s (s.blk target).depth (s.blk curr).depth curr).1 = c at hanc hdepth
  dsimp only
  split_ifs with heq
  · exact .inl ⟨rfl, heq ▸ hanc⟩
  · refine .inr ?_
    obtain ⟨hanct, hdeptht, hlastt⟩ := rewindTo_spec h htarget
      (show (s.blk target).depth ≤ (s.blk c).depth + (s.blk target).depth by omega)
    generalize rewindTo s (s.blk c).depth (s.blk target).depth target = r at hanct hdeptht hlastt
    obtain ⟨a, last⟩ := r
    dsimp only at hanct hdeptht hlastt ⊢
    refine stepMeet_spec h hanc hcurr hanct htarget (by omega) (by omega) fun hmeet => ?_
    subst hmeet
    rcases hlastt with ⟨-, hle⟩ | ⟨x, hx, hxt, hprev⟩
    · -- `target` is no deeper, so it is where both have met
      exact absurd (h.anc_eq_of_depth hanct hle) heq
    · refine ⟨x, hx, hxt, fun hxc => ?_, c, hprev, hanc⟩
      have hdx := h.depth_prev x c hprev
      have hdt := h.anc_depth hxt
      rcases hxc.total hanc with hxc' | hcx
      · have hle := h.anc_depth hxc'
        omega
      · have hle := h.anc_depth hxc
        omega

-- ---------------------------------------------------------------------------
-- Putting back
-- ---------------------------------------------------------------------------

/-- From `s` to `s'` these transactions are put back, and nothing else happens. -/
structure PutsBack (s s' : State D) (txs : List (Tx D)) : Prop where
  numBlocks : s'.numBlocks = s.numBlocks
  blk : s'.blk = s.blk
  knowns : s'.longestKnowns = s.longestKnowns
  pend : s'.pending.pend = s.pending.pend
  unknownTx : s'.pending.unknownTx = s.pending.unknownTx ++ txs
  needsRecheck : s.pending.needsRecheck = true → s'.pending.needsRecheck = true

theorem PutsBack.refl (s : State D) : PutsBack s s [] :=
  ⟨rfl, rfl, rfl, rfl, (List.append_nil _).symm, id⟩

theorem PutsBack.trans {s'' : State D} {txs txs' : List (Tx D)} (h : PutsBack s s' txs)
    (h' : PutsBack s' s'' txs') : PutsBack s s'' (txs ++ txs') :=
  ⟨h'.numBlocks.trans h.numBlocks, h'.blk.trans h.blk, h'.knowns.trans h.knowns,
    h'.pend.trans h.pend, by rw [h'.unknownTx, h.unknownTx, List.append_assoc],
    fun hr => h'.needsRecheck (h.needsRecheck hr)⟩

theorem blockToPending_putsBack (s : State D) (b : Nat) :
    PutsBack s (blockToPending s b) (blockTxs s b) := by
  rw [blockToPending_eq]
  refine ⟨rfl, rfl, rfl, rfl, rfl, fun hr => ?_⟩
  show (s.pending.needsRecheck || !(blockTxs s b).isEmpty) = true
  rw [hr, Bool.true_or]

theorem blockTxs_congr (h : s'.blk = s.blk) : blockTxs s' b = blockTxs s b := by
  unfold blockTxs State.shardOf
  rw [h]

/-- The loop of `steal_pending_txs` goes through the blocks from `b` back to `last`. -/
theorem stealBackTo_spec (h : TreeOk s) {last : Nat} (hb : Anc (prevOf s) last b)
    (hlt : b < s.numBlocks) {p n : Nat} (hp : prevOf s last = some p)
    (hn : (s.blk b).depth < (s.blk p).depth + n) :
    ∃ txs, PutsBack s (stealBackTo (some p) n s b) txs ∧
      ∀ tx, tx ∈ txs ↔ ∃ x, Anc (prevOf s) last x ∧ Anc (prevOf s) x b ∧ tx ∈ blockTxs s x := by
  induction n generalizing s b with
  | zero =>
    have hdl := h.anc_depth hb
    have hdp := h.depth_prev last p hp
    omega
  | succ n ih =>
    have hdp := h.depth_prev last p hp
    have hne : some b ≠ some p := by
      intro heq
      obtain rfl := Option.some.inj heq
      have hdl := h.anc_depth hb
      omega
    have hback := blockToPending_putsBack s b
    have hprevOf : prevOf (blockToPending s b) = prevOf s := by
      funext x
      unfold prevOf
      rw [hback.blk]
    unfold stealBackTo
    rw [if_neg hne]
    dsimp only
    rw [show ((blockToPending s b).blk b).prev = prevOf s b by rw [← hprevOf]; rfl]
    rcases anc_iff_eq_or_parent.mp hb with rfl | ⟨q, hq, hlq⟩
    · -- `last` itself: the next is `p`, where the loop stops
      rw [hp]
      refine ⟨blockTxs s last, ?_, fun tx => ?_⟩
      · have hstop : stealBackTo (some p) n (blockToPending s last) p = blockToPending s last := by
          cases n with
          | zero => rfl
          | succ n =>
            unfold stealBackTo
            rw [if_pos rfl]
        dsimp only
        rw [hstop]
        exact hback
      · constructor
        · exact fun htx => ⟨last, Anc.refl _ _, Anc.refl _ _, htx⟩
        · rintro ⟨x, hlx, hxl, htx⟩
          rwa [hxl.antisymm h.grows hlx] at htx
    · rw [hq]
      have hdq := h.depth_prev b q hq
      have hsame : SameBlocks s (blockToPending s b) :=
        ⟨hback.numBlocks, fun x => by rw [hback.blk]⟩
      obtain ⟨txs, hputs, hmem⟩ := ih (s := blockToPending s b) (b := q) (hsame.treeOk h)
        (hprevOf ▸ hlq) (by rw [hback.numBlocks]; exact h.anc_lt (Anc.of_parent hq) hlt)
        (hprevOf ▸ hp) (by rw [hback.blk]; omega)
      refine ⟨_, hback.trans hputs, fun tx => ?_⟩
      simp only [hprevOf, blockTxs_congr hback.blk] at hmem
      rw [List.mem_append, hmem]
      constructor
      · rintro (htx | ⟨x, hlx, hxq, htx⟩)
        · exact ⟨b, hb, Anc.refl _ _, htx⟩
        · exact ⟨x, hlx, hxq.trans (Anc.of_parent hq), htx⟩
      · rintro ⟨x, hlx, hxb, htx⟩
        rcases anc_iff_eq_or_parent.mp hxb with rfl | ⟨q', hq', hxq⟩
        · exact .inl htx
        · rw [hq] at hq'
          obtain rfl := Option.some.inj hq'
          exact .inr ⟨x, hlx, hxq, htx⟩

/-- **What `steal_pending_txs` puts back**: the transactions of the blocks of the
old branch that are not on the new one. -/
theorem stealPendingTxs_spec (h : TreeOk s) {old new : Nat} (hold : old < s.numBlocks)
    (hnew : new < s.numBlocks) :
    ∃ txs, PutsBack s (stealPendingTxs s old new) txs ∧
      ∀ tx, tx ∈ txs ↔
        ∃ x, Anc (prevOf s) x old ∧ ¬ Anc (prevOf s) x new ∧ tx ∈ blockTxs s x := by
  unfold stealPendingTxs
  rcases stepTowards_spec h hnew hold with ⟨hnone, hanc⟩ | ⟨last, hsome, hfirst⟩
  · rw [hnone]
    refine ⟨[], .refl s, fun tx => ⟨fun htx => absurd htx (by simp), ?_⟩⟩
    rintro ⟨x, hxo, hxn, -⟩
    exact absurd (hxo.trans hanc) hxn
  · obtain ⟨p, hp, hpn⟩ := hfirst.fork
    rw [hsome]
    dsimp only
    rw [show (s.blk last).prev = some p from hp]
    obtain ⟨txs, hputs, hmem⟩ := stealBackTo_spec h hfirst.anc hold (n := (s.blk old).depth + 1) hp
      (by omega)
    refine ⟨txs, hputs, fun tx => ?_⟩
    rw [hmem]
    constructor
    · rintro ⟨x, hlx, hxo, htx⟩
      exact ⟨x, hxo, fun hxn => hfirst.off (hlx.trans hxn), htx⟩
    · rintro ⟨x, hxo, hxn, htx⟩
      refine ⟨x, ?_, hxo, htx⟩
      rcases hxo.total hfirst.anc with hxl | hlx
      · rcases anc_iff_eq_or_parent.mp hxl with rfl | ⟨q, hq, hxq⟩
        · exact Anc.refl _ _
        · rw [hp] at hq
          obtain rfl := Option.some.inj hq
          exact absurd (hxq.trans hpn) hxn
      · exact hlx

-- ---------------------------------------------------------------------------
-- Updating the longest known
-- ---------------------------------------------------------------------------

theorem SameBlocks.blockTxs_eq (h : SameBlocks s s') (b : Nat) : blockTxs s' b = blockTxs s b := by
  unfold blockTxs Block.numShards Block.shardSize
  rw [h.shardOf_eq, h.blk b]

/-- The search does not touch what is pending. -/
theorem updateKnownRecursive_keeps (s : State D) (fuel b : Nat) :
    SameBlocks s (updateKnownRecursive fuel s b).1 ∧
      (updateKnownRecursive fuel s b).1.pending = s.pending ∧
      ((updateKnownRecursive fuel s b).2 = false →
        (updateKnownRecursive fuel s b).1.longestKnowns = s.longestKnowns) := by
  by_cases hprev : ∀ p : Nat, prevOf s b = some p → (s.blk p).allKnown = true
  · obtain ⟨hstate, hchanged⟩ := updateKnownRecursive_eq_markKnown fuel hprev
    rw [hstate] at hchanged ⊢
    exact ⟨sameBlocks_markKnown s _, rfl, hchanged⟩
  · obtain ⟨p, hp⟩ := not_forall.mp hprev
    obtain ⟨hp, hflag⟩ := Classical.not_imp.mp hp
    rw [updateKnownRecursive_of_not_flagged _ hp (by simpa using hflag)]
    exact ⟨SameBlocks.refl s, rfl, fun _ => rfl⟩

theorem orderBlockPointers_pending (s : State D) :
    (orderBlockPointers s).pending = s.pending := by
  unfold orderBlockPointers
  split <;> rfl

/-- From `s` to `s'` the head of the longest knowns moves, and what is on the old
branch only is put back. -/
structure Salvaged (s s' : State D) : Prop where
  pend : s'.pending.pend = s.pending.pend
  unknownTx : ∃ txs, s'.pending.unknownTx = s.pending.unknownTx ++ txs ∧
    ∀ tx, tx ∈ txs ↔ ∃ x, Anc (prevOf s) x (knownHead s) ∧ ¬ Anc (prevOf s) x (knownHead s') ∧
      tx ∈ blockTxs s x
  needsRecheck : s'.pending.needsRecheck = true

/-- **`update_known`** puts back what is on the old branch only, if the head moves. -/
theorem updateKnown_salvaged (ht : TreeOk s) (hold : knownHead s < s.numBlocks)
    (hnew : knownHead (updateKnown s b) < s.numBlocks) :
    knownHead (updateKnown s b) = knownHead s ∧
        (updateKnown s b).pending.pend = s.pending.pend ∧
        (updateKnown s b).pending.unknownTx = s.pending.unknownTx ∧
        (s.pending.needsRecheck = true ∨ (updateKnownRecursive s.numBlocks s b).2 = true →
          (updateKnown s b).pending.needsRecheck = true) ∨
      Salvaged s (updateKnown s b) := by
  obtain ⟨hsame, hpending, hunchanged⟩ := updateKnownRecursive_keeps s s.numBlocks b
  unfold updateKnown at hnew ⊢
  generalize updateKnownRecursive s.numBlocks s b = r at hsame hpending hunchanged hnew ⊢
  obtain ⟨s₁, changed⟩ := r
  dsimp only at hsame hpending hunchanged hnew ⊢
  cases changed with
  | false =>
    simp only [Bool.not_false, if_true] at hnew ⊢
    refine .inl ⟨?_, by rw [hpending], by rw [hpending], fun hr => ?_⟩
    · rw [knownHead, hunchanged rfl, knownHead]
    · rw [hpending]
      exact hr.resolve_right (by simp)
  | true =>
    simp only [Bool.not_true, Bool.false_eq_true, if_false] at hnew ⊢
    generalize hs₂ : updatePreferredChain (orderBlockPointers s₁.setNeedsRecheck) = s₂ at hnew ⊢
    have hpending₂ : s₂.pending = s₁.setNeedsRecheck.pending := by
      rw [← hs₂]
      exact orderBlockPointers_pending _
    have hsame₂ : SameBlocks s s₂ := by
      have hside : SameBlocks s₁ s₁.setNeedsRecheck := ⟨rfl, fun _ => rfl⟩
      rw [← hs₂]
      exact hsame.trans (hside.trans
        ((orderBlockPointers_spec (hside.treeOk (hsame.treeOk ht))).1.trans ⟨rfl, fun _ => rfl⟩))
    have hpend₂ : s₂.pending.pend = s.pending.pend := by
      rw [hpending₂, ← hpending]
      rfl
    have hunknown₂ : s₂.pending.unknownTx = s.pending.unknownTx := by
      rw [hpending₂, ← hpending]
      rfl
    have hrecheck₂ : s₂.pending.needsRecheck = true := by
      rw [hpending₂]
      rfl
    split_ifs at hnew ⊢ with hmoved
    · refine .inr ?_
      have hhead : ∀ txs, PutsBack s₂ (stealPendingTxs s₂ (s.longestKnowns.headD 0)
          (s₂.longestKnowns.headD 0)) txs →
          knownHead (stealPendingTxs s₂ (s.longestKnowns.headD 0) (s₂.longestKnowns.headD 0))
            = knownHead s₂ := fun txs hputs => by rw [knownHead, hputs.knowns, knownHead]
      have hnew₂ : s₂.longestKnowns.headD 0 < s₂.numBlocks := by
        have hside := sideOnly_stealPendingTxs s₂ (s.longestKnowns.headD 0)
          (s₂.longestKnowns.headD 0)
        rw [hsame₂.numBlocks]
        rw [knownHead, hside.sameHeads.knowns] at hnew
        exact hnew
      obtain ⟨txs, hputs, hmem⟩ := stealPendingTxs_spec (hsame₂.treeOk ht)
        (show s.longestKnowns.headD 0 < s₂.numBlocks by rw [hsame₂.numBlocks]; exact hold) hnew₂
      refine ⟨hputs.pend.trans hpend₂, ⟨txs, ?_, fun tx => ?_⟩, hputs.needsRecheck hrecheck₂⟩
      · rw [hputs.unknownTx, hunknown₂]
      · rw [hmem, hhead txs hputs]
        simp only [hsame₂.prevOf_eq, hsame₂.blockTxs_eq]
        rfl
    · refine .inl ⟨?_, hpend₂, hunknown₂, fun _ => hrecheck₂⟩
      simpa [knownHead] using hmoved

end Pettycoin
