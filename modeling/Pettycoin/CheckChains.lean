import Pettycoin.HeadsRun

/-!
# Pettycoin — when `check_chains` passes

With the heads right, all that `check_chains` can fail on is that
`preferred_chain` is not `longest_chains[0]` although a longest known leads to
it. That happens when blocks of equal work are on several branches and the one
first heard of is not the first in depth-first order:

* `checkChains_iff` — `check_chains` passes exactly when there is no such tie;
* `blockAdd_ok_iff` — in terms of the state before `block_add` and of the block.
-/

namespace Pettycoin

open Forest KeepBest ExceptRules

variable {D : Type} {s s₁ s' : State D} {prev b : Nat}

-- ---------------------------------------------------------------------------
-- The check on one state
-- ---------------------------------------------------------------------------

/-- A clean block with the work of `longest_chains[0]`, below
`longest_knowns[0]`, on an earlier branch than `longest_chains[0]`. -/
def EarlierTie (s : State D) : Prop :=
  Anc (prevOf s) (knownHead s) (chainHead s) ∧
    ∃ c : Nat, Clean s c ∧ Anc (prevOf s) (knownHead s) c ∧
      workOf s c = workOf s (chainHead s) ∧ Fork (prevOf s) c (chainHead s)

/-- Above `longest_knowns[0]` no clean block is known. -/
theorem unknownBackTo_of_clean (hi : ChainInv s) :
    ∀ {i : Nat}, Clean s i → Anc (prevOf s) (knownHead s) i →
      unknownBackTo s (knownHead s) (s.blk i).depth i = true := by
  have key : ∀ (n i : Nat), (s.blk i).depth = n → Clean s i →
      Anc (prevOf s) (knownHead s) i → unknownBackTo s (knownHead s) n i = true := by
    intro n
    induction n with
    | zero =>
      intro i hd _ hki
      rw [unknownBackTo, hi.tree.anc_eq_of_depth hki (by omega)]
      exact beq_self_eq_true i
    | succ n ih =>
      intro i hd hc hki
      rw [unknownBackTo]
      rcases anc_iff_eq_or_parent.mp hki with heq | ⟨p, hp, hkp⟩
      · rw [heq]
        simp
      · have hlt := hi.tree.prev_lt i p hp
        have hunknown : (s.blk i).allKnown = false := by
          rw [Bool.eq_false_iff]
          intro hflag
          have hk := (hi.heads.knowns.mem _).mp (headD_mem hi.heads.knowns.ne_nil)
          have hle := hk.2 i ⟨hc, (hi.heads.knowns.flag i hc).mp hflag⟩
          have := hi.tree.work_prev i p hp
          rcases hi.tree.anc_work hkp with heq | hlt'
          · rw [knownHead] at heq
            rw [heq] at hle
            omega
          · rw [knownHead] at hlt'
            omega
        have hd' : (s.blk p).depth = n := by
          have := hi.tree.depth_prev i p hp
          omega
        have hpc := hi.tree.anc_clean (Anc.of_parent hp) hc
        rw [prevOf] at hp
        simp only [hunknown, hp, ih p hd' hpc hkp, Bool.not_false, Bool.and_true, Bool.or_eq_true,
          bne_iff_ne]
        exact Or.inr (Nat.ne_of_gt (Nat.zero_lt_of_lt hlt))
  exact fun {i} => key _ i rfl

/-- Whether a longest known leads to a longest chain. -/
theorem isNone_findConnectedPair_iff (hi : ChainInv s) :
    (findConnectedPair s).isNone = true ↔ ¬ Anc (prevOf s) (knownHead s) (chainHead s) := by
  rw [Option.isNone_iff_eq_none, findConnectedPair_eq_none hi.tree]
  constructor
  · intro h
    exact h _ (headD_mem hi.heads.knowns.ne_nil) _ (headD_mem hi.heads.chains.ne_nil)
  · intro h k hk c hc hkc
    exact h (hi.heads.paired k hk c hc hkc)

/-- When a longest known leads to it, `longest_chains[0]` is preferred unless there
is an earlier tie. -/
theorem preferred_eq_chainHead_iff (hi : ChainInv s)
    (hpair : Anc (prevOf s) (knownHead s) (chainHead s)) :
    s.preferredChain = chainHead s ↔ ¬ EarlierTie s := by
  have hhead := (hi.heads.chains.mem _).mp (headD_mem hi.heads.chains.ne_nil)
  have hhead : Best s (Clean s) (chainHead s) := hhead
  have hpref := hi.heads.preferred.best
  have hwork : workOf s s.preferredChain = workOf s (chainHead s) :=
    Nat.le_antisymm (hhead.2 _ hpref.1.1) (hpref.2 _ ⟨hhead.1, hpair⟩)
  constructor
  · rintro heq ⟨-, c, hc, hkc, hw, hfork⟩
    rw [← heq] at hw hfork
    exact hi.heads.preferred.first c hc hkc hw hfork
  · intro hno
    by_contra hne
    -- two blocks of equal work are on different branches
    have not_anc : ∀ {x y : Nat}, x ≠ y → workOf s x = workOf s y → ¬ Anc (prevOf s) x y := by
      intro x y hxy hw hanc
      rcases hi.tree.anc_work hanc with heq | hlt
      · exact hxy heq
      · omega
    rcases fork_total hpref.1.2 hpair (not_anc hne hwork) (not_anc (Ne.symm hne) hwork.symm)
      with hfork | hfork
    · exact hno ⟨hpair, _, hpref.1.1, hpref.1.2, hwork, hfork⟩
    · exact hi.heads.preferred.first _ hhead.1 hpair hwork.symm hfork

/-- With the heads right, `check_chains` passes exactly when there is no earlier
tie. -/
theorem checkChains_iff (hi : ChainInv s) : checkChains s = .ok () ↔ ¬ EarlierTie s := by
  have hchains : (s.longestChains.all fun c => cmpWork s c (s.longestChains.headD 0) == .eq)
      = true := by
    rw [List.all_eq_true]
    intro c hc
    rw [beq_iff_eq, cmpWork, Nat.compare_eq_eq]
    exact hi.heads.chains.level.same c hc _ (headD_mem hi.heads.chains.ne_nil)
  have hknowns : (s.longestKnowns.all fun k => cmpWork s k (s.longestKnowns.headD 0) == .eq)
      = true := by
    rw [List.all_eq_true]
    intro k hk
    rw [beq_iff_eq, cmpWork, Nat.compare_eq_eq]
    exact hi.heads.knowns.level.same k hk _ (headD_mem hi.heads.knowns.ne_nil)
  have hback : unknownBackTo s (s.longestKnowns.headD 0) (s.blk s.preferredChain).depth
      s.preferredChain = true :=
    unknownBackTo_of_clean hi hi.heads.preferred.best.1.1 hi.heads.preferred.best.1.2
  have hpref : (s.blk s.preferredChain).complaint.isNone = true :=
    Option.isNone_iff_eq_none.mpr hi.heads.preferred.best.1.1.2
  have hkclean : (s.longestKnowns.all fun k => (s.blk k).complaint.isNone) = true := by
    rw [List.all_eq_true]
    exact fun k hk => Option.isNone_iff_eq_none.mpr (hi.heads.knowns.clean hk).2
  have hcclean : (s.longestChains.all fun c => (s.blk c).complaint.isNone) = true := by
    rw [List.all_eq_true]
    exact fun c hc => Option.isNone_iff_eq_none.mpr (hi.heads.chains.clean hc).2
  have hcheck : checkChains s
      = assert (s.preferredChain == chainHead s || (findConnectedPair s).isNone) .checkChains := by
    rw [checkChains, chainHead]
    simp only [hchains, hknowns, hback, hpref, hkclean, hcclean, assert, if_true, ok_bind]
    cases s.preferredChain == s.longestChains.headD 0 || (findConnectedPair s).isNone <;> rfl
  have hassert : ∀ (cond : Bool) (f : Fault), assert cond f = .ok () ↔ cond = true := by
    intro cond f
    cases cond <;> simp [assert]
  rw [hcheck, hassert, Bool.or_eq_true, beq_iff_eq, isNone_findConnectedPair_iff hi]
  constructor
  · rintro (heq | hno) htie
    · exact (preferred_eq_chainHead_iff hi htie.1).mp heq htie
    · exact hno htie.1
  · intro hno
    by_cases hpair : Anc (prevOf s) (knownHead s) (chainHead s)
    · exact Or.inl ((preferred_eq_chainHead_iff hi hpair).mpr hno)
    · exact Or.inr hpair

-- ---------------------------------------------------------------------------
-- The check that ends `block_add`
-- ---------------------------------------------------------------------------

/-- The work of the block to be added. -/
def addedWork (s : State D) (prev : Nat) (nb : NewBlock D) : Nat :=
  blockWork nb.tailer.difficulty + workOf s prev

/-- The new block becomes the only longest chain, or the only longest known one
(on a known parent, without transactions). -/
def TakesOver (s : State D) (prev : Nat) (nb : NewBlock D) : Prop :=
  Clean s prev ∧
    (workOf s (chainHead s) < addedWork s prev nb ∨
      workOf s (knownHead s) < addedWork s prev nb ∧ (s.blk prev).allKnown = true ∧
        ∀ i < 2 ^ nb.hdr.shardOrder.toNat, (nb.shardNums[i]?.getD 0).toNat = 0)

/-- A longest known leads to `longest_chains[0]`, the new block does not take over,
and there is an earlier tie or the new block makes one: it gets the work of
`longest_chains[0]` on an earlier branch. -/
def AddTie (s : State D) (prev : Nat) (nb : NewBlock D) : Prop :=
  Anc (prevOf s) (knownHead s) (chainHead s) ∧ ¬ TakesOver s prev nb ∧
    (EarlierTie s ∨
      Clean s prev ∧ Anc (prevOf s) (knownHead s) prev ∧
        addedWork s prev nb = workOf s (chainHead s) ∧ Fork (prevOf s) prev (chainHead s))

section AddTie

variable (hi : ChainInv s) (h : Attached s s₁ prev b)
include hi h

/-- Branches of old blocks are as they were. -/
theorem Attached.fork_old {x y : Nat} (hx : x ≠ b) (hy : y ≠ b) :
    Fork (prevOf s₁) x y ↔ Fork (prevOf s) x y := by
  constructor
  · rintro ⟨f, u, v, hu, hv, hlt, hux, hvy⟩
    have hub : u ≠ b := by
      rintro rfl
      exact hx (h.anc_new hi.tree hux)
    have hvb : v ≠ b := by
      rintro rfl
      exact hy (h.anc_new hi.tree hvy)
    rw [h.prevOf_old hub] at hu
    rw [h.prevOf_old hvb] at hv
    exact ⟨f, u, v, hu, hv, hlt, (h.anc_old hi.tree hx).mp hux, (h.anc_old hi.tree hy).mp hvy⟩
  · rintro ⟨f, u, v, hu, hv, hlt, hux, hvy⟩
    have hnum := h.num
    have := hi.tree.lt_of_prev hu
    have := hi.tree.lt_of_prev hv
    rw [← h.prevOf_old (by omega)] at hu
    rw [← h.prevOf_old (by omega)] at hv
    exact ⟨f, u, v, hu, hv, hlt, (h.anc_old hi.tree hx).mpr hux, (h.anc_old hi.tree hy).mpr hvy⟩

/-- The new block is on an earlier branch when its parent is: among siblings it
comes last. -/
theorem Attached.fork_new {y : Nat} (hy : y < s.numBlocks) :
    Fork (prevOf s₁) b y ↔ Fork (prevOf s) prev y := by
  have hnum := h.num
  constructor
  · rintro ⟨f, u, v, hu, hv, hlt, hub, hvy⟩
    have hyb : y ≠ b := by omega
    have hvle := ((h.anc_old hi.tree hyb).mp hvy).le hi.tree.grows
    have hune : u ≠ b := by omega
    rcases anc_iff_eq_or_parent.mp hub with heq | ⟨p, hp, hup⟩
    · exact absurd heq hune
    · rw [h.prev_new] at hp
      injection hp with hp
      rw [← hp] at hup
      rw [h.prevOf_old hune] at hu
      rw [h.prevOf_old (by omega)] at hv
      exact ⟨f, u, v, hu, hv, hlt, (h.anc_old hi.tree h.prev_ne).mp hup,
        (h.anc_old hi.tree hyb).mp hvy⟩
  · rintro hfork
    have hfork := (h.fork_old hi h.prev_ne (by omega)).mpr hfork
    obtain ⟨f, u, v, hu, hv, hlt, hup, hvy⟩ := hfork
    exact ⟨f, u, v, hu, hv, hlt, hup.trans (Anc.of_parent h.prev_new), hvy⟩

/-- With the old heads, an earlier tie is one of old blocks or made by the new one. -/
theorem Attached.earlierTie_iff (hsame : SameBlocks s₁ s') (hc : chainHead s' = chainHead s)
    (hk : knownHead s' = knownHead s) :
    EarlierTie s' ↔ Anc (prevOf s) (knownHead s) (chainHead s) ∧
      (EarlierTie s ∨ Clean s₁ b ∧ Anc (prevOf s) (knownHead s) prev ∧
        workOf s₁ b = workOf s (chainHead s) ∧ Fork (prevOf s) prev (chainHead s)) := by
  have hch := hi.heads.chains.head_clean
  have hchb := h.clean_ne hch
  have hkb := h.clean_ne hi.heads.knowns.head_clean
  rw [EarlierTie, hc, hk, hsame.prevOf_eq, hsame.workOf_eq, hsame.clean_eq,
    h.anc_old hi.tree hchb, h.workOf_old hchb]
  refine and_congr_right fun hpair => ?_
  constructor
  · rintro ⟨c, hcl, hkc, hw, hfork⟩
    by_cases hcb : c = b
    · subst hcb
      refine Or.inr ⟨hcl, ?_, hw, (h.fork_new hi hch.1).mp hfork⟩
      rcases anc_iff_eq_or_parent.mp hkc with heq | ⟨p, hp, hkp⟩
      · exact absurd heq hkb
      · rw [h.prev_new] at hp
        injection hp with hp
        rw [← hp] at hkp
        exact (h.anc_old hi.tree h.prev_ne).mp hkp
    · rw [h.workOf_old hcb] at hw
      exact Or.inl ⟨hpair, c, (h.clean_old hcb).mp hcl, (h.anc_old hi.tree hcb).mp hkc, hw,
        (h.fork_old hi hcb hchb).mp hfork⟩
  · rintro (⟨-, c, hcl, hkc, hw, hfork⟩ | ⟨hcl, hkp, hw, hfork⟩)
    · have hcb := h.clean_ne hcl
      exact ⟨c, (h.clean_old hcb).mpr hcl, (h.anc_old hi.tree hcb).mpr hkc,
        (h.workOf_old hcb).trans hw, (h.fork_old hi hcb hchb).mpr hfork⟩
    · exact ⟨b, hcl, ((h.anc_old hi.tree h.prev_ne).mpr hkp).trans (Anc.of_parent h.prev_new),
        hw, (h.fork_new hi hch.1).mpr hfork⟩

/-- A tie after the block was added on a clean parent: the old heads were
connected, and the new block beat neither of them. -/
theorem Attached.of_earlierTie (hclean : Clean s₁ b) (hsame : SameBlocks s₁ s')
    (hi' : ChainInv s') (htie : EarlierTie s') :
    Anc (prevOf s) (knownHead s) (chainHead s) ∧
      ¬ workOf s (chainHead s) < workOf s₁ b ∧
      ¬ (workOf s (knownHead s) < workOf s₁ b ∧ Known s₁ b) := by
  obtain ⟨hpair, c, hc, hkc, hw, hfork⟩ := htie
  have hchain : ∀ {x : Nat}, x ∈ s'.longestChains → x ≠ b → x ∈ s.longestChains ∧
      workOf s₁ b ≤ workOf s x := by
    intro x hx hxb
    have hbest := (hi'.heads.chains.mem x).mp hx
    rw [hsame.best_eq, hsame.clean_eq] at hbest
    have hbx := hbest.2 b hclean
    rw [h.workOf_old hxb] at hbx
    refine ⟨(hi.heads.chains.mem x).mpr ⟨(h.clean_old hxb).mp hbest.1, fun y hy => ?_⟩, hbx⟩
    have := hbest.2 y ((h.clean_old (h.clean_ne hy)).mpr hy)
    rwa [h.workOf_old (h.clean_ne hy), h.workOf_old hxb] at this
  have hhead := headD_mem hi'.heads.chains.ne_nil
  have hheadBest := (hi'.heads.chains.mem _).mp hhead
  have hcmem : c ∈ s'.longestChains :=
    (hi'.heads.chains.mem c).mpr ⟨hc, fun y hy => hw ▸ hheadBest.2 y hy⟩
  have hne : c ≠ chainHead s' := by
    rintro heq
    rw [heq] at hfork
    exact not_anc_of_fork hi'.tree.grows hfork (Anc.refl _ _)
  -- one of the two tied blocks is old
  obtain ⟨x, hxmem, hxb, hkx⟩ : ∃ x : Nat, x ∈ s'.longestChains ∧ x ≠ b ∧
      Anc (prevOf s') (knownHead s') x := by
    by_cases hcb : c = b
    · exact ⟨chainHead s', hhead, fun heq => hne (hcb.trans heq.symm), hpair⟩
    · exact ⟨c, hcmem, hcb, hkc⟩
  rw [hsame.prevOf_eq] at hkx
  have hkb : knownHead s' ≠ b := by
    intro heq
    rw [heq] at hkx
    exact hxb (h.anc_new hi.tree hkx)
  rw [h.anc_old hi.tree hxb] at hkx
  have hkbest := (hi'.heads.knowns.mem _).mp (headD_mem hi'.heads.knowns.ne_nil)
  rw [hsame.best_eq, hsame.clean_eq, hsame.known_eq] at hkbest
  have hkmem : knownHead s' ∈ s.longestKnowns := by
    refine (hi.heads.knowns.mem _).mpr ⟨⟨(h.clean_old hkb).mp hkbest.1.1,
      (h.known_old hi.tree hkb).mp hkbest.1.2⟩, fun y hy => ?_⟩
    have hyb := h.clean_ne hy.1
    have := hkbest.2 y ⟨(h.clean_old hyb).mpr hy.1, (h.known_old hi.tree hyb).mpr hy.2⟩
    rwa [h.workOf_old hyb, show s'.longestKnowns.headD 0 = knownHead s' from rfl,
      h.workOf_old hkb] at this
  obtain ⟨hxold, hbx⟩ := hchain hxmem hxb
  have hlevelc := hi.heads.chains.level.same x hxold _ (headD_mem hi.heads.chains.ne_nil)
  have hlevelk := hi.heads.knowns.level.same _ hkmem _ (headD_mem hi.heads.knowns.ne_nil)
  refine ⟨hi.heads.paired _ hkmem x hxold hkx, ?_, ?_⟩
  · rw [chainHead, ← hlevelc]
    omega
  · rintro ⟨hlt, hknown⟩
    have hle := hkbest.2 b ⟨hclean, hknown⟩
    rw [show s'.longestKnowns.headD 0 = knownHead s' from rfl, h.workOf_old hkb, hlevelk] at hle
    rw [knownHead] at hlt
    omega

end AddTie

theorem workOf_sewBlock (nb : NewBlock D) (hprev : prev < s.numBlocks) :
    workOf (sewBlock s prev nb) s.numBlocks = addedWork s prev nb := by
  obtain ⟨features, hblk⟩ := blk_sewBlock nb hprev
  rw [workOf, hblk, Function.update_self]
  rfl

theorem blockAllKnown_sewBlock (nb : NewBlock D) (hprev : prev < s.numBlocks) :
    blockAllKnown (sewBlock s prev nb) s.numBlocks = true ↔
      ∀ i < 2 ^ nb.hdr.shardOrder.toNat, (nb.shardNums[i]?.getD 0).toNat = 0 := by
  obtain ⟨features, hblk⟩ := blk_sewBlock nb hprev
  rw [blockAllKnown, List.all_eq_true]
  simp only [List.mem_range, State.shardOf, hblk, Function.update_self, newBlock, Block.numShards,
    shardAllKnown, newBlockShard, beq_iff_eq]
  exact forall₂_congr fun i _ => eq_comm

/-- As long as the new block takes nothing over, the first heads stay. -/
theorem Attached.fronts_updated (h : Attached s s₁ prev b) (hi : ChainInv s) (hclean : Clean s₁ b)
    (hpair : Anc (prevOf s) (knownHead s) (chainHead s))
    (hchain : ¬ workOf s (chainHead s) < workOf s₁ b)
    (hknown : ¬ (workOf s (knownHead s) < workOf s₁ b ∧ Known s₁ b)) :
    chainHead (updateBlockPtrsNewBlock s₁ b) = chainHead s ∧
      knownHead (updateBlockPtrsNewBlock s₁ b) = knownHead s := by
  have hpclean : Clean s prev := ⟨h.prev_lt, h.complaint_new ▸ hclean.2⟩
  have hn := h.numBlocks
  have hnum := h.num
  obtain ⟨hs₂, hchains, hpend, -, hkeep⟩ := h.compared hi.tree hi.heads hclean
  obtain ⟨hch, hkh⟩ := hkeep hpair hchain
  rw [updateBlockPtrsNewBlock_eq]
  generalize comparedWithChains s₁ b = s₂ at hs₂ hchains hpend hch hkh ⊢
  have ht₂ := hs₂.treeOk (h.treeOk hi.tree)
  rw [(updatePreferredChain_fronts _).1, (updatePreferredChain_fronts _).2]
  by_cases hbk : blockAllKnown s₂ b = true
  · rw [if_pos hbk]
    have hleaf : s₂.children b = [] := by
      rw [List.eq_nil_iff_forall_not_mem]
      intro x hx
      have hxb := (mem_children.mp hx).2
      have hlt := ht₂.prev_lt x b hxb
      rw [hs₂.prevOf_eq] at hxb
      have := h.anc_new hi.tree (Anc.of_parent hxb)
      omega
    have hchb := h.clean_ne hi.heads.chains.head_clean
    obtain ⟨h₁, h₂⟩ := updateKnown_fronts ht₂ hchains.ne_nil hpend.level.ne_nil hleaf
      (by rw [hch, hkh, hs₂.prevOf_eq, h.anc_old hi.tree hchb]; exact hpair) (by
        rintro ⟨hlt, -, hflag, -⟩
        refine hknown ⟨?_, (h.known_new_iff hi.tree).mpr ⟨?_, ?_⟩⟩
        · rwa [hkh, hs₂.workOf_eq, h.workOf_old (h.clean_ne hi.heads.knowns.head_clean)] at hlt
        · have hpflag := hflag prev (by rw [hs₂.prevOf_eq]; exact h.prev_new)
          have hpk := hpend.flag_sound prev (by
            rw [hs₂.clean_eq]
            exact (h.clean_old h.prev_ne).mpr hpclean) hpflag
          rwa [hs₂.known_eq, h.known_old hi.tree h.prev_ne] at hpk
        · rwa [hs₂.blockAllKnown_eq] at hbk)
    exact ⟨h₁.trans hch, h₂.trans hkh⟩
  · rw [if_neg hbk]
    exact ⟨hch, hkh⟩

/-- The tie at the end of `block_add`, told from the state before it. -/
theorem earlierTie_blockAddHeads_iff (hi : ChainInv s) {nb : NewBlock D}
    (ha : (ChainOp.addBlock prev nb).Admitted s) :
    EarlierTie (blockAddHeads s prev nb) ↔ AddTie s prev nb := by
  obtain ⟨hprev, hdepth, hwork⟩ := ha
  have h := attached_sewBlock hprev hdepth hwork
  have hw := workOf_sewBlock nb hprev
  have hall := blockAllKnown_sewBlock nb hprev
  have hn := h.numBlocks
  have hi' := addBlock_inv hi ⟨hprev, hdepth, hwork⟩
  rw [blockAddHeads] at hi' ⊢
  generalize sewBlock s prev nb = s₁ at *
  generalize hb : s.numBlocks = b at *
  cases hc : (s₁.blk b).complaint with
  | some m =>
    rw [Option.isSome_some, if_pos rfl]
    have hpc : ¬ Clean s prev := by
      rintro ⟨-, hnone⟩
      rw [h.complaint_new, hnone] at hc
      exact absurd hc (by simp)
    have hbc : ¬ Clean s₁ b := by
      rintro ⟨-, hnone⟩
      rw [hnone] at hc
      exact absurd hc (by simp)
    rw [h.earlierTie_iff hi (SameBlocks.refl s₁) h.chainHead_eq h.knownHead_eq, AddTie, TakesOver]
    simp only [hpc, hbc, false_and, or_false, not_false_eq_true, true_and]
  | none =>
    rw [hc, Option.isSome_none, if_neg Bool.false_ne_true] at hi'
    rw [Option.isSome_none, if_neg Bool.false_ne_true]
    have hbclean : Clean s₁ b := ⟨by omega, hc⟩
    have hpclean : Clean s prev := ⟨h.prev_lt, h.complaint_new ▸ hc⟩
    have hsame := (h.headsOk_of_clean hi.tree hi.heads hbclean).1
    have htakes : TakesOver s prev nb ↔ workOf s (chainHead s) < workOf s₁ b ∨
        workOf s (knownHead s) < workOf s₁ b ∧ Known s₁ b := by
      rw [TakesOver, h.known_new_iff hi.tree, ← hi.heads.knowns.flag prev hpclean, hall, hw]
      exact and_iff_right hpclean
    constructor
    · intro htie
      obtain ⟨hpair, hle, hnk⟩ := h.of_earlierTie hi hbclean hsame hi' htie
      obtain ⟨hch, hkh⟩ := h.fronts_updated hi hbclean hpair hle hnk
      have hor := ((h.earlierTie_iff hi hsame hch hkh).mp htie).2
      refine ⟨hpair, fun htake => (htakes.mp htake).elim hle hnk, hor.imp_right ?_⟩
      rintro ⟨-, hkp, heq, hfork⟩
      exact ⟨hpclean, hkp, hw ▸ heq, hfork⟩
    · rintro ⟨hpair, hno, hor⟩
      rw [htakes, not_or] at hno
      obtain ⟨hch, hkh⟩ := h.fronts_updated hi hbclean hpair hno.1 hno.2
      refine (h.earlierTie_iff hi hsame hch hkh).mpr ⟨hpair, hor.imp_right ?_⟩
      rintro ⟨-, hkp, heq, hfork⟩
      exact ⟨hbclean, hkp, hw.trans heq, hfork⟩

-- ---------------------------------------------------------------------------
-- The check after an invalidation
-- ---------------------------------------------------------------------------

/-- `longest_chains` is in depth-first order. -/
def ChainsSorted (s : State D) : Prop :=
  s.longestChains.Pairwise fun u v => Anc (prevOf s) u v ∨ Fork (prevOf s) u v

/-- The connected pair found is the first: no longest known precedes an earlier
longest chain. -/
theorem findConnectedPair_first (ht : TreeOk s) {i j m : Nat}
    (h : findConnectedPair s = some (i, j)) (hm : m < i) {k : Nat} (hk : k ∈ s.longestKnowns) :
    ¬ Anc (prevOf s) k (s.longestChains.getD m 0) := by
  intro hkm
  obtain ⟨hi, -, -⟩ := findConnectedPair_eq_some ht h
  obtain ⟨l, hl, rfl⟩ := List.getElem_of_mem hk
  rw [findConnectedPair, List.find?_eq_some_iff_append] at h
  obtain ⟨-, before, after, hsplit, hbefore⟩ := h
  -- the pairs are listed by their first index
  have hsorted : ((List.range s.longestChains.length).flatMap fun i =>
      (List.range s.longestKnowns.length).map fun j => (i, j)).Pairwise
        fun p q => p.1 ≤ q.1 := by
    rw [List.pairwise_flatMap]
    refine ⟨fun i _ => List.pairwise_map.mpr (List.pairwise_of_forall fun _ _ => Nat.le_refl i), ?_⟩
    refine List.pairwise_lt_range.imp fun {x y} hlt p hp q hq => ?_
    obtain ⟨_, _, rfl⟩ := List.mem_map.mp hp
    obtain ⟨_, _, rfl⟩ := List.mem_map.mp hq
    exact Nat.le_of_lt hlt
  have hmem : (m, l) ∈ (List.range s.longestChains.length).flatMap fun i =>
      (List.range s.longestKnowns.length).map fun j => (i, j) :=
    List.mem_flatMap.mpr ⟨m, List.mem_range.mpr (by omega),
      List.mem_map.mpr ⟨l, List.mem_range.mpr hl, rfl⟩⟩
  rw [hsplit] at hsorted hmem
  rcases List.mem_append.mp hmem with hin | hin
  · have := hbefore _ hin
    simp only [Bool.not_eq_true', List.getD_eq_getElem _ _ hl] at this
    rw [Bool.eq_false_iff] at this
    exact this ((blockPreceeds_iff ht).mpr hkm)
  · rcases List.mem_cons.mp hin with heq | hin
    · injection heq with h1 _
      omega
    · have hle := (List.pairwise_cons.mp (List.pairwise_append.mp hsorted).2.1).1 _ hin
      simp only at hle
      omega

/-- With `longest_chains` in depth-first order, the pair that
`order_block_pointers` moves to the front has no earlier tie. -/
theorem not_earlierTie_orderBlockPointers (ht : TreeOk s) (hc : ChainsOk s)
    (hk : s.longestKnowns ≠ []) (hsorted : ChainsSorted s) : ¬ EarlierTie (orderBlockPointers s) := by
  rw [orderBlockPointers]
  cases hfind : findConnectedPair s with
  | none =>
    rintro ⟨hpair, -⟩
    exact (findConnectedPair_eq_none ht).mp hfind _ (headD_mem hk) _ (headD_mem hc.ne_nil) hpair
  | some ij =>
    obtain ⟨i, j⟩ := ij
    obtain ⟨hi, hj, hpre⟩ := findConnectedPair_eq_some ht hfind
    rintro ⟨-, c, hcl, hkc, hw, hfork⟩
    have hhead : chainHead { s with
        longestChains := swapToFront s.longestChains i
        longestKnowns := swapToFront s.longestKnowns j } = s.longestChains.getD i 0 :=
      headD_swapToFront hi
    have hkhead : knownHead { s with
        longestChains := swapToFront s.longestChains i
        longestKnowns := swapToFront s.longestKnowns j } = s.longestKnowns.getD j 0 :=
      headD_swapToFront hj
    rw [hhead] at hw hfork
    rw [hkhead] at hkc
    change Anc (prevOf s) _ c at hkc
    change workOf s c = workOf s _ at hw
    change Fork (prevOf s) c _ at hfork
    rw [List.getD_eq_getElem _ _ hi] at hw hfork
    have hbest := (hc.mem _).mp (List.getElem_mem hi)
    have hmem : c ∈ s.longestChains :=
      (hc.mem c).mpr ⟨hcl, fun y hy => hw ▸ hbest.2 y hy⟩
    obtain ⟨m, hm, hcm⟩ := List.getElem_of_mem hmem
    rcases Nat.lt_trichotomy m i with hlt | heq | hgt
    · refine findConnectedPair_first ht hfind hlt (k := s.longestKnowns.getD j 0) ?_ ?_
      · rw [List.getD_eq_getElem _ _ hj]
        exact List.getElem_mem hj
      · rw [List.getD_eq_getElem _ _ hm, hcm]
        exact hkc
    · subst heq
      rw [hcm] at hfork
      exact not_anc_of_fork ht.grows hfork (Anc.refl _ _)
    · have hrel := List.pairwise_iff_getElem.mp hsorted i m hi hm hgt
      rw [hcm] at hrel
      rcases hrel with hanc | hfork'
      · rcases ht.anc_work hanc with heq | hlt
        · rw [heq] at hfork
          exact not_anc_of_fork ht.grows hfork (Anc.refl _ _)
        · omega
      · exact hfork'.asymm ht.grows hfork

/-- An earlier tie is about the blocks and the first heads. -/
theorem SameHeads.earlierTie_iff (h : SameHeads s s') : EarlierTie s' ↔ EarlierTie s := by
  rw [EarlierTie, EarlierTie, chainHead, chainHead, knownHead, knownHead, h.chains, h.knowns,
    h.prevOf_eq, h.workOf_eq, h.clean_eq]

/-- `update_known`, when it changes something, leaves no earlier tie behind if
`longest_chains` is in depth-first order. -/
theorem not_earlierTie_updateKnown (ht : TreeOk s) (hb : b < s.numBlocks) (hc : ChainsOk s)
    (hpend : KnownsPending s b) (hsorted : ChainsSorted s)
    (hchanged : (updateKnownRecursive s.numBlocks s b).2 = true) :
    ¬ EarlierTie (updateKnown s b) := by
  obtain ⟨hsame, hknowns, hchains, -, -⟩ := hpend.recursive ht hb
  rw [updateKnown]
  generalize updateKnownRecursive s.numBlocks s b = r at hsame hknowns hchains hchanged ⊢
  obtain ⟨s₁, changed⟩ := r
  simp only at hsame hknowns hchains hchanged ⊢
  subst hchanged
  have hside : SideOnly s₁ s₁.setNeedsRecheck := ⟨_, _, rfl⟩
  have hsame₁ := hside.sameHeads.toSameBlocks
  have hsorted₁ : ChainsSorted s₁.setNeedsRecheck := by
    rw [ChainsSorted, hsame₁.prevOf_eq, hsame.prevOf_eq,
      show s₁.setNeedsRecheck.longestChains = s.longestChains from hchains]
    exact hsorted
  have hno := not_earlierTie_orderBlockPointers (s := s₁.setNeedsRecheck)
    (hsame₁.treeOk (hsame.treeOk ht))
    ((hc.congr hsame (hchains ▸ List.Perm.refl _)).congr hsame₁ (List.Perm.refl _))
    hknowns.ne_nil hsorted₁
  have hno' : ¬ EarlierTie (updatePreferredChain (orderBlockPointers s₁.setNeedsRecheck)) := hno
  simp only [Bool.not_true, Bool.false_eq_true, if_false]
  split_ifs
  · rw [(sideOnly_stealPendingTxs _ _ _).sameHeads.earlierTie_iff]
    exact hno'
  · exact hno'

/-- The recalculated heads have no earlier tie. -/
theorem not_earlierTie_recalculateHeads (ht : TreeOk s) (hall : blockAllKnown s 0 = true)
    (hflag : ∀ c : Nat, Clean s c → (s.blk c).allKnown = true → Known s c) :
    ¬ EarlierTie (recalculateHeads s) := by
  obtain ⟨s₀, hrecalc, hsame, hc, hpend, -, hchanged, hchains, -⟩ :=
    recalculateHeads_start ht hall hflag
  have ht₀ := hsame.treeOk ht
  have hsorted : ChainsSorted s₀ := by
    rw [ChainsSorted, hchains, hsame.prevOf_eq]
    refine List.Pairwise.sublist (foldl_keepBest_sublist _ _) ?_
    rw [List.singleton_append, List.pairwise_cons]
    refine ⟨fun x hx => Or.inl ?_, pairwise_preorder ht.grows (childrenOf s) _ _ _ _⟩
    exact ((mem_cleanSearch ht ht.genesis_lt).mp hx).2
  rw [hrecalc]
  exact not_earlierTie_updateKnown ht₀ ht₀.genesis_lt hc hpend hsorted hchanged

-- ---------------------------------------------------------------------------
-- Every run
-- ---------------------------------------------------------------------------

/-- Two branches above the genesis block, the later one longer. -/
def tieNode : State IdealDigest :=
  blockAddHeads (blockAddHeads (blockAddHeads idealNode 0 (idealChild 1 1)) 0 (idealChild 1 2)) 2
    (idealChild 2 3)

theorem chainReach_tieNode : ChainReach idealCrypto tieNode := by
  refine ChainReach.step (.addBlock 2 (idealChild 2 3)) ?_ ⟨by decide, by decide, by decide⟩ rfl
  refine ChainReach.step (.addBlock 0 (idealChild 1 2)) ?_ ⟨by decide, by decide, by decide⟩ rfl
  exact chainReach_idealChild

/-- When the earlier branch catches up, `check_chains` aborts the daemon:
`preferred_chain` is the new block, `longest_chains[0]` the older one, and the
genesis block precedes both. -/
theorem blockAdd_aborts :
    ChainReach idealCrypto tieNode ∧ (ChainOp.addBlock 1 (idealChild 2 4)).Admitted tieNode ∧
    (blockAdd tieNode 1 (idealChild 2 4)).toOption.isNone = true :=
  ⟨chainReach_tieNode, ⟨by decide, by decide, by decide⟩, by decide⟩

/-- **When `check_chains` passes.** In every run, the check that ends `block_add`
passes exactly when the block neither meets nor makes an earlier tie, and the
check that ends an invalidation always passes. -/
theorem checkChains_passes_iff [Digest D] {C : Crypto D} (h : ChainReach C s) :
    (∀ prev nb, (ChainOp.addBlock prev nb).Admitted s →
      ((∃ r, blockAdd s prev nb = .ok r) ↔ ¬ AddTie s prev nb)) ∧
    (∀ b complaint, (ChainOp.invalidate b complaint).Admitted s →
      ∃ s', updateBlockPtrsInvalidated (markComplaint s b complaint) b = .ok s') := by
  have hi := chainInv_of_chainReach h
  refine ⟨fun prev nb ha => ?_, fun b complaint ha => ?_⟩
  · rw [← earlierTie_blockAddHeads_iff hi ha, ← checkChains_iff (addBlock_inv hi ha), blockAdd]
    simp only [bind_eq_ok]
    constructor
    · rintro ⟨_, _, hcheck, -⟩
      exact hcheck
    · exact fun hcheck => ⟨_, _, hcheck, rfl⟩
  · have hrec := hi.recalculable.markComplaint complaint ha
    have hcheck := (checkChains_iff hrec.inv).mpr
      (not_earlierTie_recalculateHeads hrec.tree hrec.genesis hrec.flag)
    rw [updateBlockPtrsInvalidated]
    simp only [hcheck, ok_bind]
    exact ⟨_, rfl⟩

/-- On the two branches the check passes for a block on the longer one. -/
theorem checkChains_passes_iff_tieNode :
    (∃ r, blockAdd tieNode 3 (idealChild 3 4) = .ok r) ↔ ¬ AddTie tieNode 3 (idealChild 3 4) :=
  (checkChains_passes_iff chainReach_tieNode).1 3 (idealChild 3 4)
    ⟨by decide, by decide, by decide⟩

end Pettycoin
