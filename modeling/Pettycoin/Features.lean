import Pettycoin.Retarget

/-!
# Pettycoin — voting for features

`block_add` sets the features that are pending after a block: those of the block
before, but at a multiple of 2016 those that three quarters of the last 2016
blocks voted for (`pendingFeatures`).

* `VotedReach` — the chains that come about so;
* `pendingFeatures_testBit` — what the counting loop computes;
* `pendingFeatures_eq_latestVote` — what is pending after any block.
-/

namespace Pettycoin

open Forest ExceptRules

variable {D : Type} {s s' : State D} {a b prev : Nat}

-- ---------------------------------------------------------------------------
-- The vote
-- ---------------------------------------------------------------------------

/-- A block that a vote ends at: at a multiple of 2016, past the genesis block. -/
def VoteBlock (s : State D) (a : Nat) : Prop :=
  0 < a ∧ (s.blk a).depth % protocolFeatureVoteBlocks = 0

/-- The latest one on the chain of `b`. -/
structure LatestVote (s : State D) (b a : Nat) : Prop where
  anc : Anc (prevOf s) a b
  vote : VoteBlock s a
  latest : ∀ x, Anc (prevOf s) x b → VoteBlock s x → Anc (prevOf s) x a

/-- How many of the 2016 blocks ending at `a` vote for feature `j`. -/
def votesFor (s : State D) (a j : Nat) : Nat :=
  (List.range protocolFeatureVoteBlocks).countP fun i =>
    (blockAncestor s a i).any fun b => (s.blk b).hdr.featuresVote.toNat.testBit j

-- ---------------------------------------------------------------------------
-- The counting loop
-- ---------------------------------------------------------------------------

theorem toNat_one_shiftLeft {j : Nat} (hj : j < 8) :
    ((1 : UInt8) <<< UInt8.ofNat j).toNat = 2 ^ j := by
  interval_cases j <;> rfl

/-- The test of a bit. -/
theorem and_bit_ne_zero (v : UInt8) {j : Nat} (hj : j < 8) :
    (v &&& (1 : UInt8) <<< UInt8.ofNat j != 0) = v.toNat.testBit j := by
  rw [Bool.eq_iff_iff, bne_iff_ne, ne_eq, ← UInt8.toNat_inj, UInt8.toNat_and,
    toNat_one_shiftLeft hj, Nat.and_two_pow]
  cases v.toNat.testBit j <;> simp

/-- Setting the bits that pass a test, one after the other. -/
theorem foldl_setBits (p : Nat → Prop) [DecidablePred p] {n i : Nat} (hn : n ≤ 8) :
    ((List.range n).foldl (fun (r : UInt8) j => if p j then r ||| 1 <<< UInt8.ofNat j else r)
      0).toNat.testBit i = true ↔ i < n ∧ p i := by
  induction n with
  | zero => simp
  | succ n ih =>
    rw [List.range_succ, List.foldl_append, List.foldl_cons, List.foldl_nil]
    have hlt := ih (by omega)
    split_ifs with hp
    · rw [UInt8.toNat_or, Nat.testBit_or, toNat_one_shiftLeft (by omega), Nat.testBit_two_pow,
        Bool.or_eq_true, hlt, decide_eq_true_eq]
      constructor
      · rintro (⟨hin, hpi⟩ | rfl)
        · exact ⟨by omega, hpi⟩
        · exact ⟨by omega, hp⟩
      · rintro ⟨hin, hpi⟩
        by_cases heq : n = i
        · exact .inr heq
        · exact .inl ⟨by omega, hpi⟩
    · rw [hlt]
      constructor
      · rintro ⟨hin, hpi⟩
        exact ⟨by omega, hpi⟩
      · rintro ⟨hin, hpi⟩
        refine ⟨Nat.lt_of_le_of_ne (Nat.le_of_lt_succ hin) ?_, hpi⟩
        rintro rfl
        exact hp hpi

/-- The walk of the loop meets the ancestors one after the other. -/
theorem blocksBack_eq (s : State D) (n : Nat) (b : BlockId) :
    blocksBack s n (some b) = (List.range n).filterMap (blockAncestor s b) := by
  induction n generalizing b with
  | zero => rfl
  | succ n ih =>
    unfold blocksBack
    rw [List.range_succ_eq_map, List.filterMap_cons, List.filterMap_map]
    cases hp : (s.blk b).prev with
    | none =>
      have hnone : (blockAncestor s b ∘ Nat.succ) = fun _ => none := by
        funext i
        simp [blockAncestor, hp]
      cases n <;> simp [blocksBack, blockAncestor, hnone]
    | some p =>
      have hsucc : (blockAncestor s b ∘ Nat.succ) = blockAncestor s p := by
        funext i
        simp [blockAncestor, hp]
      rw [ih p, hsucc]
      rfl

/-- **The loop counts the votes**: three quarters set the bit. -/
theorem pendingFeatures_testBit (hdepth : (s.blk a).depth % protocolFeatureVoteBlocks = 0) {j : Nat}
    (hj : j < 8) :
    (pendingFeatures s a).toNat.testBit j = true ↔
      75 * protocolFeatureVoteBlocks ≤ 100 * votesFor s a j := by
  have hcount : ((blocksBack s protocolFeatureVoteBlocks (some a)).map fun b =>
      (s.blk b).hdr.featuresVote).countP (fun v => v &&& (1 : UInt8) <<< UInt8.ofNat j != 0)
      = votesFor s a j := by
    rw [blocksBack_eq, votesFor, List.countP_map, List.countP_filterMap]
    refine List.countP_congr fun i _ => ?_
    cases blockAncestor s a i with
    | none => simp
    | some b => simp [and_bit_ne_zero _ hj]
  unfold pendingFeatures
  rw [if_neg (not_not.mpr hdepth)]
  dsimp only
  rw [foldl_setBits (fun j => _ ≥ 3) (Nat.le_refl 8)]
  rw [hcount]
  unfold protocolFeatureVoteBlocks
  omega

-- ---------------------------------------------------------------------------
-- The chains
-- ---------------------------------------------------------------------------

/-- The states a chain goes through: a genesis block, whatever is pending there; blocks
that `block_add` links below others, each one deeper; and whatever else the program does,
which leaves the blocks what they are. -/
inductive VotedReach [Digest D] : State D → Prop
  | genesis {s : State D} : s.numBlocks = 1 → (s.blk 0).prev = none → (s.blk 0).hdr.depth = 0 →
    VotedReach s
  | add {s : State D} (prev : Nat) (nb : NewBlock D) : VotedReach s → prev < s.numBlocks →
    nb.hdr.depth = (s.blk prev).hdr.depth + 1 → VotedReach (sewBlock s prev nb)
  | other {s s' : State D} : VotedReach s → s'.numBlocks = s.numBlocks →
    (∀ x : Nat, (s'.blk x).header = (s.blk x).header) → VotedReach s'

theorem votedReach_of_nodeReach [Digest D] [DecidableEq D] {E : Env D} (h : NodeReach E s) :
    VotedReach s := by
  refine h.preserves (fun sha merkle nonce2 tailer now opts => .genesis rfl rfl rfl) ?_
  intro s s' hr hstep hok
  rcases hstep.blocks hr with ⟨hn, hheader⟩ | ⟨prev, nb, hadd, rfl⟩
  · exact .other hok hn hheader
  · exact .add prev nb hok hadd.prev_lt hadd.depth

/-- The blocks are a chain below each other, and every one but the genesis block has what
`pending_features` gives for it. -/
structure VotesOk (s : State D) : Prop where
  genesis : 0 < s.numBlocks ∧ (s.blk 0).prev = none ∧ (s.blk 0).hdr.depth = 0
  has_prev : ∀ b : Nat, 0 < b → b < s.numBlocks → ∃ p : Nat, (s.blk b).prev = some p ∧ p < b ∧
    (s.blk b).hdr.depth = (s.blk p).hdr.depth + 1
  set : ∀ b : Nat, 0 < b → b < s.numBlocks → (s.blk b).pendingFeatures = pendingFeatures s b

/-- In both states the blocks of a set have the same header and the same block before,
which is in the set. -/
structure SameBack (P : Nat → Prop) (s s' : State D) : Prop where
  hdr : ∀ x, P x → (s'.blk x).hdr = (s.blk x).hdr
  prev : ∀ x, P x → (s'.blk x).prev = (s.blk x).prev
  closed : ∀ x p, P x → (s.blk x).prev = some p → P p

theorem SameBack.blocksBack {P : Nat → Prop} (h : SameBack P s s') {b : Nat} (hb : P b) (n : Nat) :
    blocksBack s' n (some b) = blocksBack s n (some b) ∧ ∀ x ∈ blocksBack s n (some b), P x := by
  induction n generalizing b with
  | zero => exact ⟨rfl, fun x hx => absurd hx List.not_mem_nil⟩
  | succ n ih =>
    unfold Pettycoin.blocksBack
    rw [h.prev b hb]
    cases hp : (s.blk b).prev with
    | none =>
      cases n <;> exact ⟨rfl, fun x hx => List.mem_singleton.mp hx ▸ hb⟩
    | some p =>
      obtain ⟨heq, hmem⟩ := ih (h.closed b p hb hp)
      rw [heq]
      refine ⟨rfl, fun x hx => ?_⟩
      rcases List.mem_cons.mp hx with rfl | hx
      · exact hb
      · exact hmem x hx

/-- `pending_features` looks at nothing else. -/
theorem SameBack.pendingFeatures {P : Nat → Prop} (h : SameBack P s s') (hb : P b)
    (hprev : ∀ p : Nat, (s.blk b).prev = some p →
      (s'.blk p).pendingFeatures = (s.blk p).pendingFeatures) :
    pendingFeatures s' b = pendingFeatures s b := by
  obtain ⟨heq, hmem⟩ := h.blocksBack hb protocolFeatureVoteBlocks
  have hvotes : (Pettycoin.blocksBack s protocolFeatureVoteBlocks (some b)).map (fun b =>
      (s'.blk b).hdr.featuresVote) = (Pettycoin.blocksBack s protocolFeatureVoteBlocks (some b)).map
        fun b => (s.blk b).hdr.featuresVote :=
    List.map_congr_left fun x hx => by rw [h.hdr x (hmem x hx)]
  unfold Pettycoin.pendingFeatures Block.depth
  rw [heq, hvotes, h.hdr b hb, h.prev b hb]
  split_ifs
  · cases hp : (s.blk b).prev with
    | none => rfl
    | some p => exact hprev p hp
  · rfl

theorem VotesOk.congr (h : VotesOk s) (hn : s'.numBlocks = s.numBlocks)
    (hheader : ∀ x : Nat, (s'.blk x).header = (s.blk x).header) : VotesOk s' := by
  have hhdr : ∀ x : Nat, (s'.blk x).hdr = (s.blk x).hdr := fun x =>
    (congrArg Block.hdr (hheader x) :)
  have hprev : ∀ x : Nat, (s'.blk x).prev = (s.blk x).prev := fun x =>
    (congrArg Block.prev (hheader x) :)
  have hpending : ∀ x : Nat, (s'.blk x).pendingFeatures = (s.blk x).pendingFeatures := fun x =>
    (congrArg Block.pendingFeatures (hheader x) :)
  have hsame : SameBack (fun _ => True) s s' :=
    ⟨fun x _ => hhdr x, fun x _ => hprev x, fun _ _ _ _ => trivial⟩
  refine ⟨?_, fun b hpos hb => ?_, fun b hpos hb => ?_⟩
  · rw [hn, hprev, hhdr]
    exact h.genesis
  · obtain ⟨p, hp, hpb, hdepth⟩ := h.has_prev b hpos (hn ▸ hb)
    exact ⟨p, (hprev b).trans hp, hpb, by rw [hhdr, hhdr, hdepth]⟩
  · rw [hpending, h.set b hpos (hn ▸ hb)]
    exact (hsame.pendingFeatures trivial fun p _ => hpending p).symm

/-- `block_add` computes what is pending with the new block linked to the one before. -/
theorem pendingFeatures_sewBlock [Digest D] (s : State D) (prev : Nat) (nb : NewBlock D) :
    ((sewBlock s prev nb).blk s.numBlocks).pendingFeatures = pendingFeatures { s with
      numBlocks := s.numBlocks + 1
      blk := Function.update s.blk s.numBlocks (newBlock prev (s.blk prev).totalWork nb) }
      s.numBlocks := by
  unfold sewBlock
  dsimp only
  split_ifs <;> simp [State.modBlock, State.emit]

theorem VotesOk.sew [Digest D] (h : VotesOk s) {nb : NewBlock D} (hprev : prev < s.numBlocks)
    (hdepth : nb.hdr.depth = (s.blk prev).hdr.depth + 1) : VotesOk (sewBlock s prev nb) := by
  obtain ⟨features, hblk⟩ := blk_sewBlock nb hprev
  have hn := (sewBlock_same s prev nb).1
  have hold : ∀ x : Nat, x ≠ s.numBlocks → (sewBlock s prev nb).blk x = s.blk x := fun x hx =>
    blk_sewBlock_old hprev hx
  have hnew := pendingFeatures_sewBlock s prev nb
  refine ⟨?_, fun b hpos hb => ?_, fun b hpos hb => ?_⟩
  · rw [hn, hold 0 (Nat.ne_of_lt h.genesis.1)]
    exact ⟨Nat.succ_pos _, h.genesis.2⟩
  · rw [hn] at hb
    by_cases heq : b = s.numBlocks
    · refine ⟨prev, ?_, heq ▸ hprev, ?_⟩
      · rw [heq, hblk, Function.update_self]
        rfl
      · rw [hold prev (Nat.ne_of_lt hprev), heq, hblk, Function.update_self]
        exact hdepth
    · obtain ⟨p, hp, hpb, hd⟩ := h.has_prev b hpos (by omega)
      exact ⟨p, by rw [hold b heq, hp], hpb, by rw [hold b heq, hold p (by omega), hd]⟩
  · rw [hn] at hb
    by_cases heq : b = s.numBlocks
    · -- only what is pending and the complaint are filled in after the call
      subst heq
      rw [hnew]
      refine (SameBack.pendingFeatures (P := fun _ => True) ⟨fun x _ => ?_, fun x _ => ?_,
        fun _ _ _ _ => trivial⟩ trivial fun p hp => ?_).symm
      · by_cases hx : x = s.numBlocks
        · subst hx
          simp [hblk]
        · simp [hold x hx, Function.update_of_ne hx]
      · by_cases hx : x = s.numBlocks
        · subst hx
          simp [hblk]
        · simp [hold x hx, Function.update_of_ne hx]
      · dsimp only at hp
        rw [Function.update_self] at hp
        obtain rfl := Option.some.inj hp
        simp [hold _ (Nat.ne_of_lt hprev), Function.update_of_ne (Nat.ne_of_lt hprev)]
    · have hlt : b < s.numBlocks := by omega
      rw [hold b heq, h.set b hpos hlt]
      have hsame : SameBack (· < s.numBlocks) s (sewBlock s prev nb) := by
        refine ⟨fun x hx => by rw [hold x (by omega)], fun x hx => by rw [hold x (by omega)],
          fun x p hx hp => ?_⟩
        rcases Nat.eq_zero_or_pos x with rfl | hxpos
        · rw [h.genesis.2.1] at hp
          exact absurd hp (by simp)
        · obtain ⟨q, hq, hqx, -⟩ := h.has_prev x hxpos hx
          obtain rfl := Option.some.inj (hp.symm.trans hq)
          exact hqx.trans hx
      refine (hsame.pendingFeatures hlt fun p hp => ?_).symm
      have hplt := hsame.closed b p hlt hp
      rw [hold p (Nat.ne_of_lt hplt)]

theorem votesOk_of_votedReach [Digest D] (h : VotedReach s) : VotesOk s := by
  induction h with
  | genesis hn hprev hdepth =>
    refine ⟨⟨hn ▸ Nat.one_pos, hprev, hdepth⟩, fun b hpos hb => ?_, fun b hpos hb => ?_⟩ <;> omega
  | add prev nb _ hprev hdepth ih => exact ih.sew hprev hdepth
  | other _ hn hheader ih => exact ih.congr hn hheader

-- ---------------------------------------------------------------------------
-- What is pending
-- ---------------------------------------------------------------------------

/-- The walk from a block that a vote ends at does not pass the genesis block, not even
for the block that it stops at. -/
theorem VotesOk.walk (h : VotesOk s) (ha : a < s.numBlocks) (hvote : VoteBlock s a) :
    ∃ g, blockAncestor s a protocolFeatureVoteBlocks = some g := by
  obtain ⟨hpos, hmod⟩ := hvote
  obtain ⟨p, hp, hpa, hdepth⟩ := h.has_prev a hpos ha
  have hback := exists_blockAncestor h.genesis.2.2 h.has_prev (n := 2015) (hpa.trans ha) ?_
  · show ∃ g, blockAncestor s a (2015 + 1) = some g
    unfold blockAncestor
    rw [hp]
    exact hback
  · -- also where the depth has gone round to zero
    unfold Block.depth protocolFeatureVoteBlocks at hmod
    rw [hdepth, UInt32.toNat_add, show (1 : UInt32).toNat = 1 from rfl] at hmod
    have hlt := (s.blk p).hdr.depth.toNat_lt
    by_contra hsmall
    rw [Nat.mod_eq_of_lt (show (s.blk p).hdr.depth.toNat + 1 < 2 ^ 32 by omega)] at hmod
    omega

/-- **What is pending after a block.** The bits that three quarters of the 2016 blocks
voted for that end at the latest multiple of 2016, and before the first one what the
genesis block has. -/
theorem pendingFeatures_eq_latestVote [Digest D] (h : VotedReach s) (hb : b < s.numBlocks) :
    (∃ a, LatestVote s b a ∧
      (∃ g, blockAncestor s a protocolFeatureVoteBlocks = some g) ∧
      ∀ j < 8, (s.blk b).pendingFeatures.toNat.testBit j = true ↔
        75 * protocolFeatureVoteBlocks ≤ 100 * votesFor s a j) ∨
    (∀ a, Anc (prevOf s) a b → ¬ VoteBlock s a) ∧
      (s.blk b).pendingFeatures = (s.blk 0).pendingFeatures := by
  have hok := votesOk_of_votedReach h
  induction b using Nat.strong_induction_on with
  | _ b ih =>
    rcases Nat.eq_zero_or_pos b with rfl | hpos
    · refine .inr ⟨fun a ha hvote => ?_, rfl⟩
      rcases anc_iff_eq_or_parent.mp ha with rfl | ⟨p, hp, -⟩
      · exact absurd hvote.1 (Nat.lt_irrefl 0)
      · rw [prevOf, hok.genesis.2.1] at hp
        exact absurd hp (by simp)
    · obtain ⟨p, hp, hpb, hdepth⟩ := hok.has_prev b hpos hb
      have hset := hok.set b hpos hb
      by_cases hvote : (s.blk b).depth % protocolFeatureVoteBlocks = 0
      · refine .inl ⟨b, ⟨Anc.refl _ _, ⟨hpos, hvote⟩, fun x hx _ => hx⟩,
          hok.walk hb ⟨hpos, hvote⟩, fun j hj => ?_⟩
        rw [hset]
        exact pendingFeatures_testBit hvote hj
      · -- nothing ends here: all is as after the block before
        have hsame : (s.blk b).pendingFeatures = (s.blk p).pendingFeatures := by
          rw [hset, pendingFeatures, if_pos hvote, hp]
        have hback : ∀ x, VoteBlock s x → Anc (prevOf s) x b → Anc (prevOf s) x p := by
          intro x hx hxb
          rcases anc_iff_eq_or_parent.mp hxb with rfl | ⟨q, hq, hxq⟩
          · exact absurd hx.2 hvote
          · obtain rfl := Option.some.inj (hp.symm.trans hq)
            exact hxq
        rcases ih p hpb (hpb.trans hb) with ⟨a, hlatest, hwalk, hbits⟩ | ⟨hnone, hgenesis⟩
        · refine .inl ⟨a, ⟨hlatest.anc.trans (Anc.of_parent hp), hlatest.vote, fun x hx hv =>
            hlatest.latest x (hback x hv hx) hv⟩, hwalk, ?_⟩
          rw [hsame]
          exact hbits
        · exact .inr ⟨fun a ha hv => hnone a (hback a hv ha) hv, hsame.trans hgenesis⟩

/-- All but one of the first 2016 blocks vote for a feature, which is pending behind the last of
them too. -/
theorem pendingFeatures_eq_latestVote_ticking : ∃ s : State IdealDigest, NodeReach idealEnv s ∧
    LatestVote s 2017 2016 ∧ 2015 ≤ votesFor s 2016 0 ∧
    (s.blk 2017).pendingFeatures.toNat.testBit 0 = true := by
  obtain ⟨s, h⟩ := exists_ticking 2017 (by decide) (by decide)
  have hgrows : Grows (prevOf s) := (h.tree (by decide)).tree.grows
  have hvote : VoteBlock s 2016 := by
    refine ⟨by decide, ?_⟩
    unfold Block.depth
    rw [h.depth 2016 (by decide)]
    rfl
  have hanc : Anc (prevOf s) 2016 2017 := Anc.of_parent (h.has_prev (Nat.le_refl 2017) (by decide))
  have hvotes : 2015 ≤ votesFor s 2016 0 := by
    unfold votesFor
    rw [show protocolFeatureVoteBlocks = 2015 + 1 from rfl, List.range_succ, List.countP_append]
    refine Nat.le_add_right_of_le (Nat.le_of_eq ?_)
    have hall : ∀ i ∈ List.range 2015, ((blockAncestor s 2016 i).any fun b =>
        (s.blk b).hdr.featuresVote.toNat.testBit 0) = true := by
      intro i hi
      have hi := List.mem_range.mp hi
      have hback := h.blockAncestor (by decide) (show 2016 - i + i ≤ 2017 by omega)
      rw [Nat.sub_add_cancel (by omega)] at hback
      rw [hback, Option.any_some, h.votes (2016 - i) (by omega) (by omega)]
      rfl
    rw [List.countP_eq_length.mpr hall, List.length_range]
  rcases pendingFeatures_eq_latestVote (votedReach_of_nodeReach h.reach)
    (show 2017 < s.numBlocks by rw [h.numBlocks]; decide) with ⟨a, hlatest, -, hbits⟩ | ⟨hnone, -⟩
  · obtain rfl : a = 2016 := by
      have hlow := (hlatest.latest 2016 hanc hvote).le hgrows
      have hhigh := hlatest.anc.le hgrows
      refine Nat.le_antisymm (Nat.le_of_not_lt fun hlt => ?_) hlow
      obtain rfl : a = 2017 := Nat.le_antisymm hhigh hlt
      have hdepth := hlatest.vote.2
      unfold Block.depth at hdepth
      rw [h.depth 2017 (Nat.le_refl _)] at hdepth
      exact absurd hdepth (by decide)
    exact ⟨s, h.reach, hlatest, hvotes, (hbits 0 (by decide)).mpr (by
      unfold protocolFeatureVoteBlocks
      omega)⟩
  · exact absurd hvote (hnone 2016 hanc)

end Pettycoin
