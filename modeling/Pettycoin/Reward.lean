import Pettycoin.CheckTx
import Pettycoin.HeadsRun
import Pettycoin.IdealHash
import Pettycoin.Quiet

/-!
# Pettycoin — the reward for a block

Which transaction decides the reward for a block is drawn by the block that ends
the period, `reward_end`, from all transactions of the reward block. `reward_get_tx`
asks `block_ancestor` for the difference of the wrong two depths, and `num_txs`
returns the number of shards. When it draws right all the same is known exactly
(`reward_agreed_iff`).

* `getShardAndOff_of_lt` — the position that a number is drawn for;
* `rewardGetTx_selected_iff` — when it is the right one;
* `reward_null_ancestor` — a claim that goes back too far;
* `reward_agreed_iff` — when all claims agree.
-/

namespace Pettycoin

open ExceptRules Forest

variable {D : Type} {s : State D} {a b : Nat}

-- ---------------------------------------------------------------------------
-- Positions by index
-- ---------------------------------------------------------------------------

/-- The transactions of that many shards, from shard `i` on. -/
def txsFrom (blk : Block D) (i n : Nat) : Nat := ((List.range' i n).map blk.shardSize).sum

/-- The `total` that `num_txs` adds up. -/
def totalTxs (blk : Block D) : Nat := txsFrom blk 0 blk.numShards

/-- The index of a position among all transactions of the block. -/
def txIndex (blk : Block D) (pos : Nat × Nat) : Nat := txsFrom blk 0 pos.1 + pos.2

theorem txsFrom_succ (blk : Block D) (i n : Nat) :
    txsFrom blk i (n + 1) = blk.shardSize i + txsFrom blk (i + 1) n := rfl

/-- **`get_shard_and_off`** finds the position of every index there is. -/
theorem getShardAndOff_of_lt (blk : Block D) {fuel i n : Nat} (h : n < txsFrom blk i fuel) :
    ∃ k m, getShardAndOff blk fuel i n = .ok (i + k, m) ∧ k < fuel ∧
      m < blk.shardSize (i + k) ∧ txsFrom blk i k + m = n := by
  induction fuel generalizing i n with
  | zero => exact absurd h (Nat.not_lt_zero n)
  | succ fuel ih =>
    unfold getShardAndOff
    split_ifs with hn
    · refine ⟨0, n, rfl, Nat.succ_pos fuel, hn, ?_⟩
      show 0 + n = n
      omega
    · rw [txsFrom_succ] at h
      obtain ⟨k, m, hpos, hk, hm, hidx⟩ := ih (show n - blk.shardSize i < txsFrom blk (i + 1) fuel by omega)
      refine ⟨k + 1, m, ?_, by omega, ?_, ?_⟩
      · rw [hpos]
        congr 2
        omega
      · rw [show i + (k + 1) = i + 1 + k by omega]
        exact hm
      · rw [txsFrom_succ]
        omega

/-- For an index too large it aborts. -/
theorem getShardAndOff_of_ge (blk : Block D) {fuel i n : Nat} (h : txsFrom blk i fuel ≤ n) :
    getShardAndOff blk fuel i n = .error .rewardIndex := by
  induction fuel generalizing i n with
  | zero => rfl
  | succ fuel ih =>
    rw [txsFrom_succ] at h
    unfold getShardAndOff
    rw [if_neg (by omega)]
    exact ih (by omega)

theorem txsFrom_add (blk : Block D) (i k n : Nat) :
    txsFrom blk i (k + n) = txsFrom blk i k + txsFrom blk (i + k) n := by
  unfold txsFrom
  rw [← List.sum_append, ← List.map_append]
  congr 2
  simp [List.range'_append_1]

/-- Two positions with the same index are the same. -/
theorem txIndex_inj (blk : Block D) {pos pos' : Nat × Nat} (hoff : pos.2 < blk.shardSize pos.1)
    (hoff' : pos'.2 < blk.shardSize pos'.1) (heq : txIndex blk pos = txIndex blk pos') :
    pos = pos' := by
  have hle : ∀ {p q : Nat × Nat}, q.2 < blk.shardSize q.1 → txIndex blk p = txIndex blk q →
      p.1 ≤ q.1 := by
    intro p q hq h
    by_contra hlt
    obtain ⟨n, hn⟩ := Nat.exists_eq_add_of_lt (Nat.lt_of_not_le hlt)
    unfold txIndex at h
    rw [hn, show q.1 + n + 1 = q.1 + (n + 1) by omega, txsFrom_add, txsFrom_succ, Nat.zero_add] at h
    omega
  have hshard : pos.1 = pos'.1 := Nat.le_antisymm (hle hoff' heq) (hle hoff heq.symm)
  have hidx : pos.2 = pos'.2 := by
    unfold txIndex at heq
    rw [hshard] at heq
    omega
  exact Prod.ext hshard hidx

theorem blockEmpty_eq_false (h : 0 < totalTxs (s.blk b)) : blockEmpty s b = false := by
  rw [Bool.eq_false_iff]
  intro hempty
  have hzero : ∀ i n, i + n ≤ (s.blk b).numShards → txsFrom (s.blk b) i n = 0 := by
    intro i n hin
    induction n generalizing i with
    | zero => rfl
    | succ n ih =>
      have hi := List.all_eq_true.mp hempty i (List.mem_range.mpr (by omega))
      rw [txsFrom_succ, ih (i + 1) (by omega), beq_iff_eq.mp hi]
  unfold totalTxs at h
  rw [hzero 0 _ (by omega)] at h
  exact absurd h (Nat.lt_irrefl 0)

-- ---------------------------------------------------------------------------
-- Ancestors by depth
-- ---------------------------------------------------------------------------

/-- `block_ancestor` finds the block that many levels up. -/
theorem blockAncestor_eq_some (ht : TreeOk s) {n : Nat} (hb : b < s.numBlocks) :
    blockAncestor s b n = some a ↔
      Anc (prevOf s) a b ∧ (s.blk a).depth + n = (s.blk b).depth := by
  induction n generalizing b with
  | zero =>
    unfold blockAncestor
    constructor
    · intro h
      obtain rfl := Option.some.inj h
      exact ⟨Anc.refl _ _, Nat.add_zero _⟩
    · rintro ⟨hanc, hd⟩
      rw [ht.anc_eq_of_depth hanc (by omega)]
  | succ n ih =>
    unfold blockAncestor
    cases hp : (s.blk b).prev with
    | none =>
      refine iff_of_false (by simp) ?_
      rintro ⟨hanc, hd⟩
      rcases anc_iff_eq_or_parent.mp hanc with rfl | ⟨p, hpp, -⟩
      · omega
      · rw [show prevOf s b = none from hp] at hpp
        exact absurd hpp (by simp)
    | some p =>
      have hdp := ht.depth_prev b p hp
      dsimp only
      rw [ih (ht.anc_lt (Anc.of_parent hp) hb)]
      constructor
      · rintro ⟨hanc, hd⟩
        exact ⟨hanc.trans (Anc.of_parent hp), by omega⟩
      · rintro ⟨hanc, hd⟩
        rcases anc_iff_eq_or_parent.mp hanc with rfl | ⟨p', hp', hap⟩
        · omega
        · rw [show prevOf s b = some p from hp] at hp'
          obtain rfl := Option.some.inj hp'
          exact ⟨hap, by omega⟩

/-- There is one block at a depth of a chain at most. -/
theorem TreeOk.anc_depth_unique (ht : TreeOk s) {x y c : Nat} (hx : Anc (prevOf s) x c)
    (hy : Anc (prevOf s) y c) (hd : (s.blk x).depth = (s.blk y).depth) : x = y := by
  rcases hx.total hy with hxy | hyx
  · exact ht.anc_eq_of_depth hxy (by omega)
  · exact (ht.anc_eq_of_depth hyx (by omega)).symm

-- ---------------------------------------------------------------------------
-- The draw
-- ---------------------------------------------------------------------------

/-- The depth at which the reward for a block is decided. -/
def rewardEnd (blk : Block D) : Nat :=
  (blk.depth + protocolRewardPeriod.toNat - 1) / protocolRewardPeriod.toNat
    * protocolRewardPeriod.toNat

/-- How far `reward_get_tx` goes back from the claim block: the depth of the reward
block less the end of the period, in 32 bits. -/
def rewardBack (blk : Block D) : Nat :=
  (blk.hdr.depth - (blk.hdr.depth + protocolRewardPeriod - 1) / protocolRewardPeriod
    * protocolRewardPeriod).toNat

theorem rewardEnd_ge (blk : Block D) : blk.depth ≤ rewardEnd blk := by
  unfold rewardEnd
  rw [show protocolRewardPeriod.toNat = 100 from rfl]
  omega

/-- In 32 bits the end of the period comes no later. -/
theorem rewardEnd_ge_toNat (blk : Block D) :
    ((blk.hdr.depth + protocolRewardPeriod - 1) / protocolRewardPeriod
      * protocolRewardPeriod).toNat ≤ rewardEnd blk := by
  have hlt := blk.hdr.depth.toNat_lt
  unfold rewardEnd Block.depth
  rw [UInt32.toNat_mul, UInt32.toNat_div, UInt32.toNat_sub, UInt32.toNat_add,
    show protocolRewardPeriod.toNat = 100 from rfl, show (1 : UInt32).toNat = 1 from rfl]
  have hwrap : (2 ^ 32 - 1 + (blk.hdr.depth.toNat + 100) % 2 ^ 32) % 2 ^ 32
      ≤ blk.hdr.depth.toNat + 100 - 1 := by omega
  exact (Nat.mod_le _ _).trans (Nat.mul_le_mul_right _ (Nat.div_le_div_right hwrap))

section

variable [Digest D] {C : Crypto D}

/-- What is drawn for the reward block by that decider. -/
def rewardDraw (C : Crypto D) (s : State D) (rewardBlock decider : BlockId) : Nat :=
  digestNum (merkleTwoHashes C (s.blk rewardBlock).sha (s.blk decider).sha)

/-- This position decides the reward: it has the index drawn, among all transactions
of the reward block, by the block at the end of the period on the way to the claim. -/
def RewardSelected (C : Crypto D) (s : State D) (rewardBlock claimBlock : BlockId)
    (pos : Nat × Nat) : Prop :=
  pos.1 < (s.blk rewardBlock).numShards ∧ pos.2 < (s.blk rewardBlock).shardSize pos.1 ∧
    ∃ decider, Anc (prevOf s) decider claimBlock ∧
      (s.blk decider).depth = rewardEnd (s.blk rewardBlock) ∧
      txIndex (s.blk rewardBlock) pos
        = rewardDraw C s rewardBlock decider % totalTxs (s.blk rewardBlock)

/-- The claims on one chain agree on what decides the reward. -/
theorem RewardSelected.agree (ht : TreeOk s) {rewardBlock c c' : Nat} {pos pos' : Nat × Nat}
    (hcc : Anc (prevOf s) c c') (h : RewardSelected C s rewardBlock c pos)
    (h' : RewardSelected C s rewardBlock c' pos') : pos = pos' := by
  obtain ⟨-, hoff, x, hx, hdx, hidx⟩ := h
  obtain ⟨-, hoff', y, hy, hdy, hidx'⟩ := h'
  obtain rfl := ht.anc_depth_unique (hx.trans hcc) hy (hdx.trans hdy.symm)
  exact txIndex_inj _ hoff hoff' (hidx.trans hidx'.symm)

/-- The block that `reward_get_tx` takes for the decider draws what the one at the end
of the period draws. -/
def DrawsRight (C : Crypto D) (s : State D) (rewardBlock claimBlock : BlockId) : Prop :=
  ∃ taken decider, Anc (prevOf s) taken claimBlock ∧
    (s.blk taken).depth + rewardBack (s.blk rewardBlock) = (s.blk claimBlock).depth ∧
    Anc (prevOf s) decider claimBlock ∧
    (s.blk decider).depth = rewardEnd (s.blk rewardBlock) ∧
    rewardDraw C s rewardBlock taken % (s.blk rewardBlock).numShards
      = rewardDraw C s rewardBlock decider % totalTxs (s.blk rewardBlock)

/-- What is left of `reward_get_tx` for a claim past the end of the period. -/
theorem rewardGetTx_eq (ht : TreeOk s) {rewardBlock claimBlock : Nat}
    (htxs : 0 < totalTxs (s.blk rewardBlock)) (hanc : Anc (prevOf s) rewardBlock claimBlock)
    (hpast : rewardEnd (s.blk rewardBlock) < (s.blk claimBlock).depth) :
    rewardGetTx C s rewardBlock claimBlock
      = match blockAncestor s claimBlock (rewardBack (s.blk rewardBlock)) with
        | none => .error .nullPointer
        | some decider =>
          (getShardAndOff (s.blk rewardBlock) (s.blk rewardBlock).numShards 0
            (rewardDraw C s rewardBlock decider % numTxs (s.blk rewardBlock))) >>=
              fun pos => .ok (some pos) := by
  have hlate : ¬ (s.blk claimBlock).hdr.depth ≤
      ((s.blk rewardBlock).hdr.depth + protocolRewardPeriod - 1) / protocolRewardPeriod
        * protocolRewardPeriod := by
    intro hle
    have hle' := UInt32.le_iff_toNat_le.mp hle
    have hend := rewardEnd_ge_toNat (s.blk rewardBlock)
    change _ < (s.blk claimBlock).hdr.depth.toNat at hpast
    omega
  unfold rewardGetTx
  dsimp only
  rw [if_neg (by rw [blockEmpty_eq_false htxs]; simp),
    if_neg (by rw [(blockPreceeds_iff ht).mpr hanc]; simp), if_neg hlate]
  rfl

/-- For a block with transactions, and a claim past the end of its period,
`reward_get_tx` returns the position that decides the reward exactly when it draws
right. -/
theorem rewardGetTx_selected_iff (ht : TreeOk s) {rewardBlock claimBlock : Nat}
    (hclaim : claimBlock < s.numBlocks) (hanc : Anc (prevOf s) rewardBlock claimBlock)
    (htxs : 0 < totalTxs (s.blk rewardBlock))
    (hpast : rewardEnd (s.blk rewardBlock) < (s.blk claimBlock).depth) :
    (∃ pos, rewardGetTx C s rewardBlock claimBlock = .ok (some pos) ∧
        RewardSelected C s rewardBlock claimBlock pos) ↔
      DrawsRight C s rewardBlock claimBlock := by
  rw [rewardGetTx_eq ht htxs hanc hpast]
  constructor
  · rintro ⟨pos, hpos, hshard, hoff, decider, hdec, hdepth, hidx⟩
    cases htaken : blockAncestor s claimBlock (rewardBack (s.blk rewardBlock)) with
    | none =>
      rw [htaken] at hpos
      exact absurd hpos (by simp)
    | some taken =>
      rw [htaken] at hpos
      obtain ⟨hanct, hdeptht⟩ := (blockAncestor_eq_some ht hclaim).mp htaken
      obtain ⟨pos', hpos', heq⟩ := of_bind_eq_ok hpos
      injection heq with heq
      obtain rfl := Option.some.inj heq
      refine ⟨taken, decider, hanct, hdeptht, hdec, hdepth, ?_⟩
      have hlt : rewardDraw C s rewardBlock taken % numTxs (s.blk rewardBlock)
          < totalTxs (s.blk rewardBlock) := by
        by_contra hge
        rw [getShardAndOff_of_ge _ (Nat.le_of_not_lt hge)] at hpos'
        exact absurd hpos' (by simp)
      obtain ⟨k, m, hfound, -, -, hsum⟩ := getShardAndOff_of_lt _ hlt
      rw [hfound] at hpos'
      injection hpos' with hpos'
      rw [← hidx, ← hpos']
      unfold txIndex
      dsimp only
      rw [Nat.zero_add, hsum]
      rfl
  · rintro ⟨taken, decider, hanct, hdeptht, hdec, hdepth, hdraw⟩
    have hlt : rewardDraw C s rewardBlock taken % numTxs (s.blk rewardBlock)
        < totalTxs (s.blk rewardBlock) := by
      unfold numTxs
      rw [hdraw]
      exact Nat.mod_lt _ htxs
    obtain ⟨k, m, hfound, hk, hm, hsum⟩ := getShardAndOff_of_lt _ hlt
    rw [(blockAncestor_eq_some ht hclaim).mpr ⟨hanct, hdeptht⟩]
    dsimp only
    rw [hfound]
    refine ⟨_, rfl, ?_, hm, decider, hdec, hdepth, ?_⟩
    · show 0 + k < _
      omega
    · rw [← hdraw]
      unfold txIndex
      dsimp only
      rw [Nat.zero_add, hsum]
      rfl

/-- The claims from the end of the period up to `claimBlock` all get one position, and
it is the one that decides the reward. -/
def RewardAgreed (C : Crypto D) (s : State D) (rewardBlock claimBlock : BlockId) : Prop :=
  ∃ pos, RewardSelected C s rewardBlock claimBlock pos ∧
    ∀ c, Anc (prevOf s) c claimBlock → rewardEnd (s.blk rewardBlock) < (s.blk c).depth →
      rewardGetTx C s rewardBlock c = .ok (some pos)

/-- **When the reward is drawn right.** For every block with transactions and every
chain past the end of its period, all claims on the chain get the position that decides
the reward exactly when for each of them the block taken for the decider happens to
draw what the right one draws. All that matters of the state is that its blocks form a
tree, as in every state reached. -/
theorem reward_agreed_iff (ht : TreeOk s) {rewardBlock claimBlock : Nat}
    (hclaim : claimBlock < s.numBlocks) (hanc : Anc (prevOf s) rewardBlock claimBlock)
    (htxs : 0 < totalTxs (s.blk rewardBlock))
    (hpast : rewardEnd (s.blk rewardBlock) < (s.blk claimBlock).depth) :
    RewardAgreed C s rewardBlock claimBlock ↔
      ∀ c, Anc (prevOf s) c claimBlock → rewardEnd (s.blk rewardBlock) < (s.blk c).depth →
        DrawsRight C s rewardBlock c := by
  have hc : ∀ c, Anc (prevOf s) c claimBlock → rewardEnd (s.blk rewardBlock) < (s.blk c).depth →
      c < s.numBlocks ∧ Anc (prevOf s) rewardBlock c := by
    intro c hcc hcpast
    refine ⟨ht.anc_lt hcc hclaim, ?_⟩
    rcases hanc.total hcc with hrc | hcr
    · exact hrc
    · have hdepth := ht.anc_depth hcr
      have hend := rewardEnd_ge (s.blk rewardBlock)
      omega
  constructor
  · rintro ⟨pos, ⟨hshard, hoff, decider, hdec, hdepth, hidx⟩, hall⟩ c hcc hcpast
    obtain ⟨hclt, hrc⟩ := hc c hcc hcpast
    refine (rewardGetTx_selected_iff ht hclt hrc htxs hcpast).mp ⟨pos, hall c hcc hcpast,
      hshard, hoff, decider, ?_, hdepth, hidx⟩
    -- the decider is on the way to every claim past it
    rcases hdec.total hcc with hdc | hcd
    · exact hdc
    · have hle := ht.anc_depth hcd
      omega
  · intro hdraws
    obtain ⟨pos, -, hsel⟩ := (rewardGetTx_selected_iff ht hclaim hanc htxs hpast).mpr
      (hdraws claimBlock (Anc.refl _ _) hpast)
    refine ⟨pos, hsel, ?_⟩
    intro c hcc hcpast
    obtain ⟨hclt, hrc⟩ := hc c hcc hcpast
    obtain ⟨pos', hget, hsel'⟩ := (rewardGetTx_selected_iff ht hclt hrc htxs hcpast).mpr
      (hdraws c hcc hcpast)
    rw [hget, hsel'.agree ht hcc hsel]

end

-- ---------------------------------------------------------------------------
-- A chain past the end of a period
-- ---------------------------------------------------------------------------

/-- A chain of that many blocks after the genesis block, each with one transaction. -/
def rewardChain : Nat → State IdealDigest
  | 0 => idealNode
  | n + 1 => blockAddHeads (rewardChain n) n (idealChild (UInt32.ofNat (n + 1)) (UInt8.ofNat n))

/-- What the node knows after `n` blocks. -/
structure IsRewardChain (n : Nat) (s : State IdealDigest) : Prop where
  numBlocks : s.numBlocks = n + 1
  inputhash : s.inputhash = []
  depth : ∀ b ≤ n, (s.blk b).hdr.depth = UInt32.ofNat b
  prev : ∀ b < n, prevOf s (b + 1) = some b
  shardOrder : ∀ b < n, (s.blk (b + 1)).hdr.shardOrder = protocolInitialShardOrder
  shardNums : ∀ b < n, (s.blk (b + 1)).shardNums = [1, 0, 0, 0]
  feesTo : ∀ b < n, (s.blk (b + 1)).hdr.feesTo = idealGenesis.hdr.feesTo

theorem isRewardChain (n : Nat) : IsRewardChain n (rewardChain n) := by
  induction n with
  | zero =>
    refine ⟨rfl, rfl, ?_, ?_, ?_, ?_, ?_⟩
    · intro b hb
      obtain rfl := Nat.le_zero.mp hb
      rfl
    all_goals exact fun b hb => absurd hb (Nat.not_lt_zero b)
  | succ n ih =>
    obtain ⟨hnum, hinput, hdepth, hprev, horder, hnums, hfees⟩ := ih
    have hlt : n < (rewardChain n).numBlocks := by omega
    have hsame := blockAddHeads_quiet (rewardChain n) n
      (idealChild (UInt32.ofNat (n + 1)) (UInt8.ofNat n))
    obtain ⟨features, hblk⟩ := blk_sewBlock (idealChild (UInt32.ofNat (n + 1)) (UInt8.ofNat n)) hlt
    rw [hnum] at hblk
    have hold : ∀ b : Nat, b ≠ n + 1 → (rewardChain (n + 1)).blk b
        = { (rewardChain n).blk b with allKnown := ((rewardChain (n + 1)).blk b).allKnown } := by
      intro b hb
      have h := hsame.blk b
      rwa [hblk, Function.update_of_ne hb] at h
    have hnew := hsame.blk (n + 1)
    rw [hblk, Function.update_self] at hnew
    change (rewardChain (n + 1)).blk (n + 1) = _ at hnew
    refine ⟨?_, ?_, ?_, ?_, ?_, ?_, ?_⟩
    · show (blockAddHeads _ _ _).numBlocks = _
      rw [hsame.numBlocks]
      unfold sewBlock
      dsimp only
      split_ifs <;> exact congrArg (· + 1) hnum
    · show (blockAddHeads _ _ _).inputhash = _
      rw [hsame.inputhash]
      unfold sewBlock
      dsimp only
      split_ifs <;> exact hinput
    · intro b hb
      rcases Nat.lt_or_eq_of_le hb with hb | rfl
      · rw [hold b (by omega)]
        exact hdepth b (by omega)
      · rw [hnew]
        rfl
    all_goals
      intro b hb
      rcases Nat.lt_or_eq_of_le (Nat.le_of_lt_succ hb) with hb | rfl
    · rw [prevOf, hold (b + 1) (by omega)]
      exact hprev b hb
    · rw [prevOf, hnew]
      rfl
    · rw [hold (b + 1) (by omega)]
      exact horder b hb
    · rw [hnew]
      rfl
    · rw [hold (b + 1) (by omega)]
      exact hnums b hb
    · rw [hnew]
      rfl
    · rw [hold (b + 1) (by omega)]
      exact hfees b hb
    · rw [hnew]
      rfl

theorem chainReach_rewardChain {n : Nat} (hn : n < 2 ^ 32) :
    ChainReach idealCrypto (rewardChain n) := by
  induction n with
  | zero => exact ChainReach.start _ _ _ _ _
  | succ n ih =>
    have h := isRewardChain n
    refine ChainReach.step (.addBlock n (idealChild (UInt32.ofNat (n + 1)) (UInt8.ofNat n)))
      (ih (by omega)) ⟨h.numBlocks ▸ Nat.lt_succ_self n, ?_, ?_⟩ rfl
    · show (UInt32.ofNat (n + 1)).toNat = ((rewardChain n).blk n).hdr.depth.toNat + 1
      rw [h.depth n (Nat.le_refl n), UInt32.toNat_ofNat_of_lt' (by exact hn),
        UInt32.toNat_ofNat_of_lt' (by exact (Nat.lt_succ_self n).trans hn)]
    · show 0 < blockWork 0x1effffff
      decide

namespace IsRewardChain

variable {n : Nat} {s : State IdealDigest}

theorem depth_eq (h : IsRewardChain n s) (hn : n < 2 ^ 32) {b : Nat} (hb : b ≤ n) :
    (s.blk b).depth = b := by
  rw [Block.depth, h.depth b hb]
  exact UInt32.toNat_ofNat_of_lt' (Nat.lt_of_le_of_lt hb hn)

theorem anc (h : IsRewardChain n s) {a b : Nat} (hab : a ≤ b) (hb : b ≤ n) :
    Anc (prevOf s) a b := by
  induction b, hab using Nat.le_induction with
  | base => exact Anc.refl _ _
  | succ b hab ih => exact (ih (by omega)).trans (Anc.of_parent (h.prev b (by omega)))

theorem totalTxs_eq (h : IsRewardChain n s) {b : Nat} (hb : b < n) :
    totalTxs (s.blk (b + 1)) = 1 := by
  have hsize : ∀ i, (s.blk (b + 1)).shardSize i = ([1, 0, 0, 0][i]?.getD (0 : UInt8)).toNat :=
    fun i => by rw [Block.shardSize, h.shardNums b hb]
  unfold totalTxs Block.numShards
  rw [h.shardOrder b hb]
  unfold txsFrom
  rw [funext hsize]
  rfl

theorem rewardEnd_eq (h : IsRewardChain n s) (hn : n < 2 ^ 32) {b : Nat} (hb : b ≤ n) :
    rewardEnd (s.blk b) = (b + 99) / 100 * 100 := by
  unfold rewardEnd
  rw [h.depth_eq hn hb]
  rfl

end IsRewardChain

/-- A chain long enough for a claim on the first hundred blocks. -/
theorem exists_rewardChain : ∃ s, IsRewardChain 101 s ∧ ChainReach idealCrypto s :=
  ⟨rewardChain 101, isRewardChain 101, chainReach_rewardChain (by omega)⟩

theorem reward_agreed_iff_hundred :
    ∃ s, IsRewardChain 101 s ∧ ChainReach idealCrypto s ∧ (RewardAgreed idealCrypto s 100 101 ↔
      ∀ c, Anc (prevOf s) c 101 → rewardEnd (s.blk 100) < (s.blk c).depth →
        DrawsRight idealCrypto s 100 c) := by
  obtain ⟨s, h, hreach⟩ := exists_rewardChain
  refine ⟨s, h, hreach, reward_agreed_iff (chainInv_of_chainReach hreach).tree
    (h.numBlocks ▸ Nat.lt_succ_self 101) (h.anc (by omega) (by omega)) ?_ ?_⟩
  · rw [h.totalTxs_eq (b := 99) (by omega)]
    exact Nat.one_pos
  · rw [h.rewardEnd_eq (by omega) (by omega), h.depth_eq (by omega) (Nat.le_refl 101)]
    decide

/-- The block at depth 1 has a transaction and its period ends at depth 100, but for the
claim at depth 101 `reward_get_tx` goes back too far and follows a null pointer. -/
theorem reward_null_ancestor :
    ∃ s, IsRewardChain 101 s ∧ ChainReach idealCrypto s ∧ Anc (prevOf s) 1 101 ∧ 0 < totalTxs (s.blk 1) ∧
      rewardEnd (s.blk 1) < (s.blk 101).depth ∧
      rewardGetTx idealCrypto s 1 101 = .error .nullPointer ∧
      ¬ RewardAgreed idealCrypto s 1 101 := by
  obtain ⟨s, h, hreach⟩ := exists_rewardChain
  have ht := (chainInv_of_chainReach hreach).tree
  have hclaim : 101 < s.numBlocks := h.numBlocks ▸ Nat.lt_succ_self 101
  have hanc : Anc (prevOf s) 1 101 := h.anc (by omega) (by omega)
  have htxs : 0 < totalTxs (s.blk 1) := by
    rw [h.totalTxs_eq (b := 0) (by omega)]
    exact Nat.one_pos
  have hdepth : (s.blk 101).depth = 101 := h.depth_eq (by omega) (Nat.le_refl 101)
  have hpast : rewardEnd (s.blk 1) < (s.blk 101).depth := by
    rw [h.rewardEnd_eq (by omega) (by omega), hdepth]
    decide
  have hnone : blockAncestor s 101 (rewardBack (s.blk 1)) = none := by
    rw [Option.eq_none_iff_forall_ne_some]
    intro a ha
    obtain ⟨-, hback⟩ := (blockAncestor_eq_some ht hclaim).mp ha
    rw [hdepth, rewardBack, h.depth 1 (by omega)] at hback
    rw [show ((UInt32.ofNat 1 - (UInt32.ofNat 1 + protocolRewardPeriod - 1) / protocolRewardPeriod
      * protocolRewardPeriod).toNat) = 4294967197 from rfl] at hback
    omega
  have hget : rewardGetTx idealCrypto s 1 101 = .error .nullPointer := by
    rw [rewardGetTx_eq ht htxs hanc hpast, hnone]
  refine ⟨s, h, hreach, hanc, htxs, hpast, hget, ?_⟩
  rintro ⟨pos, -, hall⟩
  rw [hall 101 (Anc.refl _ _) hpast] at hget
  exact absurd hget (by simp)

end Pettycoin
