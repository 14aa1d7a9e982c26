import Pettycoin.Resolving
import Pettycoin.Reorg
import Pettycoin.Generate

/-!
# Pettycoin — the last transaction makes the block known

As long as a transaction is missing the heads stay where they were when the block
came in. With the last one `update_known` moves the head of the longest knowns from
the parent to the block, and nothing goes back to pending (`updateKnown_child`).
`Loading` says so at every stage, and `recv_shard` goes through all of them
(`Loading.recvShards`).

* `updateKnown_child` — `update_known` with a child of the head;
* `Loading.resolve` — one hash;
* `Loading.recvShard` — one shard;
* `Loading.recvShards` — all of the block.
-/

namespace Pettycoin

open ExceptRules Forest

variable {D : Type} {E : Env D} {s₁ s s' : State D} {b p : Nat} {k m : Nat → Nat}

-- ---------------------------------------------------------------------------
-- A block on the head becomes known
-- ---------------------------------------------------------------------------

/-- There is no step from a block back to its parent. -/
theorem stepTowards_parent (hp : (s.blk b).prev = some p)
    (hdepth : (s.blk b).depth = (s.blk p).depth + 1) : stepTowards s b p = none := by
  unfold stepTowards
  rw [hdepth]
  have hstay : ∀ n, rewindTo s (s.blk p).depth n p = (p, none) := by
    intro n
    cases n with
    | zero => rfl
    | succ n =>
      unfold rewindTo
      rw [if_neg (Nat.lt_irrefl _)]
  have hback : rewindTo s (s.blk p).depth ((s.blk p).depth + 1) b = (p, some b) := by
    unfold rewindTo
    rw [if_pos (by omega), hp]
    dsimp only
    rw [hstay]
    rfl
  rw [hback]
  exact if_pos rfl

/-- The order of the pointers does not matter where there is one. -/
theorem knownHead_orderBlockPointers_singleton (h : s.longestKnowns = [b]) :
    knownHead (orderBlockPointers s) = b := by
  unfold orderBlockPointers
  cases hfind : findConnectedPair s with
  | none =>
    unfold knownHead
    rw [h]
    rfl
  | some ij =>
    obtain ⟨i, j⟩ := ij
    unfold findConnectedPair at hfind
    obtain ⟨i', -, hmem⟩ := List.mem_flatMap.mp (List.mem_of_find?_eq_some hfind)
    obtain ⟨j', hj', heq⟩ := List.mem_map.mp hmem
    obtain ⟨rfl, rfl⟩ := Prod.mk.inj heq
    rw [h, List.length_singleton, List.mem_range, Nat.lt_one_iff] at hj'
    subst hj'
    show (swapToFront s.longestKnowns 0).headD 0 = b
    rw [headD_swapToFront (by rw [h]; exact Nat.one_pos), h]
    rfl

/-- The block is on the head of the longest knowns, which is all known and has less work. -/
structure OnHead (s : State D) (b : Nat) : Prop where
  prev : (s.blk b).prev = some (knownHead s)
  ne : knownHead s ≠ b
  flag : (s.blk (knownHead s)).allKnown = true
  work : (s.blk (knownHead s)).totalWork < (s.blk b).totalWork
  depth : (s.blk b).depth = (s.blk (knownHead s)).depth + 1

/-- **`update_known` makes it the head**, and puts nothing back. -/
theorem updateKnown_child (h : OnHead s b) (hnum : 0 < s.numBlocks)
    (hclean : (s.blk b).complaint = none) (hleaf : ∀ x : Nat, prevOf s x ≠ some b)
    (hall : blockAllKnown s b = true) :
    knownHead (updateKnown s b) = b ∧ (updateKnown s b).pending = s.setNeedsRecheck.pending ∧
      (updateKnown s b).now = s.now := by
  obtain ⟨n, hn⟩ := Nat.exists_eq_add_of_lt hnum
  rw [Nat.zero_add] at hn
  set marked := s.modBlock b fun blk => { blk with allKnown := true } with hmarked
  have hblk : ∀ x : Nat, marked.blk x = { s.blk x with allKnown := (marked.blk x).allKnown } := by
    intro x
    by_cases hx : x = b
    · subst hx
      rw [hmarked, modBlock_self]
    · rw [hmarked, modBlock_ne hx]
  have hchildren : ({ marked with longestKnowns := [b] } : State D).children b = [] := by
    refine List.filter_eq_nil_iff.mpr fun c _ => ?_
    show ¬ ((marked.blk c).prev == some b) = true
    rw [hblk c, beq_iff_eq]
    exact hleaf c
  have hcmp : cmpWork marked b (marked.longestKnowns.headD 0) = .gt := by
    unfold cmpWork
    rw [hblk b, hblk (marked.longestKnowns.headD 0)]
    exact Nat.compare_eq_gt.mpr h.work
  have hrec : updateKnownRecursive (n + 1) s b = ({ marked with longestKnowns := [b] }, true) := by
    have hflag : ((s.blk b).prev.any fun p => !(s.blk p).allKnown) = false := by
      rw [h.prev, Option.any_some, h.flag]
      rfl
    have hmark : (marked.blk b).complaint.isSome = false := by
      rw [hblk b, hclean]
      rfl
    unfold updateKnownRecursive
    rw [hflag, hall]
    simp only [Bool.false_eq_true, if_false, Bool.not_true]
    rw [← hmarked, hmark, hcmp]
    simp only [Bool.false_eq_true, if_false]
    unfold keepBestWork
    rw [hcmp]
    dsimp only
    rw [hchildren]
    rfl
  have hord : knownHead (orderBlockPointers
      ({ marked with longestKnowns := [b] } : State D).setNeedsRecheck) = b :=
    knownHead_orderBlockPointers_singleton rfl
  set ordered := updatePreferredChain (orderBlockPointers
    ({ marked with longestKnowns := [b] } : State D).setNeedsRecheck) with hordered
  have hordBlk : ordered.blk = marked.blk ∧ ordered.now = s.now := by
    rw [hordered]
    unfold updatePreferredChain orderBlockPointers
    split <;> exact ⟨rfl, rfl⟩
  have hordHead : ordered.longestKnowns.headD 0 = b := hord
  have hpending : ordered.pending = s.setNeedsRecheck.pending := by
    rw [hordered]
    exact orderBlockPointers_pending _
  have hsteal : stealPendingTxs ordered (knownHead s) b = ordered := by
    have hstep : stepTowards ordered b (knownHead s) = none := by
      refine stepTowards_parent ?_ ?_
      · rw [hordBlk.1, hblk b]
        exact h.prev
      · unfold Block.depth
        rw [hordBlk.1, hblk b, hblk (knownHead s)]
        exact h.depth
    unfold stealPendingTxs
    rw [hstep]
  have hupdate : updateKnown s b = ordered := by
    unfold updateKnown
    rw [hn, hrec]
    simp only [Bool.not_true, Bool.false_eq_true, if_false]
    rw [← hordered, hordHead]
    split_ifs
    · exact hsteal
    · rfl
  rw [hupdate]
  exact ⟨hord, hpending, hordBlk.2⟩

-- ---------------------------------------------------------------------------
-- Every stage
-- ---------------------------------------------------------------------------

variable [Digest D]

/-- All the transactions of the block are known. -/
def AllIn (s₁ : State D) (b : Nat) (m : Nat → Nat) : Prop :=
  ∀ i < (s₁.blk b).numShards, m i = (s₁.pending.pend i).length

/-- A stage of the block filling up, and where the heads are: where they were, and in the end
on the block. Nothing was put back. -/
structure Loading (E : Env D) (s₁ : State D) (b : Nat) (k m : Nat → Nat) (s : State D) : Prop
    extends Filling E s₁ b k m s where
  unknownTx : s.pending.unknownTx = s₁.pending.unknownTx
  numUnknown : s.pending.numUnknown = s₁.pending.numUnknown
  waiting : ¬ AllIn s₁ b m → s.longestKnowns = s₁.longestKnowns ∧
    ∀ x : Nat, (s.blk x).allKnown = (s₁.blk x).allKnown
  head : AllIn s₁ b m → knownHead s = b

theorem Filling.quiet (h : Filling E s₁ b k m s) (hq : Quiet s s') (hnow : s'.now = s.now) :
    Filling E s₁ b k m s' where
  numBlocks := hq.numBlocks.trans h.numBlocks
  blk x := by
    rw [hq.blk x, h.blk x]
  old x hx := by
    rw [hq.blk x]
    exact h.old x hx
  shard i := by
    rw [hq.toSameBlocks.shardOf_eq]
    exact h.shard i
  partWay := h.partWay
  pend := hq.pend.trans h.pend
  txhash te := by
    rw [hq.txhash]
    exact h.txhash te
  inputhash := hq.inputhash.trans h.inputhash
  now := hnow.trans h.now

theorem Filling.blockAllKnown_iff (h : Filling E s₁ b k m s) :
    blockAllKnown s b = true ↔ AllIn s₁ b m := by
  have hnum : (s.blk b).numShards = (s₁.blk b).numShards := by
    unfold Block.numShards
    rw [h.blk b]
  unfold blockAllKnown AllIn
  rw [List.all_eq_true, hnum]
  simp only [List.mem_range]
  refine forall₂_congr fun i _ => ?_
  unfold shardAllKnown
  rw [h.shard i, beq_iff_eq]
  rfl

theorem Loading.noted (h : Loading E s₁ b k m s) (hn : Noted s s') : Loading E s₁ b k m s' where
  toFilling := h.toFilling.noted hn
  unknownTx := hn.sameSide.unknownTx.trans h.unknownTx
  numUnknown := hn.sameSide.numUnknown.trans h.numUnknown
  waiting hno := ⟨hn.sameSide.knowns.trans (h.waiting hno).1,
    fun x => (hn.sameSide.flag x).trans ((h.waiting hno).2 x)⟩
  head hall := by
    unfold knownHead
    rw [hn.sameSide.knowns]
    exact h.head hall

/-- As long as a transaction is missing the heads are where they were. -/
theorem Loading.sameSide (h : Loading E s₁ b k m s) (hno : ¬ AllIn s₁ b m) : SameSide s₁ s :=
  ⟨(h.waiting hno).1, (h.waiting hno).2, h.unknownTx, h.numUnknown⟩

/-- More hashes, but no more transactions. -/
theorem Loading.sameTxs {k' : Nat → Nat} (h : Loading E s₁ b k m s)
    (hfill : Filling E s₁ b k' m s') (hside : SameSide s s') : Loading E s₁ b k' m s' where
  toFilling := hfill
  unknownTx := hside.unknownTx.trans h.unknownTx
  numUnknown := hside.numUnknown.trans h.numUnknown
  waiting hno := ⟨hside.knowns.trans (h.waiting hno).1,
    fun x => (hside.flag x).trans ((h.waiting hno).2 x)⟩
  head hall := by
    unfold knownHead
    rw [hside.knowns]
    exact h.head hall

variable [DecidableEq D]

-- ---------------------------------------------------------------------------
-- A transaction is put
-- ---------------------------------------------------------------------------

section

variable (h : Filling E s₁ b k m s) (hj : JustMined E s₁ b) (hon : OnHead s₁ b)
  (hside : SameSide s₁ s)
include h hj hon hside

/-- `update_block_ptrs_new_shard` moves the head when the last transaction is in. -/
theorem Filling.newShard_ok :
    ∃ s', updateBlockPtrsNewShard E.crypto s b = .ok s' ∧ Loading E s₁ b k m s' := by
  have hchildren : s.children b = [] := by
    refine List.filter_eq_nil_iff.mpr fun c _ => ?_
    rw [beq_iff_eq]
    exact fun hc => hj.leaf c (h.prevOf_eq ▸ hc)
  have hhead : knownHead s = knownHead s₁ := by
    unfold knownHead
    rw [hside.knowns]
  refine ⟨if blockAllKnown s b then updateKnown s b else s, ?_, ?_⟩
  · unfold updateBlockPtrsNewShard updateBlockPtrsNewShardOrEmpty
    rw [hchildren]
    rfl
  · by_cases hall : blockAllKnown s b = true
    · have hon' : OnHead s b := by
        constructor
        · rw [h.blk b, hhead]
          exact hon.prev
        · rw [hhead]
          exact hon.ne
        · rw [hhead, hside.flag]
          exact hon.flag
        · rw [hhead, h.blk b, h.blk (knownHead s₁)]
          exact hon.work
        · unfold Block.depth
          rw [hhead, h.blk b, h.blk (knownHead s₁)]
          exact hon.depth
      have hnum : 0 < s.numBlocks := by
        rw [h.numBlocks]
        exact Nat.zero_lt_of_lt hj.lt
      have hclean : (s.blk b).complaint = none := by
        rw [h.blk b]
        exact hj.clean
      obtain ⟨hnew, hpending, hnow⟩ := updateKnown_child hon' hnum hclean
        (fun x => h.prevOf_eq ▸ hj.leaf x) hall
      rw [if_pos hall]
      refine ⟨h.quiet (updateKnown_quiet (.refl s) b) hnow, ?_, ?_, fun hno => ?_, fun _ => hnew⟩
      · rw [hpending]
        exact hside.unknownTx
      · rw [hpending]
        exact hside.numUnknown
      · exact absurd (h.blockAllKnown_iff.mp hall) hno
    · rw [if_neg hall]
      exact ⟨h, hside.unknownTx, hside.numUnknown, fun _ => ⟨hside.knowns, hside.flag⟩,
        fun hin => absurd (h.blockAllKnown_iff.mpr hin) hall⟩

end

section

variable {i j : Nat} {t : PendingTx D}

/-- The shards of the pending transactions are shards of the block. -/
theorem JustMined.lt_numShards (hj : JustMined E s₁ b) (ht : t ∈ s₁.pending.pend i) :
    i < (s₁.blk b).numShards := by
  rw [← hj.pending.inShard i t ht]
  unfold Block.numShards
  rw [hj.ledger.shardOrder]
  exact shardOfTx_lt _ _ _ _

omit [DecidableEq D] in
/-- With all its hashes known, a transaction of the shard can be proven. -/
theorem Filling.provenTxAt_ok (h : Filling E s₁ b k m s) (ht : (s₁.pending.pend i)[j]? = some t)
    (hjm : j < m i) (hk : k i = (s₁.pending.pend i).length) :
    ∃ t', provenTxAt E.crypto s b i j = .ok t' := by
  have hslot : (s.shardOf b i).u j = .tx t.tx t.refs := by
    rw [h.shard, partShard_u]
    exact partSlot_eq_tx.mpr ⟨ht, hjm⟩
  have hle := (h.partWay i).le
  have hall : shardAllHashes (s.shardOf b i) = true := by
    unfold shardAllHashes
    rw [h.shard, beq_iff_eq]
    show m i + (k i - m i) = (s₁.pending.pend i).length
    omega
  have hfilled : ShardFilled (s.shardOf b i) := by
    intro n hn
    rw [h.shard] at hn ⊢
    have hn' : n < (s₁.pending.pend i).length := hn
    rw [partShard_u, partSlot_of_some (List.getElem?_eq_getElem hn'), hk, if_pos hn']
    split_ifs <;> simp
  have hstored : (s.shardOf b i).proof.bind (· j) = none := by
    rw [h.shard]
    rfl
  exact ⟨_, Pettycoin.provenTxAt_ok hslot (createProof_eq_builtProof hstored hall hfilled)⟩

omit [Digest D] [DecidableEq D] in
theorem modShard_eq_self {y : Nat} {f : BlockShard D → BlockShard D}
    (hf : f (s.shardOf y i) = s.shardOf y i) : s.modShard y i f = s := by
  unfold State.modShard State.modBlock
  dsimp only
  rw [show f ((s.blk y).shard i) = (s.blk y).shard i from hf, Function.update_eq_self,
    Function.update_eq_self]

/-- What `put_tx_in_shard` does once the slot is filled. -/
theorem Filling.afterPutTx_ok (h : Filling E s₁ b k m s) (hj : JustMined E s₁ b)
    (hon : OnHead s₁ b) (hside : SameSide s₁ s) (hinj : Function.Injective E.crypto.doubleSha)
    (ht : (s₁.pending.pend i)[j]? = some t) (hjm : j < m i)
    (hk : k i = (s₁.pending.pend i).length) (source : Option Nat) :
    ∃ s', afterPutTx E s source b i j t.tx = .ok s' ∧ Loading E s₁ b k m s' := by
  obtain ⟨s₂, hs₂, hn₂⟩ := h.checkResolvedTxs_noted hj hinj (List.mem_of_getElem? ht)
  have h₂ := h.noted hn₂
  have hside₂ := hside.trans hn₂.sameSide
  have hproof : (if shardAllHashes (s₂.shardOf b i) then
      s₂.modShard b i fun shard => { shard with proof := none } else s₂) = s₂ := by
    split_ifs
    · refine modShard_eq_self ?_
      rw [h₂.shard]
      rfl
    · rfl
  obtain ⟨s₃, h₃, hs₃⟩ : ∃ s₃, Loading E s₁ b k m s₃ ∧ ∀ rest : State D → Res (State D),
      (if shardAllKnown (s₂.shardOf b i) then
        updateBlockPtrsNewShard E.crypto s₂ b >>= rest else .ok s₂ >>= rest) = rest s₃ := by
    by_cases hshard : shardAllKnown (s₂.shardOf b i) = true
    · obtain ⟨s₃, hs₃, h₃⟩ := h₂.newShard_ok hj hon hside₂
      exact ⟨s₃, h₃, fun rest => by rw [if_pos hshard, hs₃, ok_bind]⟩
    · have hno : ¬ AllIn s₁ b m := by
        intro hall
        refine hshard ?_
        unfold shardAllKnown
        rw [h₂.shard, beq_iff_eq]
        exact hall i (hj.lt_numShards (List.mem_of_getElem? ht))
      refine ⟨s₂, ⟨h₂, hside₂.unknownTx, hside₂.numUnknown, fun _ => ⟨hside₂.knowns, hside₂.flag⟩,
        fun hall => absurd hall hno⟩, fun rest => ?_⟩
      rw [if_neg hshard, ok_bind]
  have h₄ := h₃.noted (noted_setNeedsRecheck s₃)
  obtain ⟨t₄, ht₄⟩ := h₄.toFilling.provenTxAt_ok ht hjm hk
  obtain ⟨s₅, hs₅, hn₅⟩ : ∃ s₅, saveTx E.crypto s₃.setNeedsRecheck b i j = .ok s₅ ∧
      Noted s₃.setNeedsRecheck s₅ := by
    unfold saveTx
    split_ifs
    · exact ⟨_, rfl, .refl _⟩
    · rw [ht₄, ok_bind]
      exact ⟨_, rfl, noted_emit _ _⟩
  have h₅ := h₄.noted hn₅
  obtain ⟨t₅, ht₅⟩ := h₅.toFilling.provenTxAt_ok ht hjm hk
  have h₆ := h₅.noted (noted_emit s₅ (.sendTxInBlockToPeers source b i j))
  have hne : s₁.pending.pend i ≠ [] := List.ne_nil_of_mem (List.mem_of_getElem? ht)
  refine ⟨_, ?_, h₆⟩
  unfold afterPutTx
  rw [hs₂, ok_bind]
  dsimp only
  rw [hproof]
  refine (hs₃ _).trans ?_
  rw [hs₅, ok_bind]
  unfold sendTxInBlockToPeers
  rw [ht₅]
  simp only [ok_bind]
  rw [h₆.toFilling.checkBlockShard_ok hj hinj hne, ok_bind]

end

section

variable {i : Nat} {t : PendingTx D} (h : Loading E s₁ b k m s)
  (hj : JustMined E s₁ b) (hon : OnHead s₁ b) (hinj : Function.Injective E.crypto.doubleSha)
  (ht : (s₁.pending.pend i)[m i]? = some t)
include h hj hinj ht

/-- The inputs of a pending transaction are recorded already. -/
theorem Loading.filledHash_inputhash :
    (filledHash E s b i (m i) t.tx t.refs).inputhash = s.inputhash := by
  obtain ⟨te, hte, hloc⟩ := h.pendingElem hj hinj (List.mem_of_getElem? ht)
  have hsome : (txhashGettx s (hashTx E.crypto t.tx) .pending).isSome = true := by
    unfold txhashGettx
    rw [List.findSome?_isSome_iff]
    refine ⟨te, hte, ?_⟩
    rw [hloc]
    rfl
  have hpending : (txhashGettx (s.modShard b i fun shard =>
      { shard with hashcount := shard.hashcount - 1 }) (hashTx E.crypto t.tx) .pending).isSome
        = true := by
    unfold txhashGettx
    rw [List.findSome?_isSome_iff]
    refine ⟨te, hte, ?_⟩
    rw [hloc]
    rfl
  unfold filledHash recordInputs
  dsimp only
  rw [if_neg (by rw [Option.isNone_iff_eq_none]; exact Option.isSome_iff_ne_none.mp hpending)]
  rfl

include hon in
/-- **The next hash of a shard is resolved** with the pending transaction. -/
theorem Loading.resolve (hk : k i = (s₁.pending.pend i).length) (source : Option Nat) :
    ∃ s', tryResolveHash E s source b i (m i) = .ok (s', true) ∧
      Loading E s₁ b k (Function.update m i (m i + 1)) s' := by
  have hmem := List.mem_of_getElem? ht
  have hlt : m i < (s₁.pending.pend i).length := (List.getElem?_eq_some_iff.mp ht).1
  have hno : ¬ AllIn s₁ b m := by
    intro hall
    have heq := hall i (hj.lt_numShards hmem)
    omega
  have hslot : (s.shardOf b i).u (m i) = .hash (hashTxAndRefs E.crypto t.tx t.refs) := by
    rw [h.shard, partShard_u]
    exact partSlot_hash ht (Nat.le_refl _) (by omega)
  have hfill : Filling E s₁ b k (Function.update m i (m i + 1))
      (filledHash E s b i (m i) t.tx t.refs) := by
    have hmoved : Filling E s₁ b (Function.update k i (k i)) (Function.update m i (m i + 1))
        (filledHash E s b i (m i) t.tx t.refs) := by
      refine h.toFilling.moveOn (f := fun shard => shard.upgradeTx (m i) t.tx t.refs) rfl rfl ?_
        ⟨by omega, by omega, .inr hk⟩ (Nat.le_refl _) rfl (fun te => ⟨.inl, ?_⟩)
        (h.filledHash_inputhash hj hinj ht) rfl
      · rw [h.shard]
        exact upgradeTx_partShard ht (by omega)
      · rintro (hold | ⟨j, t', hle, hlt', -⟩)
        · exact hold
        · omega
    rwa [Function.update_eq_self] at hmoved
  have hside : SameSide s (filledHash E s b i (m i) t.tx t.refs) :=
    ⟨rfl, flag_modShard fun shard => shard.upgradeTx (m i) t.tx t.refs, rfl, rfl⟩
  obtain ⟨s', hs', hload⟩ := hfill.afterPutTx_ok hj hon ((h.sameSide hno).trans hside) hinj ht
    (by rw [Function.update_self]; omega) hk source
  refine ⟨s', ?_, hload⟩
  have horder : checkTxOrdering E (s.shardOf b i) (m i) t.tx = none := by
    rw [h.shard]
    exact checkTxOrdering_partShard (hj.pending.sorted i) ht (by omega)
  unfold tryResolveHash
  rw [hslot]
  dsimp only
  rw [h.findTxWithRef_eq hj hinj hmem]
  dsimp only
  rw [horder]
  dsimp only
  unfold putTxInShard
  rw [hslot]
  dsimp only
  rw [fillSlot_of_hash hslot, if_pos rfl, ok_bind, hs', ok_bind]

end

-- ---------------------------------------------------------------------------
-- The shards, one after the other
-- ---------------------------------------------------------------------------

/-- **All the hashes of a shard are resolved**, from slot `n` on. -/
theorem Loading.resolveAll (hj : JustMined E s₁ b) (hon : OnHead s₁ b)
    (hinj : Function.Injective E.crypto.doubleSha) (source : Option Nat) (addTodos : Bool)
    {i n : Nat} (rest : Nat) (h : Loading E s₁ b k m s) (hk : k i = (s₁.pending.pend i).length)
    (hm : m i = n) (hrest : n + rest = (s₁.pending.pend i).length) :
    ∃ s', tryResolveHashes E source b i addTodos (List.range' n rest) s = .ok s' ∧
      Loading E s₁ b k (Function.update m i (s₁.pending.pend i).length) s' := by
  induction rest generalizing n m s with
  | zero =>
    refine ⟨s, rfl, ?_⟩
    rw [← hrest, Nat.add_zero, ← hm, Function.update_eq_self]
    exact h
  | succ rest ih =>
    have hlt : m i < (s₁.pending.pend i).length := by omega
    have ht := List.getElem?_eq_getElem hlt
    obtain ⟨s₂, hs₂, h₂⟩ := h.resolve hj hon hinj ht hk source
    obtain ⟨s', hs', h'⟩ := ih h₂ (by rw [Function.update_self, hm]) (by omega)
    rw [Function.update_idem] at h'
    refine ⟨s', ?_, h'⟩
    have hclean : (s.blk b).complaint.isSome = false := by
      rw [h.blk b, hj.clean]
      rfl
    have hhash : shardIsTx (s.shardOf b i) n = false := by
      unfold shardIsTx
      rw [h.shard, partShard_u, ← hm, partSlot_hash ht (Nat.le_refl _) (by omega)]
    rw [List.range'_succ]
    unfold tryResolveHashes
    rw [hclean, hhash]
    simp only [Bool.false_eq_true, if_false]
    rw [← hm, hs₂, ok_bind]
    dsimp only
    rw [hm]
    exact hs'

/-- The shards before this one are done, the others not begun. -/
def doneBelow (s₁ : State D) (n i : Nat) : Nat :=
  if i < n then (s₁.pending.pend i).length else 0

omit [Digest D] [DecidableEq D] in
theorem doneBelow_succ (s₁ : State D) (n : Nat) :
    Function.update (doneBelow s₁ n) n (s₁.pending.pend n).length = doneBelow s₁ (n + 1) := by
  funext i
  unfold doneBelow
  by_cases hi : i = n
  · subst hi
    rw [Function.update_self, if_pos (Nat.lt_succ_self i)]
  · have hiff : i < n + 1 ↔ i < n := by omega
    rw [Function.update_of_ne hi]
    simp only [hiff]

/-- **A shard of pending transactions comes in.** -/
theorem Loading.recvShard {n : Nat} (h : Loading E s₁ b (doneBelow s₁ n) (doneBelow s₁ n) s)
    (hj : JustMined E s₁ b) (hon : OnHead s₁ b) (hinj : Function.Injective E.crypto.doubleSha)
    {pkt : PktShard D} (hshard : pkt.shard.toNat = n)
    (hhashes : pkt.hashes = pendHashes E.crypto s₁.pending.pend n)
    (htakes : TakesShard E s none b pkt) :
    ∃ s', recvShard E s none pkt = .ok (s', .none) ∧
      Loading E s₁ b (doneBelow s₁ (n + 1)) (doneBelow s₁ (n + 1)) s' := by
  have hzero : doneBelow s₁ n n = 0 := if_neg (Nat.lt_irrefl n)
  obtain ⟨s₂, hs₂, h₂, hside⟩ :=
    h.toFilling.putTxhashes hj hinj (s₁.pending.pend n) hzero hzero List.drop_zero
  have hload := h.sameTxs h₂ hside
  rw [Nat.zero_add, doneBelow_succ] at hload
  have hdone : doneBelow s₁ (n + 1) n = (s₁.pending.pend n).length :=
    if_pos (Nat.lt_succ_self n)
  obtain ⟨s', hs', h'⟩ := hload.resolveAll hj hon hinj none false (s₁.pending.pend n).length hdone
    hzero (Nat.zero_add _)
  rw [doneBelow_succ] at h'
  refine ⟨s', ?_, h'⟩
  have hsize : (s₂.blk b).shardSize n = (s₁.pending.pend n).length := h₂.shardSize_eq hj n
  rw [htakes, hshard, hhashes]
  unfold pendHashes
  rw [hs₂, ok_bind, hsize, List.range_eq_range']
  show (tryResolveHashes E none b n false _ s₂ >>= _) = _
  rw [hs', ok_bind]

/-- **So do all of them.** -/
theorem Loading.recvShards (hj : JustMined E s₁ b)
    (hon : (∃ i, s₁.pending.pend i ≠ []) → OnHead s₁ b)
    (hinj : Function.Injective E.crypto.doubleSha) (pkts : List (PktShard D)) {n : Nat}
    (h : Loading E s₁ b (doneBelow s₁ n) (doneBelow s₁ n) s)
    (hpkts : ∀ (i : Nat) (pkt : PktShard D), pkts[i]? = some pkt → pkt.shard.toNat = n + i ∧
      pkt.hashes = pendHashes E.crypto s₁.pending.pend (n + i) ∧
      ∀ (s : State D) (k m : Nat → Nat), Filling E s₁ b k m s →
        (s.blk b).shardSize (n + i) ≠ 0 → TakesShard E s none b pkt) :
    ∃ s', recvShards E b pkts n s = .ok (s', true) ∧
      Loading E s₁ b (doneBelow s₁ (n + pkts.length)) (doneBelow s₁ (n + pkts.length)) s' := by
  induction pkts generalizing n s with
  | nil => exact ⟨s, rfl, h⟩
  | cons pkt rest ih =>
    obtain ⟨hshard, hhashes, htakes⟩ := hpkts 0 pkt rfl
    have hrest : ∀ {s₂ : State D},
        Loading E s₁ b (doneBelow s₁ (n + 1)) (doneBelow s₁ (n + 1)) s₂ →
        ∃ s', Pettycoin.recvShards E b rest (n + 1) s₂ = .ok (s', true) ∧
          Loading E s₁ b (doneBelow s₁ (n + (pkt :: rest).length))
            (doneBelow s₁ (n + (pkt :: rest).length)) s' := fun {s₂} h₂ => by
      rw [List.length_cons, Nat.add_comm rest.length 1, ← Nat.add_assoc]
      refine ih h₂ fun i pkt' hpkt' => ?_
      rw [Nat.add_assoc, Nat.add_comm 1 i]
      exact hpkts (i + 1) pkt' hpkt'
    have hsize := h.toFilling.shardSize_eq hj n
    unfold Pettycoin.recvShards
    by_cases hzero : (s.blk b).shardSize n = 0
    · rw [if_pos hzero]
      refine hrest ?_
      have hnone : Function.update (doneBelow s₁ n) n (s₁.pending.pend n).length
          = doneBelow s₁ n := by
        rw [← hsize, hzero]
        refine Function.update_eq_self_iff.mpr (Eq.symm ?_)
        exact if_neg (Nat.lt_irrefl n)
      rw [doneBelow_succ] at hnone
      rw [hnone]
      exact h
    · rw [if_neg hzero]
      have hne : s₁.pending.pend n ≠ [] := by
        rw [← List.length_pos_iff, ← hsize]
        exact Nat.pos_of_ne_zero hzero
      obtain ⟨s₂, hs₂, h₂⟩ := h.recvShard hj (hon ⟨n, hne⟩) hinj hshard hhashes
        (htakes s _ _ h.toFilling hzero)
      rw [hs₂]
      exact hrest h₂

end Pettycoin
