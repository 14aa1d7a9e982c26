import Pettycoin.Heads
import Pettycoin.IdealHash

/-!
# Pettycoin — the heads over whole runs

The operations that move the heads: a block is added, a shard becomes fully
known, a subtree is invalidated (`ChainOp`). Each keeps the tree and the heads
right (`addBlock_inv`, `fillShard_inv`, `invalidate_inv`), so every run does
(`headsOk_of_chainReach`).

* `addBlock_inv` — a block is added;
* `fillShard_inv` — a shard is filled;
* `invalidate_inv` — a subtree is invalidated;
* `headsOk_of_chainReach` — the heads over every run of these.
-/

namespace Pettycoin

open Forest KeepBest ExceptRules

variable {D : Type}

-- ---------------------------------------------------------------------------
-- The operations
-- ---------------------------------------------------------------------------

/-- Put a complaint on a block and all its descendants. -/
def markComplaint (s : State D) (b : BlockId) (complaint : Complaint D) : State D :=
  { s with
    blk := fun x =>
      if b < s.numBlocks && blockPreceeds s b x then
        { s.blk x with complaint := some complaint }
      else s.blk x }

/-- What moves the heads. -/
inductive ChainOp (D : Type)
  /-- `block_add` -/
  | addBlock (prev : BlockId) (nb : NewBlock D)
  /-- A shard is filled, then `update_block_ptrs_new_shard`. -/
  | fillShard (b : BlockId) (shardnum : Nat) (shard : BlockShard D)
  /-- A complaint is put on a block and its descendants, then
  `update_block_ptrs_invalidated`. -/
  | invalidate (b : BlockId) (complaint : Complaint D)

/-- When the node does it: the header passed its check, the shard is all known,
and the block is not the genesis block nor already complained of. -/
def ChainOp.Admitted (s : State D) : ChainOp D → Prop
  | addBlock prev nb =>
    prev < s.numBlocks ∧ nb.hdr.depth.toNat = (s.blk prev).depth + 1 ∧
      0 < blockWork nb.tailer.difficulty
  | fillShard b shardnum shard =>
    b < s.numBlocks ∧ shardnum < (s.blk b).numShards ∧ shardAllKnown shard = true
  | invalidate b _ => b ≠ 0 ∧ Clean s b

instance (s : State D) : (op : ChainOp D) → Decidable (op.Admitted s)
  | .addBlock prev nb =>
    inferInstanceAs (Decidable (prev < s.numBlocks ∧
      nb.hdr.depth.toNat = (s.blk prev).depth + 1 ∧ 0 < blockWork nb.tailer.difficulty))
  | .fillShard b shardnum shard =>
    inferInstanceAs (Decidable (b < s.numBlocks ∧ shardnum < (s.blk b).numShards ∧
      shardAllKnown shard = true))
  | .invalidate b _ => inferInstanceAs (Decidable (b ≠ 0 ∧ Clean s b))

/-- What it does. The check that `block_add` ends with is left out: the heads are
right even where it fails. -/
def ChainOp.apply [Digest D] (C : Crypto D) (s : State D) : ChainOp D → Res (State D)
  | addBlock prev nb => .ok (blockAddHeads s prev nb)
  | fillShard b shardnum shard =>
    updateBlockPtrsNewShard C (s.modShard b shardnum fun _ => shard) b
  | invalidate b complaint => updateBlockPtrsInvalidated (markComplaint s b complaint) b

/-- The states reached from a node with the genesis block only. -/
inductive ChainReach [Digest D] (C : Crypto D) : State D → Prop
  | start (sha merkle : D) (nonce2 : Bytes 13) (tailer : BlockTailer) (now : UInt32) :
    ChainReach C (newState (genesisBlock sha merkle nonce2 tailer) now)
  | step {s s' : State D} (op : ChainOp D) :
    ChainReach C s → op.Admitted s → op.apply C s = .ok s' → ChainReach C s'

/-- A run of these, if the node does each of them. -/
def chainRun [Digest D] (C : Crypto D) (s : State D) (ops : List (ChainOp D)) : Option (State D) :=
  ops.foldlM (fun s op => if op.Admitted s then (op.apply C s).toOption else none) s

theorem ChainReach.run [Digest D] {C : Crypto D} (hreach : ChainReach C s) {ops : List (ChainOp D)}
    (h : chainRun C s ops = some s') : ChainReach C s' := by
  unfold chainRun at h
  induction ops generalizing s with
  | nil =>
    obtain rfl := Option.some.inj h
    exact hreach
  | cons op ops ih =>
    rw [List.foldlM_cons, Option.bind_eq_bind, Option.bind_eq_some_iff] at h
    obtain ⟨s₁, hstep, h⟩ := h
    obtain ⟨hadmitted, happly⟩ := Option.ite_none_right_eq_some.mp hstep
    exact ih (.step op hreach hadmitted (eq_ok_of_toOption happly)) h

/-- The tree and the heads are right. -/
structure ChainInv (s : State D) : Prop where
  tree : TreeOk s
  heads : HeadsOk s

-- ---------------------------------------------------------------------------
-- The start
-- ---------------------------------------------------------------------------

theorem newState_inv [Digest D] (sha merkle : D) (nonce2 : Bytes 13) (tailer : BlockTailer)
    (now : UInt32) : ChainInv (newState (genesisBlock sha merkle nonce2 tailer) now) := by
  generalize hs : newState (genesisBlock sha merkle nonce2 tailer) now = s
  have hblk : ∀ b, s.blk b = genesisBlock sha merkle nonce2 tailer := fun b => by rw [← hs]; rfl
  have hnum : s.numBlocks = 1 := by rw [← hs]; rfl
  have hprev : ∀ b, prevOf s b = none := fun b => by rw [prevOf, hblk]; rfl
  have htree : TreeOk s :=
    { genesis_lt := by omega
      genesis_prev := hprev 0
      beyond := fun b _ => hprev b
      has_prev := fun b hpos hb => by omega
      prev_lt := fun b p hp => by rw [hprev] at hp; simp at hp
      depth_genesis := by rw [hblk]; rfl
      depth_prev := fun b p hp => by rw [hprev] at hp; simp at hp
      work_prev := fun b p hp => by rw [hprev] at hp; simp at hp
      complaint_genesis := by rw [hblk]; rfl
      complaint_prev := fun b p hp => by rw [hprev] at hp; simp at hp }
  have hanc : ∀ {a b : Nat}, Anc (prevOf s) a b → a = b := by
    intro a b hab
    rcases anc_iff_eq_or_parent.mp hab with heq | ⟨p, hp, -⟩
    · exact heq
    · rw [hprev] at hp
      simp at hp
  have hall : ∀ b, blockAllKnown s b = true := by
    intro b
    simp only [blockAllKnown, State.shardOf, hblk, List.all_eq_true]
    intro i _
    rfl
  have hclean : ∀ {b : Nat}, Clean s b ↔ b = 0 := by
    intro b
    rw [Clean, hnum, hblk]
    exact ⟨fun h => by omega, fun h => ⟨by omega, rfl⟩⟩
  have hknown : ∀ b, Known s b := fun b a _ => hall a
  have hchains : s.longestChains = [0] := by rw [← hs]; rfl
  have hknowns : s.longestKnowns = [0] := by rw [← hs]; rfl
  have hpref : s.preferredChain = 0 := by rw [← hs]; rfl
  refine ⟨htree, ⟨⟨?_, fun b => ?_⟩, ⟨?_, fun b => ?_, fun b _ => ?_⟩, ?_, ⟨?_, ?_⟩⟩⟩
  · simp [hchains]
  · rw [hchains, List.mem_singleton, Best, hclean]
    exact ⟨fun h => ⟨h, fun c hc => by rw [hclean.mp hc, h]⟩, And.left⟩
  · simp [hknowns]
  · rw [hknowns, List.mem_singleton, Best, hclean]
    exact ⟨fun h => ⟨⟨h, hknown b⟩, fun c hc => by rw [hclean.mp hc.1, h]⟩, fun h => h.1.1⟩
  · rw [hblk]
    exact ⟨fun _ => hknown b, fun _ => rfl⟩
  · intro k hk c hc _
    rw [knownHead, chainHead, hchains, hknowns]
    exact Anc.refl _ _
  · rw [hpref, knownHead, hknowns]
    exact ⟨⟨hclean.mpr rfl, Anc.refl _ _⟩, fun c hc => by rw [hclean.mp hc.1]⟩
  · intro c hc _ _ hfork
    rw [hpref, hclean.mp hc] at hfork
    exact not_anc_of_fork htree.grows hfork (Anc.refl _ _)

-- ---------------------------------------------------------------------------
-- A block is added
-- ---------------------------------------------------------------------------

/-- `s₁` is `s` with block `b` attached below `prev`. -/
structure Attached (s s₁ : State D) (prev b : Nat) : Prop where
  num : b = s.numBlocks
  prev_lt : prev < s.numBlocks
  numBlocks : s₁.numBlocks = s.numBlocks + 1
  blk_old : ∀ x : Nat, x ≠ b → s₁.blk x = s.blk x
  prev_new : prevOf s₁ b = some prev
  flag_new : (s₁.blk b).allKnown = false
  complaint_new : (s₁.blk b).complaint = (s.blk prev).complaint
  depth_new : (s₁.blk b).depth = (s.blk prev).depth + 1
  work_new : workOf s prev < workOf s₁ b
  chains : s₁.longestChains = s.longestChains
  knowns : s₁.longestKnowns = s.longestKnowns
  preferred : s₁.preferredChain = s.preferredChain

variable {C : Crypto D} {s s₁ s' : State D} {prev b : Nat}

/-- The block that `block_add` links in. -/
theorem blk_sewBlock (nb : NewBlock D) (hprev : prev < s.numBlocks) :
    ∃ features, (sewBlock s prev nb).blk = Function.update s.blk s.numBlocks
      { newBlock prev (s.blk prev).totalWork nb with
        pendingFeatures := features, complaint := (s.blk prev).complaint } := by
  have hne : prev ≠ s.numBlocks := by omega
  refine ⟨pendingFeatures { s with
    numBlocks := s.numBlocks + 1
    blk := Function.update s.blk s.numBlocks (newBlock prev (s.blk prev).totalWork nb) }
      s.numBlocks, ?_⟩
  rw [sewBlock]
  split_ifs <;> simp only [State.modBlock, State.emit, Function.update_idem,
    Function.update_self, Function.update_of_ne hne]

theorem attached_sewBlock {nb : NewBlock D} (hprev : prev < s.numBlocks)
    (hdepth : nb.hdr.depth.toNat = (s.blk prev).depth + 1)
    (hwork : 0 < blockWork nb.tailer.difficulty) :
    Attached s (sewBlock s prev nb) prev s.numBlocks := by
  obtain ⟨features, hblk⟩ := blk_sewBlock nb hprev
  have hheads : (sewBlock s prev nb).numBlocks = s.numBlocks + 1 ∧
      (sewBlock s prev nb).longestChains = s.longestChains ∧
      (sewBlock s prev nb).longestKnowns = s.longestKnowns ∧
      (sewBlock s prev nb).preferredChain = s.preferredChain := by
    rw [sewBlock]
    split_ifs <;> exact ⟨rfl, rfl, rfl, rfl⟩
  have hnew : (sewBlock s prev nb).blk s.numBlocks
      = { newBlock prev (s.blk prev).totalWork nb with
          pendingFeatures := features, complaint := (s.blk prev).complaint } := by
    rw [hblk, Function.update_self]
  exact
    { num := rfl
      prev_lt := hprev
      numBlocks := hheads.1
      blk_old := fun x hx => by rw [hblk, Function.update_of_ne hx]
      prev_new := by rw [prevOf, hnew]; rfl
      flag_new := by rw [hnew]; rfl
      complaint_new := by rw [hnew]
      depth_new := by rw [hnew]; exact hdepth
      work_new := by
        rw [workOf, workOf, hnew]
        exact Nat.lt_add_of_pos_left hwork
      chains := hheads.2.1
      knowns := hheads.2.2.1
      preferred := hheads.2.2.2 }

theorem Attached.prev_ne (h : Attached s s₁ prev b) : prev ≠ b := by
  have := h.num
  have := h.prev_lt
  omega

theorem Attached.prevOf_old (h : Attached s s₁ prev b) {x : Nat} (hx : x ≠ b) :
    prevOf s₁ x = prevOf s x := by
  rw [prevOf, h.blk_old x hx, prevOf]

theorem Attached.workOf_old (h : Attached s s₁ prev b) {x : Nat} (hx : x ≠ b) :
    workOf s₁ x = workOf s x := by
  rw [workOf, h.blk_old x hx, workOf]

theorem Attached.treeOk (h : Attached s s₁ prev b) (ht : TreeOk s) : TreeOk s₁ := by
  have hnum := h.num
  have hn := h.numBlocks
  have hplt := h.prev_lt
  have hg := ht.genesis_lt
  have hpb := h.prev_ne
  -- a block with a parent is the new one, or an old one with an old parent
  have old : ∀ {x p : Nat}, prevOf s₁ x = some p →
      (x = b ∧ p = prev) ∨ (x ≠ b ∧ p ≠ b ∧ prevOf s x = some p) := by
    intro x p hx
    by_cases hxb : x = b
    · subst hxb
      rw [h.prev_new] at hx
      injection hx with hx
      exact Or.inl ⟨rfl, hx.symm⟩
    · rw [h.prevOf_old hxb] at hx
      have := ht.prev_lt x p hx
      have := ht.lt_of_prev hx
      exact Or.inr ⟨hxb, by omega, hx⟩
  exact
    { genesis_lt := by omega
      genesis_prev := by
        rw [h.prevOf_old (by omega)]
        exact ht.genesis_prev
      beyond := fun x hx => by
        rw [h.prevOf_old (by omega)]
        exact ht.beyond x (by omega)
      has_prev := fun x hpos hx => by
        by_cases hxb : x = b
        · exact ⟨prev, hxb ▸ h.prev_new⟩
        · rw [h.prevOf_old hxb]
          exact ht.has_prev x hpos (by omega)
      prev_lt := fun x p hx => by
        rcases old hx with ⟨rfl, rfl⟩ | ⟨_, _, hx⟩
        · omega
        · exact ht.prev_lt x p hx
      depth_genesis := by
        rw [h.blk_old 0 (by omega)]
        exact ht.depth_genesis
      depth_prev := fun x p hx => by
        rcases old hx with ⟨rfl, rfl⟩ | ⟨hxb, hpb, hx⟩
        · rw [h.depth_new, h.blk_old _ hpb]
        · rw [h.blk_old x hxb, h.blk_old p hpb]
          exact ht.depth_prev x p hx
      work_prev := fun x p hx => by
        rcases old hx with ⟨rfl, rfl⟩ | ⟨hxb, hpb, hx⟩
        · rw [h.workOf_old hpb]
          exact h.work_new
        · rw [h.workOf_old hxb, h.workOf_old hpb]
          exact ht.work_prev x p hx
      complaint_genesis := by
        rw [h.blk_old 0 (by omega)]
        exact ht.complaint_genesis
      complaint_prev := fun x p hx => by
        rcases old hx with ⟨rfl, rfl⟩ | ⟨hxb, hpb, hx⟩
        · rw [h.complaint_new, h.blk_old _ hpb]
          exact id
        · rw [h.blk_old x hxb, h.blk_old p hpb]
          exact ht.complaint_prev x p hx }

/-- The old blocks have their old ancestors. -/
theorem Attached.anc_old (h : Attached s s₁ prev b) (ht : TreeOk s) {x y : Nat} (hy : y ≠ b) :
    Anc (prevOf s₁) x y ↔ Anc (prevOf s) x y := by
  have hnum := h.num
  constructor
  · intro hxy
    induction hxy with
    | refl => exact Anc.refl _ _
    | tail _ hstep ih =>
      rw [h.prevOf_old hy] at hstep
      have := ht.prev_lt _ _ hstep
      have := ht.lt_of_prev hstep
      exact (ih (by omega)).trans (Anc.of_parent hstep)
  · intro hxy
    induction hxy with
    | refl => exact Anc.refl _ _
    | tail _ hstep ih =>
      have := ht.prev_lt _ _ hstep
      have := ht.lt_of_prev hstep
      rw [← h.prevOf_old hy] at hstep
      exact (ih (by omega)).trans (Anc.of_parent hstep)

/-- The new block is nobody's ancestor. -/
theorem Attached.anc_new (h : Attached s s₁ prev b) (ht : TreeOk s) {x : Nat}
    (hbx : Anc (prevOf s₁) b x) : x = b := by
  by_contra hx
  rw [h.anc_old ht hx] at hbx
  have := h.num
  rcases anc_iff_eq_or_child.mp hbx with heq | ⟨c, hc, -⟩
  · exact hx heq.symm
  · have := ht.prev_lt c b hc
    have := ht.lt_of_prev hc
    omega

theorem Attached.clean_old (h : Attached s s₁ prev b) {x : Nat} (hx : x ≠ b) :
    Clean s₁ x ↔ Clean s x := by
  rw [Clean, Clean, h.blk_old x hx, h.numBlocks]
  have := h.num
  constructor
  · exact fun hc => ⟨by omega, hc.2⟩
  · exact fun hc => ⟨by omega, hc.2⟩

theorem Attached.clean_ne (h : Attached s s₁ prev b) {x : Nat} (hx : Clean s x) : x ≠ b := by
  have := h.num
  have := hx.1
  omega

theorem Attached.blockAllKnown_old (h : Attached s s₁ prev b) {x : Nat} (hx : x ≠ b) :
    blockAllKnown s₁ x = blockAllKnown s x := by
  have hshard : s₁.shardOf x = s.shardOf x := by
    funext i
    rw [State.shardOf, h.blk_old x hx, State.shardOf]
  rw [blockAllKnown, blockAllKnown, h.blk_old x hx, hshard]

theorem Attached.known_old (h : Attached s s₁ prev b) (ht : TreeOk s) {x : Nat} (hx : x ≠ b) :
    Known s₁ x ↔ Known s x := by
  have hab : ∀ {a : Nat}, Anc (prevOf s₁) a x → a ≠ b := by
    rintro a hax rfl
    exact hx (h.anc_new ht hax)
  constructor
  · intro hk a hax
    rw [← h.anc_old ht hx] at hax
    rw [← h.blockAllKnown_old (hab hax)]
    exact hk a hax
  · intro hk a hax
    rw [h.blockAllKnown_old (hab hax)]
    exact hk a ((h.anc_old ht hx).mp hax)

/-- The new block is known when its parent is, and all of it. -/
theorem Attached.known_new_iff (h : Attached s s₁ prev b) (ht : TreeOk s) :
    Known s₁ b ↔ Known s prev ∧ blockAllKnown s₁ b = true := by
  rw [← h.known_old ht h.prev_ne]
  constructor
  · exact fun hk => ⟨fun a ha => hk a (ha.trans (Anc.of_parent h.prev_new)), hk b (Anc.refl _ _)⟩
  · rintro ⟨hkp, hkb⟩ a ha
    rcases anc_iff_eq_or_parent.mp ha with rfl | ⟨p, hp, hap⟩
    · exact hkb
    · rw [h.prev_new] at hp
      obtain rfl := Option.some.inj hp
      exact hkp a hap

theorem Attached.knownHead_eq (h : Attached s s₁ prev b) : knownHead s₁ = knownHead s := by
  rw [knownHead, knownHead, h.knowns]

theorem Attached.chainHead_eq (h : Attached s s₁ prev b) : chainHead s₁ = chainHead s := by
  rw [chainHead, chainHead, h.chains]

/-- An old longest chain is an old clean block. -/
theorem ChainsOk.clean (hc : ChainsOk s) {x : Nat} (hx : x ∈ s.longestChains) : Clean s x :=
  ((hc.mem x).mp hx).1

theorem ChainsOk.head_clean (hc : ChainsOk s) : Clean s (chainHead s) :=
  hc.clean (headD_mem hc.ne_nil)

theorem KnownsOk.clean (hk : KnownsOk s) {x : Nat} (hx : x ∈ s.longestKnowns) : Clean s x :=
  ((hk.mem x).mp hx).1.1

theorem ChainsOk.level (hc : ChainsOk s) : Level (workOf s) s.longestChains where
  ne_nil := hc.ne_nil
  same x hx y hy := by
    have hx := (hc.mem x).mp hx
    have hy := (hc.mem y).mp hy
    exact Nat.le_antisymm (hy.2 x hx.1) (hx.2 y hy.1)

theorem KnownsOk.level (hk : KnownsOk s) : Level (workOf s) s.longestKnowns where
  ne_nil := hk.ne_nil
  same x hx y hy := by
    have hx := (hk.mem x).mp hx
    have hy := (hk.mem y).mp hy
    exact Nat.le_antisymm (hy.2 x hx.1) (hx.2 y hy.1)

/-- With the old heads the pairing is the old one. -/
theorem Attached.paired_old (h : Attached s s₁ prev b) (ht : TreeOk s) (hc : ChainsOk s)
    (hp : Paired s) : Paired s₁ := by
  intro k hk c hcm hkc
  rw [h.knowns] at hk
  rw [h.chains] at hcm
  rw [h.anc_old ht (h.clean_ne (hc.clean hcm))] at hkc
  rw [h.knownHead_eq, h.chainHead_eq, h.anc_old ht (h.clean_ne hc.head_clean)]
  exact hp k hk c hcm hkc

/-- A level of old blocks is one after the block is attached. -/
theorem Attached.level (h : Attached s s₁ prev b) {l : List BlockId} (hl : Level (workOf s) l)
    (hold : ∀ x : Nat, x ∈ l → Clean s x) : Level (workOf s₁) l where
  ne_nil := hl.ne_nil
  same x hx y hy := by
    rw [h.workOf_old (h.clean_ne (hold x hx)), h.workOf_old (h.clean_ne (hold y hy))]
    exact hl.same x hx y hy

/-- Keeping the new block or not, `longest_chains` is right again. -/
theorem Attached.chainsOk (h : Attached s s₁ prev b) (hc : ChainsOk s) {s₂ : State D}
    (hs₂ : SameBlocks s₁ s₂)
    (hchains : s₂.longestChains = keepBest (workOf s₁) s.longestChains b)
    (hclean : Clean s₁ b) : ChainsOk s₂ := by
  have hlevel := h.level hc.level fun x hx => hc.clean hx
  refine ⟨hchains ▸ (level_keepBest hlevel b).ne_nil, fun x => ?_⟩
  rw [hchains, mem_keepBest hlevel, hs₂.best_eq, hs₂.clean_eq]
  constructor
  · rintro ⟨hx, hbx, hmax⟩
    have hcx : Clean s₁ x := by
      rcases hx with hx | rfl
      · have := hc.clean hx
        exact (h.clean_old (h.clean_ne this)).mpr this
      · exact hclean
    refine ⟨hcx, fun y hy => ?_⟩
    by_cases hyb : y = b
    · rw [hyb]
      exact hbx
    · obtain ⟨m, hm⟩ := List.exists_mem_of_ne_nil _ hc.ne_nil
      have hy' := (h.clean_old hyb).mp hy
      have hym := ((hc.mem m).mp hm).2 y hy'
      rw [← h.workOf_old hyb, ← h.workOf_old (h.clean_ne (hc.clean hm))] at hym
      exact hym.trans (hmax m hm)
  · rintro ⟨hcx, hmax⟩
    refine ⟨?_, hmax b hclean, fun z hz => hmax z ?_⟩
    · by_cases hxb : x = b
      · exact Or.inr hxb
      · refine Or.inl ((hc.mem x).mpr ⟨(h.clean_old hxb).mp hcx, fun y hy => ?_⟩)
        have := hmax y ((h.clean_old (h.clean_ne hy)).mpr hy)
        rwa [h.workOf_old (h.clean_ne hy), h.workOf_old hxb] at this
    · have := hc.clean hz
      exact (h.clean_old (h.clean_ne this)).mpr this

/-- What is known of the new block is still pending. -/
theorem Attached.knownsPending (h : Attached s s₁ prev b) (ht : TreeOk s) (hk : KnownsOk s)
    {s₂ : State D} (hs₂ : SameBlocks s₁ s₂)
    (hflag : ∀ x, (s₂.blk x).allKnown = (s₁.blk x).allKnown)
    (hknowns : s₂.longestKnowns.Perm s.longestKnowns) : KnownsPending s₂ b := by
  have hold : ∀ {x : Nat}, x ∈ s₂.longestKnowns → Clean s x := fun hx =>
    hk.clean (hknowns.mem_iff.mp hx)
  have hwork : ∀ {x : Nat}, x ≠ b → workOf s₂ x = workOf s x := fun hx => by
    rw [hs₂.workOf_eq, h.workOf_old hx]
  have hclean : ∀ {x : Nat}, x ≠ b → (Clean s₂ x ↔ Clean s x) := fun hx => by
    rw [hs₂.clean_eq, h.clean_old hx]
  have hknown : ∀ {x : Nat}, x ≠ b → (Known s₂ x ↔ Known s x) := fun hx => by
    rw [hs₂.known_eq, h.known_old ht hx]
  have hflags : ∀ {x : Nat}, x ≠ b → (s₂.blk x).allKnown = (s.blk x).allKnown := fun hx => by
    rw [hflag, h.blk_old _ hx]
  refine ⟨⟨fun hnil => hk.ne_nil (by rw [hnil] at hknowns; exact hknowns.nil_eq.symm), ?_⟩,
    ?_, ?_, ?_, ?_⟩
  · intro x hx y hy
    rw [hwork (h.clean_ne (hold hx)), hwork (h.clean_ne (hold hy))]
    exact hk.level.same x (hknowns.mem_iff.mp hx) y (hknowns.mem_iff.mp hy)
  · intro k hkm
    have hc := hold hkm
    have hkb := ((hk.mem k).mp (hknowns.mem_iff.mp hkm)).1.2
    exact ⟨(hclean (h.clean_ne hc)).mpr hc, (hknown (h.clean_ne hc)).mpr hkb⟩
  · intro c hc hkc
    by_cases hcb : c = b
    · exact Or.inl (hcb ▸ Anc.refl _ _)
    · refine Or.inr fun k hkm => ?_
      have hc := (hclean hcb).mp hc
      have hkc := (hknown hcb).mp hkc
      have hbest := (hk.mem k).mp (hknowns.mem_iff.mp hkm)
      rw [hwork hcb, hwork (h.clean_ne (hold hkm))]
      refine ⟨hbest.2 c ⟨hc, hkc⟩, fun heq => hknowns.mem_iff.mpr ((hk.mem c).mpr
        ⟨⟨hc, hkc⟩, fun d hd => heq ▸ hbest.2 d hd⟩)⟩
  · intro c hc hfl
    by_cases hcb : c = b
    · rw [hcb, hflag, h.flag_new] at hfl
      exact absurd hfl (by simp)
    · rw [hflags hcb] at hfl
      exact (hknown hcb).mpr ((hk.flag c ((hclean hcb).mp hc)).mp hfl)
  · intro c hc hkc
    by_cases hcb : c = b
    · exact Or.inl (hcb ▸ Anc.refl _ _)
    · refine Or.inr ?_
      rw [hflags hcb]
      exact (hk.flag c ((hclean hcb).mp hc)).mpr ((hknown hcb).mp hkc)

/-- A block whose shards are not all known has no known descendants. -/
theorem not_known_of_not_blockAllKnown (h : ¬ blockAllKnown s b = true) {c : Nat}
    (hc : Known s c) : ¬ Anc (prevOf s) b c :=
  fun hbc => h (hc b hbc)

/-- The first part of `update_block_ptrs_new_block`: the new block is compared with
the longest chains. -/
def comparedWithChains (s : State D) (block : BlockId) : State D :=
  match cmpWork s block (s.longestChains.headD 0) with
  | .gt => newLongest { s with longestChains := [block] } block
  | .eq => newLongest { s with longestChains := s.longestChains ++ [block] } block
  | .lt => s

theorem updateBlockPtrsNewBlock_eq (s : State D) (b : Nat) :
    updateBlockPtrsNewBlock s b = updatePreferredChain
      (if blockAllKnown (comparedWithChains s b) b then updateKnown (comparedWithChains s b) b
      else comparedWithChains s b) := rfl

/-- What `new_longest` is given, with the features it may note. -/
def notedFeatures (s : State D) (chains : List BlockId) (b : BlockId) : State D :=
  if (s.blk b).pendingFeatures != 0 && s.upcomingFeatures == 0 then
    { s with longestChains := chains, upcomingFeatures := (s.blk b).pendingFeatures }
  else { s with longestChains := chains }

theorem newLongest_eq (s : State D) (chains : List BlockId) (b : Nat) :
    newLongest { s with longestChains := chains } b
      = updatePreferredChain (orderBlockPointers (notedFeatures s chains b)) := rfl

theorem notedFeatures_spec (s : State D) (chains : List BlockId) (b : Nat) :
    SameBlocks s (notedFeatures s chains b) ∧
      (∀ x : Nat, ((notedFeatures s chains b).blk x).allKnown = (s.blk x).allKnown) ∧
      (notedFeatures s chains b).longestChains = chains ∧
      (notedFeatures s chains b).longestKnowns = s.longestKnowns ∧
      (notedFeatures s chains b).pending = s.pending := by
  unfold notedFeatures
  split_ifs <;> exact ⟨⟨rfl, fun _ => rfl⟩, fun _ => rfl, rfl, rfl, rfl⟩

/-- The heads after the new block was compared with the longest chains. -/
theorem Attached.compared (h : Attached s s₁ prev b) (ht : TreeOk s) (ho : HeadsOk s)
    (hclean : Clean s₁ b) :
    SameBlocks s₁ (comparedWithChains s₁ b) ∧ ChainsOk (comparedWithChains s₁ b) ∧
      KnownsPending (comparedWithChains s₁ b) b ∧ Paired (comparedWithChains s₁ b) ∧
      (Anc (prevOf s) (knownHead s) (chainHead s) → ¬ workOf s (chainHead s) < workOf s₁ b →
        chainHead (comparedWithChains s₁ b) = chainHead s ∧
          knownHead (comparedWithChains s₁ b) = knownHead s) := by
  have ht₁ := h.treeOk ht
  have hlevel := h.level ho.chains.level fun x hx => ho.chains.clean hx
  have hne := hlevel.ne_nil
  have hkeep := keepBestWork_eq_keepBest (s := s₁) (b := b) hne
  rw [keepBestWork] at hkeep
  -- the pointers are put in order, with the chains kept by the comparison
  have ordered : ∀ chains, chains = keepBest (workOf s₁) s.longestChains b →
      let s₂ := updatePreferredChain (orderBlockPointers (notedFeatures s₁ chains b))
      SameBlocks s₁ s₂ ∧ ChainsOk s₂ ∧ KnownsPending s₂ b ∧ Paired s₂ := by
    intro chains hc₀
    obtain ⟨hs₀, hf₀, hchains₀, hk₀, -⟩ := notedFeatures_spec s₁ chains b
    obtain ⟨hsame, hflag, hchains, hknowns, hpaired⟩ := orderBlockPointers_spec (hs₀.treeOk ht₁)
    generalize orderBlockPointers (notedFeatures s₁ chains b) = s₂
      at hsame hflag hchains hknowns hpaired ⊢
    have hsame' : SameBlocks s₁ (updatePreferredChain s₂) :=
      hs₀.trans (hsame.trans (sameBlocks_updatePreferredChain s₂))
    refine ⟨hsame', ?_, ?_, hpaired⟩
    · have hck := h.chainsOk ho.chains hs₀ (hchains₀.trans hc₀) hclean
      exact hck.congr (hsame.trans (sameBlocks_updatePreferredChain _)) hchains
    · exact h.knownsPending ht ho.knowns hsame' (fun x => (hflag x).trans (hf₀ x))
        (hknowns.trans (hk₀ ▸ h.knowns ▸ List.Perm.refl _))
  rw [comparedWithChains, h.chains]
  cases hcmp : cmpWork s₁ b (s.longestChains.headD 0) with
  | gt =>
    rw [hcmp] at hkeep
    dsimp only
    rw [newLongest_eq]
    obtain ⟨h₁, h₂, h₃, h₄⟩ := ordered [b] hkeep
    refine ⟨h₁, h₂, h₃, h₄, fun _ hle => absurd ?_ hle⟩
    rw [← h.workOf_old (h.clean_ne ho.chains.head_clean)]
    exact Nat.compare_eq_gt.mp hcmp
  | eq =>
    rw [hcmp] at hkeep
    dsimp only
    rw [newLongest_eq]
    obtain ⟨h₁, h₂, h₃, h₄⟩ := ordered (s.longestChains ++ [b]) hkeep
    refine ⟨h₁, h₂, h₃, h₄, fun hpair _ => ?_⟩
    obtain ⟨hsame₀, -, hc₀, hk₀, -⟩ := notedFeatures_spec s₁ (s.longestChains ++ [b]) b
    have hch₀ : chainHead (notedFeatures s₁ (s.longestChains ++ [b]) b) = chainHead s := by
      obtain ⟨c, cs, hcs⟩ := List.exists_cons_of_ne_nil hne
      rw [chainHead, hc₀, hcs, chainHead, hcs]
      rfl
    have hkh₀ : knownHead (notedFeatures s₁ (s.longestChains ++ [b]) b) = knownHead s := by
      rw [knownHead, hk₀, h.knowns, knownHead]
    obtain ⟨h₅, h₆⟩ := orderBlockPointers_fronts (hsame₀.treeOk ht₁) (by rw [hc₀]; simp)
      (by rw [hk₀, h.knowns]; exact ho.knowns.ne_nil) (by
        rw [hsame₀.prevOf_eq, hch₀, hkh₀, h.anc_old ht (h.clean_ne ho.chains.head_clean)]
        exact hpair)
    rw [(updatePreferredChain_fronts _).1, (updatePreferredChain_fronts _).2]
    exact ⟨h₅.trans hch₀, h₆.trans hkh₀⟩
  | lt =>
    rw [hcmp] at hkeep
    refine ⟨SameBlocks.refl s₁, ?_, ?_, ?_, fun _ _ => ⟨h.chainHead_eq, h.knownHead_eq⟩⟩
    · exact h.chainsOk ho.chains (SameBlocks.refl s₁) (h.chains.trans hkeep) hclean
    · exact h.knownsPending ht ho.knowns (SameBlocks.refl s₁) (fun _ => rfl)
        (h.knowns ▸ List.Perm.refl _)
    · exact h.paired_old ht ho.chains ho.paired

/-- On a clean parent. -/
theorem Attached.headsOk_of_clean (h : Attached s s₁ prev b) (ht : TreeOk s) (ho : HeadsOk s)
    (hclean : Clean s₁ b) :
    SameBlocks s₁ (updateBlockPtrsNewBlock s₁ b) ∧ HeadsOk (updateBlockPtrsNewBlock s₁ b) := by
  obtain ⟨hsame, hchains, hpend, hpaired, -⟩ := h.compared ht ho hclean
  rw [updateBlockPtrsNewBlock_eq]
  generalize comparedWithChains s₁ b = s₂ at hsame hchains hpend hpaired ⊢
  have ht₂ := hsame.treeOk (h.treeOk ht)
  have hb₂ : b < s₂.numBlocks := hsame.numBlocks ▸ hclean.1
  by_cases hall : blockAllKnown s₂ b = true
  · rw [if_pos hall]
    obtain ⟨h₁, h₂, h₃, h₄, -⟩ := updateKnown_headsOk ht₂ hb₂ hchains hpend hpaired
    exact ⟨hsame.trans (h₁.trans (sameBlocks_updatePreferredChain _)),
      updatePreferredChain_headsOk (h₁.treeOk ht₂) h₂ h₃ h₄⟩
  · rw [if_neg hall]
    have hk := hpend.knownsOk_of_none fun c _ hc => not_known_of_not_blockAllKnown hall hc
    exact ⟨hsame.trans (sameBlocks_updatePreferredChain s₂),
      updatePreferredChain_headsOk ht₂ hchains hk hpaired⟩

/-- On a parent with a complaint nothing moves. -/
theorem Attached.headsOk_of_complaint (h : Attached s s₁ prev b) (ht : TreeOk s)
    (ho : HeadsOk s) (hb : (s₁.blk b).complaint.isSome) : HeadsOk s₁ := by
  have hne : ∀ {x : Nat}, Clean s₁ x → x ≠ b := by
    rintro x hx rfl
    rw [hx.2] at hb
    exact absurd hb (by simp)
  have hclean : ∀ {x : Nat}, Clean s₁ x ↔ Clean s x := fun {x} =>
    ⟨fun hx => (h.clean_old (hne hx)).mp hx, fun hx => (h.clean_old (h.clean_ne hx)).mpr hx⟩
  have hbest : ∀ {P P' : Nat → Prop} {x : Nat}, (∀ y, P y ↔ P' y) → (∀ y, P' y → Clean s y) →
      (Best s₁ P x ↔ Best s P' x) := by
    intro P P' x hP hP'
    rw [Best, Best, hP]
    refine and_congr_right fun hx => ?_
    have hwork : ∀ {y : Nat}, P' y → workOf s₁ y = workOf s y := fun hy =>
      h.workOf_old (h.clean_ne (hP' _ hy))
    constructor
    · intro hmax y hy
      rw [← hwork hx, ← hwork hy]
      exact hmax y ((hP y).mpr hy)
    · intro hmax y hy
      rw [hwork hx, hwork ((hP y).mp hy)]
      exact hmax y ((hP y).mp hy)
  have hpclean : Clean s s.preferredChain := ho.preferred.best.1.1
  refine ⟨⟨h.chains ▸ ho.chains.ne_nil, fun x => ?_⟩, ⟨h.knowns ▸ ho.knowns.ne_nil, fun x => ?_,
    fun x hx => ?_⟩, ?_, ⟨?_, ?_⟩⟩
  · rw [h.chains, ho.chains.mem x]
    exact (hbest (fun y => hclean) fun y hy => hy).symm
  · rw [h.knowns, ho.knowns.mem x]
    refine (hbest (fun y => ?_) fun y hy => hy.1).symm
    constructor
    · rintro ⟨hy, hk⟩
      exact ⟨hclean.mp hy, (h.known_old ht (hne hy)).mp hk⟩
    · rintro ⟨hy, hk⟩
      exact ⟨hclean.mpr hy, (h.known_old ht (h.clean_ne hy)).mpr hk⟩
  · rw [h.blk_old x (hne hx), h.known_old ht (hne hx)]
    exact ho.knowns.flag x (hclean.mp hx)
  · exact h.paired_old ht ho.chains ho.paired
  · rw [h.preferred, h.knownHead_eq]
    refine (hbest (fun y => ?_) fun y hy => hy.1).mpr ho.preferred.best
    constructor
    · rintro ⟨hy, hk⟩
      exact ⟨hclean.mp hy, (h.anc_old ht (hne hy)).mp hk⟩
    · rintro ⟨hy, hk⟩
      exact ⟨hclean.mpr hy, (h.anc_old ht (h.clean_ne hy)).mpr hk⟩
  · intro c hc hkc hwork hfork
    rw [h.preferred] at hwork hfork
    rw [h.knownHead_eq, h.anc_old ht (hne hc)] at hkc
    rw [h.workOf_old (hne hc), h.workOf_old (h.clean_ne hpclean)] at hwork
    refine ho.preferred.first c (hclean.mp hc) hkc hwork ?_
    obtain ⟨f, x, y, hx, hy, hlt, hxc, hyp⟩ := hfork
    have hxb : x ≠ b := by
      rintro rfl
      exact hne hc (h.anc_new ht hxc)
    have hyb : y ≠ b := by
      rintro rfl
      exact h.clean_ne hpclean (h.anc_new ht hyp)
    rw [h.prevOf_old hxb] at hx
    rw [h.prevOf_old hyb] at hy
    exact ⟨f, x, y, hx, hy, hlt, (h.anc_old ht (hne hc)).mp hxc,
      (h.anc_old ht (h.clean_ne hpclean)).mp hyp⟩

/-- **A block is added.** -/
theorem addBlock_inv (hi : ChainInv s) {nb : NewBlock D}
    (ha : (ChainOp.addBlock prev nb).Admitted s) : ChainInv (blockAddHeads s prev nb) := by
  obtain ⟨hprev, hdepth, hwork⟩ := ha
  have h := attached_sewBlock hprev hdepth hwork
  have ht₁ := h.treeOk hi.tree
  have hn := h.numBlocks
  rw [blockAddHeads]
  cases hc : ((sewBlock s prev nb).blk s.numBlocks).complaint with
  | some m =>
    rw [Option.isSome_some, if_pos rfl]
    exact ⟨ht₁, h.headsOk_of_complaint hi.tree hi.heads (by rw [hc]; rfl)⟩
  | none =>
    rw [Option.isSome_none, if_neg Bool.false_ne_true]
    obtain ⟨hsame, ho⟩ := h.headsOk_of_clean hi.tree hi.heads ⟨by omega, hc⟩
    exact ⟨hsame.treeOk ht₁, ho⟩

-- ---------------------------------------------------------------------------
-- A shard is filled
-- ---------------------------------------------------------------------------

/-- `s₁` is `s` with more of block `b` known. -/
structure Refilled (s s₁ : State D) (b : Nat) : Prop where
  numBlocks : s₁.numBlocks = s.numBlocks
  prev : prevOf s₁ = prevOf s
  work : workOf s₁ = workOf s
  depth : ∀ x : Nat, (s₁.blk x).depth = (s.blk x).depth
  complaint : ∀ x : Nat, (s₁.blk x).complaint = (s.blk x).complaint
  flag : ∀ x : Nat, (s₁.blk x).allKnown = (s.blk x).allKnown
  known_old : ∀ x : Nat, x ≠ b → blockAllKnown s₁ x = blockAllKnown s x
  known_new : blockAllKnown s b = true → blockAllKnown s₁ b = true
  chains : s₁.longestChains = s.longestChains
  knowns : s₁.longestKnowns = s.longestKnowns
  preferred : s₁.preferredChain = s.preferredChain

/-- A change to the shards of the block. -/
theorem refilled_of_blk (hnum : s₁.numBlocks = s.numBlocks)
    (hblk : ∀ x : Nat, s₁.blk x = { s.blk x with shard := (s₁.blk x).shard })
    (hold : ∀ x : Nat, x ≠ b → (s₁.blk x).shard = (s.blk x).shard)
    (hnew : blockAllKnown s b = true → blockAllKnown s₁ b = true)
    (hchains : s₁.longestChains = s.longestChains) (hknowns : s₁.longestKnowns = s.longestKnowns)
    (hpref : s₁.preferredChain = s.preferredChain) : Refilled s s₁ b where
  numBlocks := hnum
  prev := funext fun x => by rw [prevOf, hblk x, prevOf]
  work := funext fun x => by rw [workOf, hblk x, workOf]
  depth x := by rw [Block.depth, hblk x, Block.depth]
  complaint x := by rw [hblk x]
  flag x := by rw [hblk x]
  known_old x hx := by
    have hshard : s₁.shardOf x = s.shardOf x := by
      funext i
      rw [State.shardOf, hold x hx, State.shardOf]
    rw [blockAllKnown, blockAllKnown, Block.numShards, Block.numShards, hshard, hblk x]
  known_new := hnew
  chains := hchains
  knowns := hknowns
  preferred := hpref

theorem Refilled.refl (s : State D) (b : Nat) : Refilled s s b :=
  refilled_of_blk rfl (fun _ => rfl) (fun _ _ => rfl) id rfl rfl rfl

theorem refilled_modShard {shardnum : Nat} {shard : BlockShard D}
    (hshard : shardAllKnown shard = true) :
    Refilled s (s.modShard b shardnum fun _ => shard) b := by
  refine refilled_of_blk rfl (fun x => ?_) (fun x hx => ?_) (fun h => ?_) rfl rfl rfl
  · by_cases hx : x = b
    · subst hx
      simp [State.modShard, State.modBlock]
    · simp [State.modShard, State.modBlock, hx]
  · simp [State.modShard, State.modBlock, hx]
  · simp only [blockAllKnown, State.shardOf, State.modShard, State.modBlock, List.all_eq_true,
      List.mem_range, Function.update_self, Block.numShards] at h ⊢
    intro i hi
    by_cases hin : i = shardnum
    · subst hin
      rw [Function.update_self]
      exact hshard
    · rw [Function.update_of_ne hin]
      exact h i hi

section Refilled

variable (h : Refilled s s₁ b)
include h

theorem Refilled.clean_eq : Clean s₁ = Clean s := by
  funext x
  rw [Clean, h.numBlocks, h.complaint, Clean]

theorem Refilled.best_eq : Best s₁ = Best s := by
  funext P x
  rw [Best, h.work, Best]

theorem Refilled.treeOk (ht : TreeOk s) : TreeOk s₁ where
  genesis_lt := h.numBlocks ▸ ht.genesis_lt
  genesis_prev := h.prev ▸ ht.genesis_prev
  beyond := by
    rw [h.prev, h.numBlocks]
    exact ht.beyond
  has_prev := by
    rw [h.prev, h.numBlocks]
    exact ht.has_prev
  prev_lt := h.prev ▸ ht.prev_lt
  depth_genesis := (h.depth 0).trans ht.depth_genesis
  depth_prev x p hx := by
    rw [h.prev] at hx
    rw [h.depth, h.depth]
    exact ht.depth_prev x p hx
  work_prev := by
    rw [h.prev, h.work]
    exact ht.work_prev
  complaint_genesis := (h.complaint 0).trans ht.complaint_genesis
  complaint_prev x p hx := by
    rw [h.prev] at hx
    rw [h.complaint, h.complaint]
    exact ht.complaint_prev x p hx

theorem Refilled.known_mono {x : Nat} (hk : Known s x) : Known s₁ x := by
  intro a hax
  rw [h.prev] at hax
  by_cases ha : a = b
  · subst ha
    exact h.known_new (hk a hax)
  · rw [h.known_old a ha]
    exact hk a hax

/-- What became known lies below the block. -/
theorem Refilled.known_or {x : Nat} (hk : Known s₁ x) : Anc (prevOf s₁) b x ∨ Known s x := by
  by_cases hbx : Anc (prevOf s₁) b x
  · exact Or.inl hbx
  · refine Or.inr fun a hax => ?_
    have ha : a ≠ b := by
      rintro rfl
      exact hbx (h.prev ▸ hax)
    rw [← h.known_old a ha]
    exact hk a (h.prev ▸ hax)

theorem Refilled.trans (h' : Refilled s₁ s' b) : Refilled s s' b where
  numBlocks := h'.numBlocks.trans h.numBlocks
  prev := h'.prev.trans h.prev
  work := h'.work.trans h.work
  depth x := (h'.depth x).trans (h.depth x)
  complaint x := (h'.complaint x).trans (h.complaint x)
  flag x := (h'.flag x).trans (h.flag x)
  known_old x hx := (h'.known_old x hx).trans (h.known_old x hx)
  known_new hall := h'.known_new (h.known_new hall)
  chains := h'.chains.trans h.chains
  knowns := h'.knowns.trans h.knowns
  preferred := h'.preferred.trans h.preferred

theorem Refilled.chainsOk (hc : ChainsOk s) : ChainsOk s₁ where
  ne_nil := h.chains ▸ hc.ne_nil
  mem x := by
    rw [h.chains, h.best_eq, h.clean_eq]
    exact hc.mem x

theorem Refilled.knownsPending (hk : KnownsOk s) : KnownsPending s₁ b where
  level := by
    rw [h.work, h.knowns]
    exact hk.level
  sound x hx := by
    rw [h.knowns] at hx
    rw [h.clean_eq]
    obtain ⟨⟨hc, hkn⟩, -⟩ := (hk.mem x).mp hx
    exact ⟨hc, h.known_mono hkn⟩
  covered c hc hkc := by
    rw [h.clean_eq] at hc
    refine (h.known_or hkc).imp_right fun hkc k hkm => ?_
    rw [h.knowns] at hkm ⊢
    rw [h.work]
    have hbest := (hk.mem k).mp hkm
    exact ⟨hbest.2 c ⟨hc, hkc⟩, fun heq => (hk.mem c).mpr
      ⟨⟨hc, hkc⟩, fun d hd => heq ▸ hbest.2 d hd⟩⟩
  flag_sound c hc hfl := by
    rw [h.clean_eq] at hc
    rw [h.flag] at hfl
    exact h.known_mono ((hk.flag c hc).mp hfl)
  flag_covered c hc hkc := by
    rw [h.clean_eq] at hc
    refine (h.known_or hkc).imp_right fun hkc => ?_
    rw [h.flag]
    exact (hk.flag c hc).mpr hkc

theorem Refilled.paired (hp : Paired s) : Paired s₁ := by
  rw [Paired, knownHead, chainHead, h.chains, h.knowns, h.prev]
  exact hp

theorem Refilled.preferredOk (hp : PreferredOk s) : PreferredOk s₁ where
  best := by
    rw [knownHead, h.knowns, h.preferred, h.best_eq, h.clean_eq, h.prev]
    exact hp.best
  first := by
    rw [knownHead, h.knowns, h.preferred, h.clean_eq, h.prev, h.work]
    exact hp.first

/-- The heads after the shard was filled. -/
theorem Refilled.inv (hi : ChainInv s) (hb : b < s.numBlocks) :
    ChainInv (if blockAllKnown s₁ b then updateKnown s₁ b else s₁) := by
  have ht₁ := h.treeOk hi.tree
  have hpend := h.knownsPending hi.heads.knowns
  by_cases hall : blockAllKnown s₁ b = true
  · rw [if_pos hall]
    obtain ⟨h₁, h₂, h₃, h₄, h₅⟩ := updateKnown_headsOk ht₁ (h.numBlocks ▸ hb)
      (h.chainsOk hi.heads.chains) hpend (h.paired hi.heads.paired)
    exact ⟨h₁.treeOk ht₁, h₂, h₃, h₄, h₅ (Or.inl (h.preferredOk hi.heads.preferred))⟩
  · rw [if_neg hall]
    have hk := hpend.knownsOk_of_none fun c _ hc => not_known_of_not_blockAllKnown hall hc
    exact ⟨ht₁, h.chainsOk hi.heads.chains, hk, h.paired hi.heads.paired,
      h.preferredOk hi.heads.preferred⟩

/-- As long as the block is not fully known, the heads are right as they are. -/
theorem Refilled.inv_of_not (hi : ChainInv s) (hb : b < s.numBlocks)
    (hn : blockAllKnown s₁ b = false) : ChainInv s₁ := by
  have hinv := h.inv hi hb
  rwa [if_neg (by rw [hn]; exact Bool.false_ne_true)] at hinv

theorem Refilled.sameHeads (hs : SameHeads s₁ s')
    (hf : ∀ x : Nat, (s'.blk x).allKnown = (s₁.blk x).allKnown) : Refilled s s' b where
  numBlocks := hs.numBlocks.trans h.numBlocks
  prev := hs.prevOf_eq.trans h.prev
  work := hs.workOf_eq.trans h.work
  depth x := by
    rw [Block.depth, hs.hdr_eq]
    exact h.depth x
  complaint x := (hs.complaint_eq x).trans (h.complaint x)
  flag x := (hf x).trans (h.flag x)
  known_old x hx := by
    rw [hs.blockAllKnown_eq]
    exact h.known_old x hx
  known_new hall := by
    rw [hs.blockAllKnown_eq]
    exact h.known_new hall
  chains := hs.chains.trans h.chains
  knowns := hs.knowns.trans h.knowns
  preferred := hs.preferred.trans h.preferred

end Refilled

/-- **A shard is filled.** -/
theorem fillShard_inv [Digest D] {C : Crypto D} (hi : ChainInv s) {shardnum : Nat}
    {shard : BlockShard D} (ha : (ChainOp.fillShard b shardnum shard).Admitted s)
    (hs' : updateBlockPtrsNewShard C (s.modShard b shardnum fun _ => shard) b = .ok s') :
    ChainInv s' := by
  obtain ⟨hb, -, hshard⟩ := ha
  obtain ⟨_, -, hs'⟩ := of_bind_eq_ok hs'
  injection hs' with hs'
  rw [← hs']
  exact (refilled_modShard hshard).inv hi hb

-- ---------------------------------------------------------------------------
-- A subtree is invalidated
-- ---------------------------------------------------------------------------

section Invalidate

variable {complaint : Complaint D} (ht : TreeOk s) (hb0 : b ≠ 0) (hb : Clean s b)
include ht hb0 hb

omit hb0 in
theorem complaint_markComplaint (complaint : Complaint D) (x : Nat) :
    ((markComplaint s b complaint).blk x).complaint.isSome ↔
      Anc (prevOf s) b x ∨ (s.blk x).complaint.isSome := by
  rw [← blockPreceeds_iff ht]
  simp only [markComplaint, hb.1, decide_true, Bool.true_and]
  split_ifs with h <;> simp [h]

omit ht hb0 hb in
theorem blk_markComplaint (x : Nat) : (markComplaint s b complaint).blk x
    = { s.blk x with complaint := ((markComplaint s b complaint).blk x).complaint } := by
  simp only [markComplaint]
  split_ifs <;> rfl

omit ht hb0 hb in
theorem prevOf_markComplaint : prevOf (markComplaint s b complaint) = prevOf s :=
  funext fun x => by rw [prevOf, blk_markComplaint, prevOf]

omit ht hb0 hb in
theorem workOf_markComplaint : workOf (markComplaint s b complaint) = workOf s :=
  funext fun x => by rw [workOf, blk_markComplaint, workOf]

theorem markComplaint_treeOk : TreeOk (markComplaint s b complaint) where
  genesis_lt := ht.genesis_lt
  genesis_prev := prevOf_markComplaint (s := s) ▸ ht.genesis_prev
  beyond := prevOf_markComplaint (s := s) ▸ ht.beyond
  has_prev := prevOf_markComplaint (s := s) ▸ ht.has_prev
  prev_lt := prevOf_markComplaint (s := s) ▸ ht.prev_lt
  depth_genesis := by
    rw [blk_markComplaint]
    exact ht.depth_genesis
  depth_prev x p hx := by
    rw [prevOf_markComplaint] at hx
    rw [blk_markComplaint x, blk_markComplaint p]
    exact ht.depth_prev x p hx
  work_prev := by
    rw [prevOf_markComplaint, workOf_markComplaint]
    exact ht.work_prev
  complaint_genesis := by
    have h := (complaint_markComplaint ht hb complaint 0).not.mpr fun h => by
      rcases h with h | h
      · exact hb0 (Nat.le_zero.mp (h.le ht.grows))
      · rw [ht.complaint_genesis] at h
        simp at h
    simpa using h
  complaint_prev x p hx := by
    rw [prevOf_markComplaint] at hx
    rw [complaint_markComplaint ht hb, complaint_markComplaint ht hb]
    rintro (h | h)
    · exact Or.inl (h.trans (Anc.of_parent hx))
    · exact Or.inr (ht.complaint_prev x p hx h)

omit hb0 in
theorem clean_of_markComplaint {x : Nat} (hx : Clean (markComplaint s b complaint) x) :
    Clean s x := by
  refine ⟨hx.1, ?_⟩
  have h := (complaint_markComplaint ht hb complaint x).not.mp (by rw [hx.2]; simp)
  have h := (not_or.mp h).2
  simpa using h

end Invalidate

/-- `update_known_recursive` from an entered clean block of enough work changes
something. -/
theorem updateKnownRecursive_changed {fuel : Nat}
    (hprev : ∀ p : Nat, prevOf s b = some p → (s.blk p).allKnown = true)
    (hall : blockAllKnown s b = true) (hc : (s.blk b).complaint = none)
    (hwork : cmpWork s b (knownHead s) ≠ .lt) :
    (updateKnownRecursive (fuel + 1) s b).2 = true := by
  have or_mono : ∀ (l : List BlockId) (acc : State D × Bool), acc.2 = true →
      (l.foldl (fun acc b =>
        let r := updateKnownRecursive fuel acc.1 b
        (r.1, acc.2 || r.2)) acc).2 = true := by
    intro l
    induction l with
    | nil => exact fun _ h => h
    | cons c l ih =>
      intro acc h
      rw [List.foldl_cons]
      exact ih _ (by simp [h])
  have hgate : ((s.blk b).prev.any fun p => !(s.blk p).allKnown) = false := by
    cases hp : (s.blk b).prev with
    | none => rfl
    | some p => simpa using hprev p hp
  have hsame : SameBlocks s (s.modBlock b fun blk => { blk with allKnown := true }) := by
    have := sameBlocks_markKnown s [b]
    rw [markKnown_singleton hc] at this
    exact ⟨this.numBlocks, this.blk⟩
  rw [updateKnownRecursive, hgate]
  simp only [Bool.false_eq_true, if_false, hall, Bool.not_true, hsame.complaint_eq, hc,
    Option.isSome_none]
  apply or_mono
  have hcmp : cmpWork (s.modBlock b fun blk => { blk with allKnown := true }) b
      (knownHead s) = cmpWork s b (knownHead s) := by
    have hwork : ∀ x, ((s.modBlock b fun blk => { blk with allKnown := true }).blk x).totalWork
        = (s.blk x).totalWork := fun x => by rw [hsame.blk x]
    rw [cmpWork, cmpWork, hwork, hwork]
  change (cmpWork (s.modBlock b fun blk => { blk with allKnown := true }) b
    (knownHead s) != .lt) = true
  rw [hcmp]
  simpa using hwork

/-- Where the recalculation starts `update_known`: `longest_chains` is what the
search from the genesis block keeps, and everything known is still pending. -/
theorem recalculateHeads_start (ht : TreeOk s) (hall : blockAllKnown s 0 = true)
    (hflag : ∀ c : Nat, Clean s c → (s.blk c).allKnown = true → Known s c) :
    ∃ s₀, recalculateHeads s = updateKnown s₀ 0 ∧ SameBlocks s s₀ ∧ ChainsOk s₀ ∧
      KnownsPending s₀ 0 ∧ Paired s₀ ∧ (updateKnownRecursive s₀.numBlocks s₀ 0).2 = true ∧
      s₀.longestChains = (cleanSearch s s.numBlocks 0).foldl (keepBest (workOf s)) [0] ∧
      s₀.longestKnowns = [0] := by
  have hlevel : Level (workOf s) [0] := level_singleton 0
  generalize hs₀ : ({ s with
    longestChains := findLongestDescendents s s.numBlocks 0 [0]
    longestKnowns := [0]
    preferredChain := 0 } : State D) = s₀
  have hrecalc : recalculateHeads s = updateKnown s₀ 0 := by
    rw [recalculateHeads, ← hs₀]
    congr 2
    rw [findLongestDescendents_eq_foldl, findLongestDescendents_eq_foldl]
    rfl
  have hsame : SameBlocks s s₀ := by
    rw [← hs₀]
    exact ⟨rfl, fun _ => rfl⟩
  have hflag₀ : ∀ x, (s₀.blk x).allKnown = (s.blk x).allKnown := fun x => by rw [← hs₀]
  have hknowns : s₀.longestKnowns = [0] := by rw [← hs₀]
  have hchains : s₀.longestChains = (cleanSearch s s.numBlocks 0).foldl (keepBest (workOf s)) [0] := by
    rw [← hs₀, ← foldl_keepBestWork hlevel, ← findLongestDescendents_eq_foldl]
  have ht₀ := hsame.treeOk ht
  have hknown0 : Known s 0 := by
    intro a ha
    have := ha.le ht.grows
    rw [show a = 0 by omega]
    exact hall
  have hc : ChainsOk s₀ := by
    refine ⟨hchains ▸ (level_foldl_keepBest hlevel _).ne_nil, fun x => ?_⟩
    have hmem : ∀ {c : Nat}, c ∈ [0] ∨ c ∈ cleanSearch s s.numBlocks 0 ↔ Clean s c := by
      intro c
      rw [List.mem_singleton, mem_cleanSearch ht ht.genesis_lt]
      constructor
      · rintro (rfl | h)
        · exact ht.genesis_clean
        · exact h.1
      · exact fun h => Or.inr ⟨h, ht.genesis_anc h.1⟩
    rw [hchains, mem_foldl_keepBest hlevel, hsame.best_eq, hsame.clean_eq, hmem]
    exact and_congr_right fun _ => ⟨fun h y hy => h y (hmem.mpr hy), fun h y hy => h y (hmem.mp hy)⟩
  have hpend : KnownsPending s₀ 0 :=
    { level := by
        rw [hsame.workOf_eq, hknowns]
        exact hlevel
      sound := fun k hk => by
        rw [hknowns, List.mem_singleton] at hk
        rw [hk, hsame.clean_eq, hsame.known_eq]
        exact ⟨ht.genesis_clean, hknown0⟩
      covered := fun c hc _ => Or.inl (ht₀.genesis_anc hc.1)
      flag_sound := fun c hc hfl => by
        rw [hsame.clean_eq] at hc
        rw [hflag₀] at hfl
        rw [hsame.known_eq]
        exact hflag c hc hfl
      flag_covered := fun c hc _ => Or.inl (ht₀.genesis_anc hc.1) }
  have hpaired : Paired s₀ := by
    intro k _ c _ _
    rw [knownHead, hknowns]
    exact ht₀.genesis_anc hc.head_clean.1
  have hchanged : (updateKnownRecursive s₀.numBlocks s₀ 0).2 = true := by
    obtain ⟨n, hn⟩ := Nat.exists_eq_succ_of_ne_zero (Nat.ne_of_gt ht₀.genesis_lt)
    rw [hn]
    refine updateKnownRecursive_changed (fun p hp => ?_) ?_ ht₀.complaint_genesis ?_
    · rw [ht₀.genesis_prev] at hp
      exact absurd hp (by simp)
    · rw [hsame.blockAllKnown_eq]
      exact hall
    · rw [knownHead, hknowns, cmpWork, List.headD_cons, Nat.compare_eq_eq.mpr rfl]
      simp
  exact ⟨s₀, hrecalc, hsame, hc, hpend, hpaired, hchanged, hchains, hknowns⟩

/-- The heads are right after they are recalculated from the genesis block. -/
theorem recalculateHeads_headsOk (ht : TreeOk s) (hall : blockAllKnown s 0 = true)
    (hflag : ∀ c : Nat, Clean s c → (s.blk c).allKnown = true → Known s c) :
    SameBlocks s (recalculateHeads s) ∧ HeadsOk (recalculateHeads s) := by
  obtain ⟨s₀, hrecalc, hsame, hc, hpend, hpaired, hchanged, -⟩ :=
    recalculateHeads_start ht hall hflag
  have ht₀ := hsame.treeOk ht
  obtain ⟨h₁, h₂, h₃, h₄, h₅⟩ := updateKnown_headsOk ht₀ ht₀.genesis_lt hc hpend hpaired
  rw [hrecalc]
  exact ⟨hsame.trans h₁, h₂, h₃, h₄, h₅ (Or.inr hchanged)⟩

/-- What the recalculation after a complaint needs. -/
structure Recalculable (s : State D) : Prop where
  tree : TreeOk s
  genesis : blockAllKnown s 0 = true
  flag : ∀ c : Nat, Clean s c → (s.blk c).allKnown = true → Known s c

/-- The genesis block is fully known. -/
theorem ChainInv.genesis_known (hi : ChainInv s) : blockAllKnown s 0 = true :=
  ((hi.heads.knowns.mem _).mp (headD_mem hi.heads.knowns.ne_nil)).1.2 0
    (hi.tree.genesis_anc hi.heads.knowns.head_clean.1)

theorem ChainInv.recalculable (hi : ChainInv s) : Recalculable s :=
  ⟨hi.tree, hi.genesis_known, fun c hc => (hi.heads.knowns.flag c hc).mp⟩

/-- A complaint leaves it so. -/
theorem Recalculable.markComplaint (complaint : Complaint D) (hr : Recalculable s)
    (ha : (ChainOp.invalidate b complaint).Admitted s) :
    Recalculable (markComplaint s b complaint) := by
  obtain ⟨hb0, hb⟩ := ha
  have hall : blockAllKnown (Pettycoin.markComplaint s b complaint) = blockAllKnown s := by
    have hshard : (Pettycoin.markComplaint s b complaint).shardOf = s.shardOf := by
      funext x i
      rw [State.shardOf, blk_markComplaint, State.shardOf]
    funext x
    rw [blockAllKnown, blockAllKnown, hshard, blk_markComplaint, Block.numShards, Block.numShards]
  have hknown : Known (Pettycoin.markComplaint s b complaint) = Known s := by
    funext x
    rw [Known, Known, prevOf_markComplaint, hall]
  refine ⟨markComplaint_treeOk hr.tree hb0 hb, hall ▸ hr.genesis, fun c hc hfl => ?_⟩
  rw [blk_markComplaint] at hfl
  rw [hknown]
  exact hr.flag c (clean_of_markComplaint hr.tree hb hc) hfl

/-- The recalculated heads are right. -/
theorem Recalculable.inv (hr : Recalculable s) : ChainInv (recalculateHeads s) := by
  obtain ⟨hsame, ho⟩ := recalculateHeads_headsOk hr.tree hr.genesis hr.flag
  exact ⟨hsame.treeOk hr.tree, ho⟩

/-- The heads that `update_block_ptrs_invalidated` recalculates are right. -/
theorem Recalculable.invalidated (hr : Recalculable s)
    (hs' : updateBlockPtrsInvalidated s b = .ok s') : ChainInv s' := by
  obtain ⟨_, -, hs'⟩ := of_bind_eq_ok hs'
  injection hs' with hs'
  have hrecalc := hr.inv
  generalize recalculateHeads s = s₂ at hs' hrecalc
  have hside : SideOnly s₂ s' := by
    rw [← hs']
    exact (sideOnly_forgetAboutAll _ _ _).trans ⟨_, _, rfl⟩
  exact ⟨hside.sameHeads.toSameBlocks.treeOk hrecalc.tree, hside.sameHeads.headsOk hrecalc.heads⟩

/-- **A subtree is invalidated.** -/
theorem invalidate_inv {complaint : Complaint D} (hi : ChainInv s)
    (ha : (ChainOp.invalidate b complaint).Admitted s)
    (hs' : updateBlockPtrsInvalidated (markComplaint s b complaint) b = .ok s') :
    ChainInv s' := (hi.recalculable.markComplaint complaint ha).invalidated hs'

-- ---------------------------------------------------------------------------
-- Every run
-- ---------------------------------------------------------------------------

theorem chainInv_of_chainReach [Digest D] {C : Crypto D} (h : ChainReach C s) : ChainInv s := by
  induction h with
  | start sha merkle nonce2 tailer now => exact newState_inv sha merkle nonce2 tailer now
  | step op _ ha hs' ih =>
    cases op with
    | addBlock prev nb =>
      injection hs' with hs'
      exact hs' ▸ addBlock_inv ih ha
    | fillShard b shardnum shard => exact fillShard_inv ih ha hs'
    | invalidate b complaint => exact invalidate_inv ih ha hs'

/-- **The heads in every state reached.** `longest_chains` are the clean blocks of
maximal work, `longest_knowns` those of maximal work among the clean blocks whose
ancestry is known; the first of each are connected if any are; and
`preferred_chain` has maximal work among the clean descendants of
`longest_knowns[0]`. -/
theorem headsOk_of_chainReach [Digest D] {C : Crypto D} (h : ChainReach C s) :
    (∀ b : Nat, b ∈ s.longestChains ↔ Best s (Clean s) b) ∧
    (∀ b : Nat, b ∈ s.longestKnowns ↔ Best s (fun x => Clean s x ∧ Known s x) b) ∧
    ((∃ k ∈ s.longestKnowns, ∃ c ∈ s.longestChains, blockPreceeds s k c = true) →
      blockPreceeds s (knownHead s) (chainHead s) = true) ∧
    Best s (fun x => Clean s x ∧ blockPreceeds s (knownHead s) x = true) s.preferredChain := by
  obtain ⟨ht, ho⟩ := chainInv_of_chainReach h
  refine ⟨ho.chains.mem, ho.knowns.mem, ?_, ?_⟩
  · rintro ⟨k, hk, c, hc, hkc⟩
    exact (blockPreceeds_iff ht).mpr (ho.paired k hk c hc ((blockPreceeds_iff ht).mp hkc))
  · simp only [blockPreceeds_iff ht]
    exact ho.preferred.best

/-- A node that knows one block above the genesis block. -/
theorem chainReach_idealChild :
    ChainReach idealCrypto (blockAddHeads idealNode 0 (idealChild 1 1)) :=
  ChainReach.step (.addBlock 0 (idealChild 1 1)) (ChainReach.start _ _ _ _ _)
    ⟨by decide, by decide, by decide⟩ rfl

/-- Two branches, of which the second becomes known; then the first one grows, and is complained
of. -/
def tieOps : List (ChainOp IdealDigest) :=
  [.addBlock 0 (idealChild 1 1), .addBlock 0 (idealChild 1 2),
    .fillShard 2 0 { newBlockShard 0 1 with txcount := 1 }, .addBlock 1 (idealChild 2 3),
    .invalidate 3 (.txMalformed .none ⟨⟨.zero, 0, 0, 0⟩, fun _ => .zero⟩ [])]

/-- Then they are a tie again, with the known one first, on which the node mines. -/
theorem headsOk_of_chainReach_tie : ∃ s : State IdealDigest, ChainReach idealCrypto s ∧
    s.numBlocks = 4 ∧ s.longestChains = [2, 1] ∧ s.longestKnowns = [2] ∧
    Best s (Clean s) 1 ∧ Best s (Clean s) 2 ∧ ¬ Best s (Clean s) 3 ∧
    Best s (fun x => Clean s x ∧ Known s x) 2 ∧ blockPreceeds s 2 2 = true ∧
    Best s (fun x => Clean s x ∧ blockPreceeds s 2 x = true) 2 := by
  have hrun : (chainRun idealCrypto idealNode tieOps).any fun s =>
      decide (s.numBlocks = 4) && decide (s.longestChains = [2, 1]) &&
        decide (s.longestKnowns = [2]) && decide (s.preferredChain = 2) &&
        blockPreceeds s 2 2 := by
    decide +kernel
  obtain ⟨s, hs, hfacts⟩ := (Option.any_eq_true _ _).mp hrun
  simp only [Bool.and_eq_true, decide_eq_true_eq] at hfacts
  obtain ⟨⟨⟨⟨hblocks, hchains⟩, hknowns⟩, hpreferred⟩, hself⟩ := hfacts
  have hreach : ChainReach idealCrypto s := (ChainReach.start _ _ _ _ _).run hs
  obtain ⟨hlongest, hknown, hfirst, hbest⟩ := headsOk_of_chainReach hreach
  have hhead : knownHead s = 2 := congrArg (List.headD · 0) hknowns
  have hchain : chainHead s = 2 := congrArg (List.headD · 0) hchains
  rw [hhead, hchain] at hfirst
  rw [hhead, hpreferred] at hbest
  rw [hchains] at hlongest hfirst
  rw [hknowns] at hknown hfirst
  refine ⟨s, hreach, hblocks, hchains, hknowns, (hlongest 1).mp (by decide),
    (hlongest 2).mp (by decide), fun h => absurd ((hlongest 3).mpr h) (by decide),
    (hknown 2).mp (by decide), ?_, hbest⟩
  exact hfirst ⟨2, by decide, 2, by decide, hself⟩

end Pettycoin
