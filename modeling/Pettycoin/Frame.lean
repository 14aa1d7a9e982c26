import Pettycoin.Node
import Pettycoin.Quiet

/-!
# Pettycoin — what is left alone

Most of the node never touches what is known of the blocks. Pending
transactions, complaints and the heads change, but the blocks, their shards and
the places recorded in `txhash` stay, or are forgotten (`Frame`). Each function
of `tx_in_hashes.c`, `pending.c` and `complain.c` gets one lemma (those of
`chain.c` are `Quiet`), and so does whatever of `check_block.c` may lead to a
complaint; the lemma also says that the assertions of `put_tx_in_shard` and
`put_txhash_in_shard` are not among the faults of that function.

* `Frame.congr`, `Frame.foldl` — the ways to show it;
* `Frame.quiet` — the functions of `chain.c`, all at once;
* `addPendingTx_frame` — a transaction is taken in;
* `createProof_plain`, `checkTxInputs_plain` — which faults a call can stop with.
-/

namespace Pettycoin

open ExceptRules

variable {D : Type} {E : Env D} {s₀ s : State D} {b : Nat}

-- ---------------------------------------------------------------------------
-- The frame
-- ---------------------------------------------------------------------------

/-- The parts of a block that only `block_add` and the filling of a slot set. -/
def Block.core (b : Block D) : Block D := { b with allKnown := false, complaint := none }

section

variable [Digest D]

/-- A transaction that passes `check_tx` by itself. -/
def TxOk (C : Crypto D) (tx : Tx D) : Prop := ∀ s, checkTx C s tx none = .none

/-- A transaction of the pending block, or recorded as pending. -/
def InPending (s : State D) (tx : Tx D) : Prop :=
  (∃ shard, ∃ p ∈ s.pending.pend shard, p.tx = tx) ∨ tx ∈ s.pending.unknownTx ∨
    ∃ te ∈ s.txhash, te.loc = .pending tx

/-- A transaction the node has, in a block or pending. -/
def Held (s : State D) (tx : Tx D) : Prop :=
  (∃ x shardnum txoff refs, (s.shardOf x shardnum).u txoff = .tx tx refs) ∨ InPending s tx

/-- A transaction the node had in `s₀`, or one that passes `check_tx`. -/
def Fine (E : Env D) (s₀ : State D) (tx : Tx D) : Prop := Held s₀ tx ∨ TxOk E.crypto tx

/-- From `s₀` to `s` the blocks and their shards are the same, no complaint is
taken back, and everything recorded in `txhash` was there before or is pending. -/
structure Frame (E : Env D) (s₀ s : State D) : Prop where
  numBlocks : s.numBlocks = s₀.numBlocks
  core : ∀ x : Nat, (s.blk x).core = (s₀.blk x).core
  complaint : ∀ x : Nat, (s₀.blk x).complaint.isSome → (s.blk x).complaint.isSome
  txhash : ∀ te ∈ s.txhash,
    te ∈ s₀.txhash ∨ ∃ tx, te = ⟨hashTx E.crypto tx, .pending tx⟩
  fine : ∀ tx, InPending s tx → Fine E s₀ tx

theorem Frame.refl (E : Env D) (s : State D) : Frame E s s :=
  ⟨rfl, fun _ => rfl, fun _ => id, fun _ hte => Or.inl hte, fun _ htx => Or.inl (Or.inr htx)⟩

theorem Frame.shardOf_eq (h : Frame E s₀ s) (x shardnum : Nat) :
    s.shardOf x shardnum = s₀.shardOf x shardnum := by
  show (s.blk x).core.shard shardnum = (s₀.blk x).core.shard shardnum
  rw [h.core]

theorem Frame.hdr_eq (h : Frame E s₀ s) (x : Nat) : (s.blk x).hdr = (s₀.blk x).hdr := by
  show (s.blk x).core.hdr = (s₀.blk x).core.hdr
  rw [h.core]

theorem Frame.shardNums_eq (h : Frame E s₀ s) (x : Nat) :
    (s.blk x).shardNums = (s₀.blk x).shardNums := by
  show (s.blk x).core.shardNums = (s₀.blk x).core.shardNums
  rw [h.core]

theorem Frame.merkles_eq (h : Frame E s₀ s) (x : Nat) :
    (s.blk x).merkles = (s₀.blk x).merkles := by
  show (s.blk x).core.merkles = (s₀.blk x).core.merkles
  rw [h.core]

/-- Whatever the node has now is fine. -/
theorem Frame.fine_of_held (h : Frame E s₀ s) {tx : Tx D} (htx : Held s tx) : Fine E s₀ tx := by
  rcases htx with ⟨x, shardnum, txoff, refs, hslot⟩ | hpend
  · rw [h.shardOf_eq] at hslot
    exact Or.inl (Or.inl ⟨x, shardnum, txoff, refs, hslot⟩)
  · exact h.fine tx hpend

/-- Changing anything else. -/
theorem Frame.congr (h : Frame E s₀ s) {s' : State D} (hn : s'.numBlocks = s.numBlocks)
    (hb : s'.blk = s.blk) (ht : s'.txhash = s.txhash) (hp : s'.pending = s.pending) :
    Frame E s₀ s' where
  numBlocks := hn.trans h.numBlocks
  core x := by rw [hb, h.core]
  complaint x := by
    rw [hb]
    exact h.complaint x
  txhash te hte := h.txhash te (ht ▸ hte)
  fine tx htx := h.fine tx (by unfold InPending at htx ⊢; rwa [hp, ht] at htx)

theorem Frame.emit (h : Frame E s₀ s) (e : Event D) : Frame E s₀ (s.emit e) :=
  h.congr rfl rfl rfl rfl

/-- Changing the pending block. -/
theorem Frame.modPending (h : Frame E s₀ s) {f : PendingBlock D → PendingBlock D}
    (hpend : ∀ shard, ∀ p ∈ (f s.pending).pend shard,
      p ∈ s.pending.pend shard ∨ Fine E s₀ p.tx)
    (hunknown : ∀ tx ∈ (f s.pending).unknownTx, tx ∈ s.pending.unknownTx ∨ Fine E s₀ tx) :
    Frame E s₀ (s.modPending f) where
  numBlocks := h.numBlocks
  core := h.core
  complaint := h.complaint
  txhash := h.txhash
  fine tx htx := by
    rcases htx with ⟨shard, p, hp, rfl⟩ | hun | hte
    · rcases hpend shard p hp with hold | hfine
      · exact h.fine _ (Or.inl ⟨shard, p, hold, rfl⟩)
      · exact hfine
    · rcases hunknown tx hun with hold | hfine
      · exact h.fine _ (Or.inr (Or.inl hold))
      · exact hfine
    · exact h.fine _ (Or.inr (Or.inr hte))

theorem Frame.setNeedsRecheck (h : Frame E s₀ s) : Frame E s₀ s.setNeedsRecheck :=
  h.modPending (fun _ _ hp => Or.inl hp) fun _ hp => Or.inl hp

/-- Forgetting elements of `txhash`. -/
theorem Frame.forget (h : Frame E s₀ s) {s' : State D} (hn : s'.numBlocks = s.numBlocks)
    (hb : s'.blk = s.blk) (hp : s'.pending = s.pending) (ht : ∀ te ∈ s'.txhash, te ∈ s.txhash) :
    Frame E s₀ s' where
  numBlocks := hn.trans h.numBlocks
  core x := by rw [hb, h.core]
  complaint x := by
    rw [hb]
    exact h.complaint x
  txhash te hte := h.txhash te (ht te hte)
  fine tx htx := by
    refine h.fine tx ?_
    unfold InPending at htx ⊢
    rw [hp] at htx
    rcases htx with hpend | hun | ⟨te, hte, hloc⟩
    · exact Or.inl hpend
    · exact Or.inr (Or.inl hun)
    · exact Or.inr (Or.inr ⟨te, ht te hte, hloc⟩)

/-- Changing a block's flag or its complaint. -/
theorem Frame.modBlock (h : Frame E s₀ s) {f : Block D → Block D}
    (hf : ∀ blk, (f blk).core = blk.core)
    (hc : ∀ blk, blk.complaint.isSome → (f blk).complaint.isSome) :
    Frame E s₀ (s.modBlock b f) where
  numBlocks := h.numBlocks
  core x := by
    rw [← h.core x]
    unfold State.modBlock
    by_cases hx : x = b
    · subst hx
      simp [hf]
    · simp [hx]
  complaint x hx := by
    have hsome := h.complaint x hx
    unfold State.modBlock
    by_cases hxb : x = b
    · subst hxb
      simpa using hc _ hsome
    · simpa [hxb] using hsome
  txhash := h.txhash
  fine := h.fine

/-- A step repeated over a list. -/
theorem Frame.foldl {α : Type} {f : State D → α → State D} {l : List α}
    (hf : ∀ s, ∀ a ∈ l, Frame E s₀ s → Frame E s₀ (f s a)) (h : Frame E s₀ s) :
    Frame E s₀ (l.foldl f s) := by
  induction l generalizing s with
  | nil => exact h
  | cons a l ih =>
    refine ih (fun s a' ha' => hf s a' (List.mem_cons_of_mem a ha')) ?_
    exact hf s a List.mem_cons_self h

end

/-- `deref`, in a postcondition. -/
theorem ensures_deref {F : Fault → Prop} {α : Type} {P : α → Prop} {o : Option α}
    (hP : ∀ a, o = some a → P a) (hF : o = none → F .nullPointer) :
    Ensures F (deref o) P := by
  cases o with
  | some a => exact hP a rfl
  | none => exact hF rfl

theorem stopsPlainly_deref {α : Type} (o : Option α) : StopsPlainly (deref o) :=
  ensures_deref (fun _ _ => trivial) fun _ => trivial

-- ---------------------------------------------------------------------------
-- chain.c
-- ---------------------------------------------------------------------------

/-- What a block is known to hold. -/
theorem held_of_txFor [Digest D] {i j : Nat} {tx : Tx D} (h : txFor (s.shardOf b i) j = some tx) :
    Held s tx := by
  unfold txFor at h
  split at h
  · rename_i tx' refs hu
    injection h with htx'
    subst htx'
    exact Or.inl ⟨b, i, j, refs, hu⟩
  · exact absurd h (by simp)

/-- The heads, the flags and what is put back. -/
theorem Frame.quiet [Digest D] {s' : State D} (h : Frame E s₀ s) (hq : Quiet s s') :
    Frame E s₀ s' where
  numBlocks := hq.numBlocks.trans h.numBlocks
  core x := by
    rw [← h.core x, hq.blk x]
    rfl
  complaint x hx := by
    rw [hq.complaint_eq]
    exact h.complaint x hx
  txhash te hte := h.txhash te (hq.txhash ▸ hte)
  fine tx htx := by
    obtain ⟨txs, hs⟩ := hq.salvages
    unfold InPending at htx
    rw [hq.pend, hq.txhash, hs.unknownTx, List.mem_append] at htx
    rcases htx with hpend | (hold | hnew) | hte
    · exact h.fine tx (Or.inl hpend)
    · exact h.fine tx (Or.inr (Or.inl hold))
    · obtain ⟨b, i, j, hslot⟩ := hs.fromBlocks tx hnew
      exact h.fine_of_held (held_of_txFor hslot)
    · exact h.fine tx (Or.inr (Or.inr hte))

/-- A transaction of a block or of a peer is put among the unknown ones. -/
theorem addToUnknownPending_frame [Digest D] (h : Frame E s₀ s) {tx : Tx D}
    (htx : Fine E s₀ tx) : Frame E s₀ (addToUnknownPending s tx) := by
  refine h.modPending (fun _ _ hp => Or.inl hp) fun tx' htx' => ?_
  rcases List.mem_append.mp htx' with hold | hnew
  · exact Or.inl hold
  · rw [List.mem_singleton.mp hnew]
    exact Or.inr htx

variable [Digest D] [DecidableEq D]

-- ---------------------------------------------------------------------------
-- The hash tables
-- ---------------------------------------------------------------------------

omit [DecidableEq D] in
theorem inputhashAddTx_frame (h : Frame E s₀ s) (onPending : Bool) (tx : Tx D) :
    Frame E s₀ (inputhashAddTx E s onPending tx) := by
  unfold inputhashAddTx
  refine Frame.foldl (fun _ _ _ hs => ?_) h
  exact hs.congr rfl rfl rfl rfl

theorem inputhashDelTx_frame (h : Frame E s₀ s) (tx : Tx D) :
    Frame E s₀ (inputhashDelTx E s tx) := by
  unfold inputhashDelTx
  refine Frame.foldl (fun _ _ _ hs => ?_) h
  exact hs.congr rfl rfl rfl rfl

theorem recordInputs_frame (h : Frame E s₀ s) (onPending : Bool) (tx : Tx D) :
    Frame E s₀ (recordInputs E s onPending tx) := by
  unfold recordInputs
  split_ifs
  · exact inputhashAddTx_frame h onPending tx
  · exact h

theorem forgetInputs_frame (h : Frame E s₀ s) (tx : Tx D) : Frame E s₀ (forgetInputs E s tx) := by
  unfold forgetInputs
  split_ifs
  · exact inputhashDelTx_frame h tx
  · exact h

theorem txhashDelTx_frame (h : Frame E s₀ s) (loc : TxWhere D) (sha : D) :
    Frame E s₀ (txhashDelTx s loc sha) :=
  h.forget rfl rfl rfl fun _ hte => List.mem_of_mem_eraseP hte

theorem removeTxFromHashes_frame (h : Frame E s₀ s) (b shard txoff : Nat) :
    Ensures Fault.Plain (removeTxFromHashes E s b shard txoff) (Frame E s₀) := by
  unfold removeTxFromHashes
  split
  · exact forgetInputs_frame (txhashDelTx_frame h _ _) _
  · exact txhashDelTx_frame h _ _
  · exact trivial

theorem removePendingTxFromHashes_frame (h : Frame E s₀ s) (tx : Tx D) :
    Frame E s₀ (removePendingTxFromHashes E s tx) :=
  forgetInputs_frame (txhashDelTx_frame h _ _) _

theorem addPendingTxToHashes_frame (h : Frame E s₀ s) {tx : Tx D} (htx : Fine E s₀ tx) :
    Ensures Fault.Plain (addPendingTxToHashes E s tx) (Frame E s₀) := by
  unfold addPendingTxToHashes
  refine (stopsPlainly_assert .pendingTwice trivial).bind fun _ _ => ?_
  have hrec := recordInputs_frame h true tx
  have hmem : ∀ te ∈ (txhashAddTx E (recordInputs E s true tx) (.pending tx)
      (hashTx E.crypto tx)).txhash,
      te = ⟨hashTx E.crypto tx, .pending tx⟩ ∨ te ∈ (recordInputs E s true tx).txhash :=
    fun te hte => List.mem_cons.mp ((E.txLayout.add_perm _ _).mem_iff.mp hte)
  refine ⟨hrec.numBlocks, hrec.core, hrec.complaint, fun te hte => ?_, fun tx' htx' => ?_⟩
  · rcases hmem te hte with hnew | hold
    · exact Or.inr ⟨tx, hnew⟩
    · exact hrec.txhash te hold
  · rcases htx' with hpend | hun | ⟨te, hte, hloc⟩
    · exact hrec.fine tx' (Or.inl hpend)
    · exact hrec.fine tx' (Or.inr (Or.inl hun))
    · rcases hmem te hte with rfl | hold
      · injection hloc with heq
        exact heq ▸ htx
      · exact hrec.fine tx' (Or.inr (Or.inr ⟨te, hold, hloc⟩))

-- ---------------------------------------------------------------------------
-- Checks
-- ---------------------------------------------------------------------------

omit [Digest D] [DecidableEq D] in
theorem getShardAndOff_plain (b : Block D) (fuel i n : Nat) :
    StopsPlainly (getShardAndOff b fuel i n) := by
  induction fuel generalizing i n with
  | zero => exact trivial
  | succ fuel ih =>
    unfold getShardAndOff
    split_ifs
    · trivial
    · exact ih _ _

omit [DecidableEq D] in
theorem rewardGetTx_plain (C : Crypto D) (s : State D) (rewardBlock claimBlock : Nat) :
    StopsPlainly (rewardGetTx C s rewardBlock claimBlock) := by
  unfold rewardGetTx
  dsimp only
  split_ifs
  · trivial
  · trivial
  · trivial
  · split
    · exact trivial
    · exact (getShardAndOff_plain _ _ _ _).bind fun _ _ => trivial

omit [DecidableEq D] in
theorem checkClaimInput_plain (C : Crypto D) (s : State D) (claimBlock : Nat)
    (inp : Input D) (rewardBlock shard txoff : Nat) (tx : Tx D) (addr : Address) :
    StopsPlainly (checkClaimInput C s claimBlock inp rewardBlock shard txoff tx addr) := by
  unfold checkClaimInput
  dsimp only
  by_cases hout : inp.output.toNat ≠ numOutputs tx + 1
  · rw [if_pos hout]
    trivial
  · rw [if_neg hout]
    refine (rewardGetTx_plain C s rewardBlock claimBlock).bind fun pos _ => ?_
    split
    · trivial
    · split_ifs <;> trivial

theorem checkOneInput_plain (E : Env D) (s : State D) (block : Nat)
    (me : Option (BlockId × Nat × Nat)) (inp : Input D) (addr : Address) (isClaim : Bool) :
    StopsPlainly (checkOneInput E s block me inp addr isClaim) := by
  unfold checkOneInput
  split
  · trivial
  · split
    · trivial
    · dsimp only
      split
      · refine (checkClaimInput_plain _ _ _ _ _ _ _ _ _).bind fun amount _ => ?_
        split
        · trivial
        · split_ifs <;> trivial
      · rw [ok_bind]
        split
        · trivial
        · split_ifs <;> trivial

theorem checkTxInputsFrom_plain (E : Env D) (s : State D) (block : Nat)
    (me : Option (BlockId × Nat × Nat)) (tx : Tx D) (addr : Address) (inps : List (Input D))
    (i known : Nat) (total : UInt32) (bad : Nat) :
    StopsPlainly (checkTxInputsFrom E s block me tx addr inps i known total bad) := by
  induction inps generalizing i known total bad with
  | nil =>
    unfold checkTxInputsFrom
    split_ifs <;> trivial
  | cons inp rest ih =>
    unfold checkTxInputsFrom
    refine (checkOneInput_plain E s block me inp addr _).bind fun r _ => ?_
    obtain ⟨e, amount⟩ := r
    cases e with
    | ok => exact ih _ _ _ _
    | unknown => exact ih _ _ _ _
    | bad => trivial
    | badAmount => trivial
    | doublespend => trivial
    | claimBad => trivial

theorem checkTxInputs_plain (E : Env D) (s : State D) (block : Nat)
    (me : Option (BlockId × Nat × Nat)) (tx : Tx D) :
    StopsPlainly (checkTxInputs E s block me tx) := by
  unfold checkTxInputs
  split
  · trivial
  · exact checkTxInputsFrom_plain _ _ _ _ _ _ _ _ _ _ _

theorem checkTxRefs_plain (C : Crypto D) (s : State D) (block : Nat) (tx : Tx D)
    (refs : List InputRef) : StopsPlainly (checkTxRefs C s block tx refs) := by
  have hloop : ∀ (l : List (Input D × InputRef)) (i : Nat) (unknown : Option (Nat × BlockId)),
      StopsPlainly (checkTxRefsFrom C s block l i unknown) := by
    intro l
    induction l with
    | nil =>
      intro i unknown
      cases unknown <;> trivial
    | cons p rest ih =>
      intro i unknown
      unfold checkTxRefsFrom
      split
      · exact trivial
      · exact ih _ _
      · split_ifs
        · trivial
        · exact ih _ _
  unfold checkTxRefs
  exact (stopsPlainly_assert .checkTxRefs trivial).bind fun _ _ => hloop _ _ _

omit [DecidableEq D] in
theorem merkleSomeTxs_plain (C : Crypto D) (shard : BlockShard D) (k off : Nat) :
    StopsPlainly (merkleSomeTxs C shard off k) := by
  unfold merkleSomeTxs
  induction k generalizing off with
  | zero =>
    unfold merkleRecurse merkleTx
    split_ifs
    · trivial
    · split
      · trivial
      · exact trivial
  | succ k ih =>
    unfold merkleRecurse
    exact (ih _).bind fun _ _ => (ih _).bind fun _ _ => trivial

omit [DecidableEq D] in
theorem createProof_plain (C : Crypto D) (s : State D) (b shardnum txoff : Nat) :
    StopsPlainly (createProof C s b shardnum txoff) := by
  unfold createProof
  dsimp only
  split
  · trivial
  · refine (stopsPlainly_assert .createProof trivial).bind fun _ _ => ?_
    refine Ensures.bind (P := fun _ => True) ?_ fun _ _ => trivial
    exact Ensures.ofFn fun i => merkleSomeTxs_plain _ _ _ _

omit [DecidableEq D] in
theorem provenTxAt_plain (C : Crypto D) (s : State D) (b shard txoff : Nat) :
    StopsPlainly (provenTxAt C s b shard txoff) := by
  unfold provenTxAt
  refine (createProof_plain C s b shard txoff).bind fun _ _ => ?_
  refine (stopsPlainly_deref _).bind fun _ _ => ?_
  exact (stopsPlainly_deref _).bind fun _ _ => trivial

-- ---------------------------------------------------------------------------
-- pending.c
-- ---------------------------------------------------------------------------

omit [DecidableEq D] in
/-- Replacing one array of the pending block. -/
theorem setPend_frame (h : Frame E s₀ s) {shard : Nat} {pend : List (PendingTx D)}
    (hpend : ∀ p ∈ pend, p ∈ s.pending.pend shard ∨ Fine E s₀ p.tx) :
    Frame E s₀ (setPend s shard pend) := by
  refine h.modPending (fun i p hp => ?_) fun _ hp => Or.inl hp
  by_cases hi : i = shard
  · subst hi
    exact hpend p (by simpa using hp)
  · exact Or.inl (by simpa [hi] using hp)

theorem insertPendingTx_frame (h : Frame E s₀ s) {tx : Tx D} (htx : Fine E s₀ tx) :
    Ensures Fault.Plain (insertPendingTx E s tx) fun r => Frame E s₀ r.1 := by
  unfold insertPendingTx
  dsimp only
  split_ifs
  · exact addToUnknownPending_frame h htx
  · refine (stopsPlainly_assert .pendingTwice trivial).bind fun _ _ => ?_
    split
    · exact h
    · refine (setPend_frame h fun p hp => ?_).emit _
      rcases List.eq_or_mem_of_mem_insertIdx hp with rfl | hold
      · exact Or.inr htx
      · exact Or.inl hold

theorem keepPendingTx_frame (h : Frame E s₀ s) {tx : Tx D} (htx : Fine E s₀ tx)
    (ierr : InputEcode) (bad : Nat) :
    Ensures Fault.Plain (keepPendingTx E s tx ierr bad) fun r => Frame E s₀ r.1 := by
  unfold keepPendingTx
  have hfinish : ∀ (s₁ : State D) (a : AddPending), Frame E s₀ s₁ →
      Ensures Fault.Plain (do
        let s₂ ← addPendingTxToHashes E s₁ tx
        Except.ok (s₂, a)) fun r => Frame E s₀ r.1 :=
    fun s₁ _ h₁ => (addPendingTxToHashes_frame h₁ htx).bind fun _ hs => hs
  dsimp only
  split_ifs
  · exact h
  · exact hfinish _ _ (addToUnknownPending_frame h htx)
  · refine (insertPendingTx_frame h htx).bind fun r hr => ?_
    obtain ⟨s₁, kept⟩ := r
    dsimp only at hr ⊢
    split_ifs
    · exact hr
    · exact hfinish _ _ hr

theorem addPendingTx_frame (h : Frame E s₀ s) {tx : Tx D} (htx : Fine E s₀ tx) :
    Ensures Fault.Plain (addPendingTx E s tx) fun r => Frame E s₀ r.1 := by
  unfold addPendingTx
  dsimp only
  split_ifs
  · exact h
  · exact h
  · refine (checkTxInputs_plain E s _ none tx).bind fun r _ => ?_
    obtain ⟨ierr, bad⟩ := r
    dsimp only
    split
    · exact keepPendingTx_frame h htx _ bad
    · exact keepPendingTx_frame h htx _ bad
    · exact h

omit [DecidableEq D] in
theorem freePending_frame (h : Frame E s₀ s) : Frame E s₀ (freePending s) := by
  have hnone : Frame E s₀ (s.modPending fun _ => newPendingBlock) :=
    h.modPending (fun _ _ hp => absurd hp List.not_mem_nil)
      fun _ hp => absurd hp List.not_mem_nil
  exact hnone.forget rfl rfl rfl fun _ hte => (List.mem_filter.mp hte).1

omit [Digest D] [DecidableEq D] in
/-- What `recheck_pending_txs` collects. -/
theorem inPending_of_mem_pendingTxs {tx : Tx D} (htx : tx ∈ pendingTxs s.pending) :
    InPending s tx := by
  rcases List.mem_append.mp htx with hpend | hun
  · obtain ⟨shard, -, hin⟩ := List.mem_flatMap.mp hpend
    obtain ⟨p, hp, rfl⟩ := List.mem_map.mp hin
    exact Or.inl ⟨shard, p, hp, rfl⟩
  · exact Or.inr (Or.inl hun)

theorem recheckPendingTxs_frame (h : Frame E s₀ s) :
    Ensures Fault.Plain (recheckPendingTxs E s) (Frame E s₀) := by
  have hflag : Frame E s₀ (s.modPending fun p => { p with needsRecheck := false }) :=
    h.modPending (fun _ _ hp => Or.inl hp) fun _ hp => Or.inl hp
  unfold recheckPendingTxs
  dsimp only
  split_ifs
  · exact h
  · exact hflag
  · refine Ensures.bind (P := Frame E s₀) ?_ fun _ hs => hs.emit _
    refine Ensures.foldlM (fun s₁ tx htx hs => ?_) (freePending_frame ?_)
    · have hfine := h.fine tx (inPending_of_mem_pendingTxs htx)
      exact (addPendingTx_frame hs hfine).bind fun _ hr => hr
    · exact Frame.foldl (fun _ tx _ hs => removePendingTxFromHashes_frame hs tx) hflag

theorem dropPendingTx_frame (h : Frame E s₀ s) (tx : Tx D) :
    Ensures Fault.Plain (dropPendingTx E s tx) (Frame E s₀) := by
  unfold dropPendingTx
  dsimp only
  split_ifs
  · exact h
  · exact (setPend_frame h fun p hp => Or.inl (List.mem_of_mem_eraseIdx hp)).emit _
  · exact h.modPending (fun _ _ hp => Or.inl hp) fun _ hp => Or.inl (List.mem_of_mem_eraseP hp)
  · exact trivial

-- ---------------------------------------------------------------------------
-- complain.c
-- ---------------------------------------------------------------------------

theorem complaintOn_frame (h : Frame E s₀ s) (complaint : Complaint D) (b : Nat) :
    Ensures Fault.Plain (complaintOn E complaint s b) (Frame E s₀) := by
  unfold complaintOn
  refine Ensures.foldlM (fun _ place _ hs => removeTxFromHashes_frame hs b _ _) ?_
  refine Frame.quiet ?_ (blockToPending_quiet (.refl _) b)
  exact h.modBlock (fun _ => rfl) fun _ _ => rfl

theorem complaintOnAll_frame (complaint : Complaint D) (fuel : Nat) (h : Frame E s₀ s)
    (b : Nat) : Ensures Fault.Plain (complaintOnAll E complaint fuel s b) (Frame E s₀) := by
  induction fuel generalizing s b with
  | zero => exact h
  | succ fuel ih =>
    unfold complaintOnAll
    refine (complaintOn_frame h complaint b).bind fun s₁ h₁ => ?_
    exact Ensures.foldlM (fun _ c _ hs => ih hs c) h₁

/-- A complaint leaves the blocks and their shards alone. -/
theorem publishComplaint_frame (h : Frame E s₀ s) (b : Nat) (complaint : Complaint D)
    (origin : Option Nat) :
    Ensures Fault.Plain (publishComplaint E s b complaint origin) (Frame E s₀) := by
  unfold publishComplaint
  split_ifs
  · exact h
  · refine (complaintOnAll_frame complaint _ h b).bind fun s₁ h₁ => ?_
    refine (recheckPendingTxs_frame h₁).bind fun s₂ h₂ => ?_
    refine (updateBlockPtrsInvalidated_quiet (.refl s₂) b).bind fun s₃ h₃ => ?_
    exact (h₂.quiet h₃).emit _

theorem complainBadInput_frame (h : Frame E s₀ s) (b : Nat) (t : ProvenTx D) (badInput : Nat)
    (intx : Tx D) :
    Ensures Fault.Plain (complainBadInput E s b t badInput intx) (Frame E s₀) := by
  unfold complainBadInput
  exact (stopsPlainly_deref _).bind fun _ _ => publishComplaint_frame h b _ _

theorem complainMisorder_frame (h : Frame E s₀ s) (b : Nat) (t : ProvenTx D)
    (conflictTxoff : Nat) :
    Ensures Fault.Plain (complainMisorder E s b t conflictTxoff) (Frame E s₀) := by
  unfold complainMisorder
  exact (provenTxAt_plain _ _ _ _ _).bind fun _ _ => publishComplaint_frame h b _ _

theorem complainBadInputRef_frame (h : Frame E s₀ s) (b : Nat) (t : ProvenTx D)
    (badRefnum referred : Nat) :
    Ensures Fault.Plain (complainBadInputRef E s b t badRefnum referred) (Frame E s₀) := by
  unfold complainBadInputRef
  refine (stopsPlainly_deref _).bind fun _ _ => ?_
  exact (provenTxAt_plain _ _ _ _ _).bind fun _ _ => publishComplaint_frame h b _ _

theorem complainDoublespend_frame (h : Frame E s₀ s) (one two : Spend D) :
    Ensures Fault.Plain (complainDoublespend E s one two) (Frame E s₀) := by
  unfold complainDoublespend
  refine (stopsPlainly_assert .doublespendOrder trivial).bind fun _ _ => ?_
  refine (stopsPlainly_deref _).bind fun _ _ => ?_
  exact (stopsPlainly_deref _).bind fun _ _ => publishComplaint_frame h _ _ _

theorem complainBadClaim_frame (h : Frame E s₀ s) (b : Nat) (claim : ProvenTx D)
    (rewardBlock shard txoff : Nat) :
    Ensures Fault.Plain (complainBadClaim E s b claim rewardBlock shard txoff)
      (Frame E s₀) := by
  unfold complainBadClaim
  exact (provenTxAt_plain _ _ _ _ _).bind fun _ _ => publishComplaint_frame h b _ _

-- ---------------------------------------------------------------------------
-- Inputs and refs
-- ---------------------------------------------------------------------------

theorem complainAboutSpend_frame (h : Frame E s₀ s) (b : Nat) (t : ProvenTx D) (bad : Nat) :
    Ensures Fault.Plain (complainAboutSpend E s b t bad) fun r => Frame E s₀ r.1 := by
  unfold complainAboutSpend
  refine (stopsPlainly_deref _).bind fun inp _ => ?_
  refine (stopsPlainly_deref _).bind fun pos _ => ?_
  obtain ⟨ob, oshard, otxoff⟩ := pos
  refine (provenTxAt_plain _ _ _ _ _).bind fun other _ => ?_
  split
  · exact trivial
  · dsimp only
    split_ifs
    · exact (complainDoublespend_frame h _ _).bind fun _ hs => hs
    · exact (complainDoublespend_frame h _ _).bind fun _ hs => hs

theorem complainAboutInputs_frame (h : Frame E s₀ s) (b : Nat) (t : ProvenTx D)
    (ierr : InputEcode) (bad : Nat) :
    Ensures Fault.Plain (complainAboutInputs E s b t ierr bad) fun r => Frame E s₀ r.1 := by
  unfold complainAboutInputs
  cases ierr with
  | ok => exact h
  | unknown =>
    refine (stopsPlainly_deref _).bind fun _ _ => ?_
    split_ifs
    · exact h.emit _
    · exact h
  | bad =>
    refine (stopsPlainly_deref _).bind fun _ _ => ?_
    refine (stopsPlainly_deref _).bind fun _ _ => ?_
    exact (complainBadInput_frame h b t _ _).bind fun _ hs => hs
  | badAmount =>
    refine Ensures.bind (Ensures.mapM fun _ _ => stopsPlainly_deref _) fun _ _ => ?_
    exact (publishComplaint_frame h b _ _).bind fun _ hs => hs
  | doublespend => exact complainAboutSpend_frame h b t bad
  | claimBad =>
    refine (stopsPlainly_deref _).bind fun _ _ => ?_
    refine (stopsPlainly_deref _).bind fun pos _ => ?_
    exact (complainBadClaim_frame h b t _ _ _).bind fun _ hs => hs

theorem complainAboutRefs_frame (h : Frame E s₀ s) (b : Nat) (t : ProvenTx D)
    (ierr : InputEcode) :
    Ensures Fault.Plain (complainAboutRefs E s b t ierr) fun r => Frame E s₀ r.1 := by
  unfold complainAboutRefs
  refine (checkTxRefs_plain _ _ _ _ _).bind fun r _ => ?_
  obtain ⟨rerr, bad⟩ := r
  dsimp only
  split
  · exact h
  · exact trivial
  · split_ifs
    · exact h
    · exact (stopsPlainly_deref _).bind fun _ _ => h.emit _
  · exact (complainBadInputRef_frame h b t _ _).bind fun _ hs => hs

/-- Whatever `check_tx_inputs_and_refs` complains about, the shards stay. -/
theorem checkTxInputsAndRefs_frame (h : Frame E s₀ s) (b : Nat) (t : ProvenTx D) :
    Ensures Fault.Plain (checkTxInputsAndRefs E s b t) fun r => Frame E s₀ r.1 := by
  unfold checkTxInputsAndRefs
  refine (checkTxInputs_plain E s b none t.tx).bind fun r _ => ?_
  obtain ⟨ierr, bad⟩ := r
  refine (complainAboutInputs_frame h b t ierr bad).bind fun r hr => ?_
  obtain ⟨s₁, valid⟩ := r
  dsimp only at hr ⊢
  split_ifs
  · exact complainAboutRefs_frame hr b t ierr
  · exact hr

theorem recheckElems_frame (elems : List (TxhashElem D)) (h : Frame E s₀ s) :
    Ensures Fault.Elsewhere (recheckElems E elems s) fun r => Frame E s₀ r.1 := by
  induction elems generalizing s with
  | nil => exact h
  | cons te rest ih =>
    unfold recheckElems
    split
    · exact ih h.setNeedsRecheck
    · refine (ensures_assert (P := fun _ => True) (fun _ => trivial) fun _ => id).bind fun _ _ => ?_
      split_ifs
      · exact ih h
      · refine ((provenTxAt_plain _ _ _ _ _).weaken Fault.Plain.elsewhere).bind fun t _ => ?_
        refine ((checkTxInputsAndRefs_frame h _ t).weaken Fault.Plain.elsewhere).bind fun r hr => ?_
        obtain ⟨s₁, valid⟩ := r
        dsimp only at hr ⊢
        split_ifs
        · exact ih hr
        · exact hr

theorem recheckSpenders_frame (elems : List (InputhashElem D)) (h : Frame E s₀ s) :
    Ensures Fault.Elsewhere (recheckSpenders E elems s) fun r => Frame E s₀ r.1 := by
  induction elems generalizing s with
  | nil => exact h
  | cons ie rest ih =>
    unfold recheckSpenders recheckTx
    refine (recheckElems_frame _ h).bind fun r hr => ?_
    obtain ⟨s₁, valid⟩ := r
    dsimp only at hr ⊢
    split_ifs
    · exact ih hr
    · exact hr

theorem checkResolvedOutput_frame (sha : D) (output : UInt16) (fuel : Nat)
    (h : Frame E s₀ s) :
    Ensures Fault.Elsewhere (checkResolvedOutput E sha output fuel s) (Frame E s₀) := by
  induction fuel generalizing s with
  | zero => exact id
  | succ fuel ih =>
    unfold checkResolvedOutput
    refine (recheckSpenders_frame _ h).bind fun r hr => ?_
    obtain ⟨s₁, valid⟩ := r
    dsimp only at hr ⊢
    split_ifs
    · exact hr
    · exact ih hr

theorem checkResolvedTxs_frame (h : Frame E s₀ s) (tx : Tx D) :
    Ensures Fault.Elsewhere (checkResolvedTxs E s tx) (Frame E s₀) :=
  Ensures.foldlM (fun _ _ _ hs => checkResolvedOutput_frame _ _ _ hs) h

end Pettycoin
