import Pettycoin.Lib.Novelty
import Pettycoin.Minor
import Pettycoin.Ledger

/-!
# Pettycoin — what a node passes on

The items a node passes on to its other peers: blocks, transactions in blocks,
complaints, and transactions by themselves. The first three it only passes on when
they are new to it (`TellsOnce`); each function gets a lemma, most of them only that
nothing is passed on.

* `Spreads.trans` — calls one after the other;
* `Spreads.frame` — a call that passes nothing on;
* `complaintOnAll_marks` — the block itself gets the complaint;
* `publishComplaint_spreads` — a complaint is passed on once.
-/

namespace Pettycoin

open ExceptRules Novelty

variable {D : Type}

-- ---------------------------------------------------------------------------
-- Items
-- ---------------------------------------------------------------------------

/-- What is passed on: a block, a transaction in a block, the complaint about a block, or a
transaction. -/
inductive Item (D : Type)
  | block (b : BlockId)
  | slot (b : BlockId) (shardnum txoff : Nat)
  | complaint (block : D)
  | tx (tx : Tx D)
deriving DecidableEq

/-- The block a complaint is about. -/
def Complaint.block : Complaint D → D
  | .txMisorder t _ => t.proof.pos.block
  | .txInvalid _ t => t.proof.pos.block
  | .txMalformed _ proof _ => proof.pos.block
  | .txBadInput _ t _ => t.proof.pos.block
  | .txBadAmount t _ => t.proof.pos.block
  | .doublespend _ _ _ t => t.proof.pos.block
  | .badInputRef _ t _ => t.proof.pos.block
  | .claimInputInvalid claim _ => claim.proof.pos.block

/-- What a call passes on. `sendrawtransaction` does not pass on what a peer sent. -/
def Event.item : Event D → Option (Item D)
  | .sendBlockToPeers _ b => some (.block b)
  | .sendTxInBlockToPeers _ b shardnum txoff => some (.slot b shardnum txoff)
  | .broadcastToPeers complaint _ => some (.complaint complaint.block)
  | .sendTxToPeers (some _) tx => some (.tx tx)
  | _ => none

/-- What the node has passed on, in order. -/
def State.forwarded (s : State D) : List (Item D) := s.events.filterMap Event.item

/-- What the node has of it. A transaction by itself is not in stock for good. -/
def Stored (s : State D) : Item D → Prop
  | .block b => b < s.numBlocks
  | .slot b shardnum txoff => b < s.numBlocks ∧ (txFor (s.shardOf b shardnum) txoff).isSome
  | .complaint sha =>
    ∃ b : Nat, b < s.numBlocks ∧ (s.blk b).sha = sha ∧ (s.blk b).complaint.isSome
  | .tx _ => False

/-- Blocks are told apart by their hashes, a stored proof names its block, what `txhash`
names is there, and `block_depth` has a place for every block. -/
structure Labels (s : State D) : Prop where
  distinct : ∀ b c : Nat, b < s.numBlocks → c < s.numBlocks → (s.blk b).sha = (s.blk c).sha → b = c
  proofs : ∀ (b i j : Nat) (p : Proof D), (s.shardOf b i).proof.bind (· j) = some p →
    p.pos.block = (s.blk b).sha
  placed : ∀ te ∈ s.txhash, ∀ b i j : Nat, te.loc = .inBlock b i j → b < s.numBlocks
  depth : ∀ b : Nat, b < s.numBlocks → (s.blk b).depth ≤ b

variable {s₀ s s' : State D} {b : Nat} {item : Item D}

/-- A call that passes nothing on. -/
theorem forwarded_emit {e : Event D} (he : e.item = none) : (s.emit e).forwarded = s.forwarded := by
  unfold State.forwarded State.emit
  rw [List.filterMap_append, List.filterMap_cons_none he, List.filterMap_nil, List.append_nil]

theorem forwarded_tell {e : Event D} (he : e.item = some item) :
    (s.emit e).forwarded = s.forwarded ++ [item] := by
  unfold State.forwarded State.emit
  rw [List.filterMap_append, List.filterMap_cons_some he, List.filterMap_nil]

theorem forwarded_foldl {α : Type} {f : State D → α → State D} {l : List α}
    (hf : ∀ s a, (f s a).forwarded = s.forwarded) : (l.foldl f s).forwarded = s.forwarded := by
  induction l generalizing s with
  | nil => rfl
  | cons a l ih => exact ih.trans (hf s a)

/-- The same for calls that may stop. -/
abbrev Silent {α : Type} (s : State D) (x : Res α) (f : α → State D) : Prop :=
  Keeps x fun a => (f a).forwarded = s.forwarded

theorem silent_foldlM {α : Type} {f : State D → α → Res (State D)} {l : List α}
    (hf : ∀ s a, Silent s (f s a) id) : Silent s (l.foldlM f s) id :=
  Ensures.foldlM (fun s₁ a _ (hs : s₁.forwarded = s.forwarded) =>
    (hf s₁ a).mono fun _ h => h.trans hs) rfl

-- ---------------------------------------------------------------------------
-- chain.c
-- ---------------------------------------------------------------------------

theorem orderBlockPointers_forwarded (s : State D) :
    (orderBlockPointers s).forwarded = s.forwarded := by
  unfold orderBlockPointers
  split <;> rfl

theorem updateKnownRecursive_forwarded (fuel : Nat) (s : State D) (b : Nat) :
    (updateKnownRecursive fuel s b).1.forwarded = s.forwarded := by
  induction fuel generalizing s b with
  | zero => rfl
  | succ fuel ih =>
    have hfold : ∀ (l : List Nat) (acc : State D × Bool),
        (l.foldl (fun acc c =>
          ((updateKnownRecursive fuel acc.1 c).1,
            acc.2 || (updateKnownRecursive fuel acc.1 c).2)) acc).1.forwarded
          = acc.1.forwarded := by
      intro l
      induction l with
      | nil => exact fun _ => rfl
      | cons c l ihl => exact fun acc => (ihl _).trans (ih _ _)
    unfold updateKnownRecursive
    dsimp only
    split_ifs
    · rfl
    · rfl
    · rfl
    · exact hfold _ _

theorem blockToPending_forwarded (s : State D) (b : Nat) :
    (blockToPending s b).forwarded = s.forwarded := by
  rw [blockToPending_eq]
  rfl

theorem stealBackTo_forwarded (stop : Option Nat) (n : Nat) (s : State D) (b : Nat) :
    (stealBackTo stop n s b).forwarded = s.forwarded := by
  induction n generalizing s b with
  | zero => rfl
  | succ n ih =>
    unfold stealBackTo
    split_ifs
    · rfl
    · dsimp only
      split
      · exact (ih _ _).trans (blockToPending_forwarded s b)
      · exact blockToPending_forwarded s b

theorem updateKnown_forwarded (s : State D) (b : Nat) :
    (updateKnown s b).forwarded = s.forwarded := by
  have hrec := updateKnownRecursive_forwarded s.numBlocks s b
  unfold updateKnown
  generalize updateKnownRecursive s.numBlocks s b = r at hrec ⊢
  obtain ⟨s₁, changed⟩ := r
  have hordered : (updatePreferredChain (orderBlockPointers s₁.setNeedsRecheck)).forwarded
      = s.forwarded := (orderBlockPointers_forwarded _).trans hrec
  dsimp only
  split_ifs
  · exact hrec
  · unfold stealPendingTxs
    split
    · exact (stealBackTo_forwarded _ _ _ _).trans hordered
    · exact hordered
  · exact hordered

theorem newLongest_forwarded (s : State D) (b : Nat) :
    (newLongest s b).forwarded = s.forwarded := by
  unfold newLongest
  refine (orderBlockPointers_forwarded _).trans ?_
  split_ifs <;> rfl

theorem updateBlockPtrsNewBlock_forwarded (s : State D) (b : Nat) :
    (updateBlockPtrsNewBlock s b).forwarded = s.forwarded := by
  have hknown : ∀ s₁ : State D, s₁.forwarded = s.forwarded →
      (if blockAllKnown s₁ b then updateKnown s₁ b else s₁).forwarded = s.forwarded := by
    intro s₁ h₁
    split_ifs
    · exact (updateKnown_forwarded s₁ b).trans h₁
    · exact h₁
  unfold updateBlockPtrsNewBlock
  refine hknown _ ?_
  split
  · exact newLongest_forwarded _ b
  · exact newLongest_forwarded _ b
  · rfl

theorem forgetAboutAll_forwarded (fuel : Nat) (s : State D) (b : Nat) :
    (forgetAboutAll fuel s b).forwarded = s.forwarded := by
  induction fuel generalizing s b with
  | zero => rfl
  | succ fuel ih => exact (forwarded_foldl ih).trans (forwarded_emit rfl)

theorem updateBlockPtrsInvalidated_forwarded (s : State D) (b : Nat) :
    Silent s (updateBlockPtrsInvalidated s b) id := by
  unfold updateBlockPtrsInvalidated
  refine (keeps_any _).bind fun _ _ => ?_
  refine (forwarded_emit rfl).trans ((forgetAboutAll_forwarded _ _ _).trans ?_)
  exact updateKnown_forwarded _ 0

theorem sewBlock_forwarded (s : State D) (prev : Nat) (nb : NewBlock D) :
    (sewBlock s prev nb).forwarded = s.forwarded := by
  unfold sewBlock
  dsimp only
  split_ifs
  · exact forwarded_emit rfl
  · rfl

theorem blockAdd_forwarded (s : State D) (prev : Nat) (nb : NewBlock D) :
    Silent s (blockAdd s prev nb) Prod.fst := by
  unfold blockAdd
  refine (keeps_any _).bind fun _ _ => ?_
  show (blockAddHeads s prev nb).forwarded = s.forwarded
  unfold blockAddHeads
  dsimp only
  split_ifs
  · exact sewBlock_forwarded s prev nb
  · exact (updateBlockPtrsNewBlock_forwarded _ _).trans (sewBlock_forwarded s prev nb)

variable [Digest D]

theorem updateBlockPtrsNewShard_forwarded (C : Crypto D) (s : State D) (b : Nat) :
    Silent s (updateBlockPtrsNewShard C s b) id := by
  unfold updateBlockPtrsNewShard
  refine (keeps_any _).bind fun _ _ => ?_
  show State.forwarded (if _ then _ else _) = s.forwarded
  split_ifs
  · exact updateKnown_forwarded s b
  · rfl

variable [DecidableEq D] {E : Env D}

-- ---------------------------------------------------------------------------
-- The hash tables
-- ---------------------------------------------------------------------------

omit [DecidableEq D] in
theorem inputhashAddTx_forwarded (E : Env D) (s : State D) (onPending : Bool) (tx : Tx D) :
    (inputhashAddTx E s onPending tx).forwarded = s.forwarded := by
  unfold inputhashAddTx
  exact forwarded_foldl fun _ _ => rfl

theorem inputhashDelTx_forwarded (E : Env D) (s : State D) (tx : Tx D) :
    (inputhashDelTx E s tx).forwarded = s.forwarded := by
  unfold inputhashDelTx
  exact forwarded_foldl fun _ _ => rfl

theorem recordInputs_forwarded (E : Env D) (s : State D) (onPending : Bool) (tx : Tx D) :
    (recordInputs E s onPending tx).forwarded = s.forwarded := by
  unfold recordInputs
  split_ifs
  · exact inputhashAddTx_forwarded E s onPending tx
  · rfl

theorem forgetInputs_forwarded (E : Env D) (s : State D) (tx : Tx D) :
    (forgetInputs E s tx).forwarded = s.forwarded := by
  unfold forgetInputs
  split_ifs
  · exact inputhashDelTx_forwarded E s tx
  · rfl

theorem removeTxFromHashes_forwarded (E : Env D) (s : State D) (b shardnum txoff : Nat) :
    Silent s (removeTxFromHashes E s b shardnum txoff) id := by
  unfold removeTxFromHashes
  split
  · exact forgetInputs_forwarded E _ _
  · rfl
  · trivial

theorem removePendingTxFromHashes_forwarded (E : Env D) (s : State D) (tx : Tx D) :
    (removePendingTxFromHashes E s tx).forwarded = s.forwarded :=
  forgetInputs_forwarded E _ tx

theorem addPendingTxToHashes_forwarded (E : Env D) (s : State D) (tx : Tx D) :
    Silent s (addPendingTxToHashes E s tx) id := by
  unfold addPendingTxToHashes
  exact (keeps_any _).bind fun _ _ => recordInputs_forwarded E s true tx

-- ---------------------------------------------------------------------------
-- pending.c
-- ---------------------------------------------------------------------------

theorem insertPendingTx_forwarded (E : Env D) (s : State D) (tx : Tx D) :
    Silent s (insertPendingTx E s tx) Prod.fst := by
  unfold insertPendingTx
  dsimp only
  split_ifs
  · rfl
  · refine (keeps_any _).bind fun _ _ => ?_
    split
    · rfl
    · exact forwarded_emit rfl

theorem keepPendingTx_forwarded (E : Env D) (s : State D) (tx : Tx D) (ierr : InputEcode)
    (bad : Nat) : Silent s (keepPendingTx E s tx ierr bad) Prod.fst := by
  have hfinish : ∀ (s₁ : State D) (a : AddPending), s₁.forwarded = s.forwarded →
      Silent s (do
        let s₂ ← addPendingTxToHashes E s₁ tx
        Except.ok (s₂, a)) Prod.fst :=
    fun s₁ _ h₁ => (addPendingTxToHashes_forwarded E s₁ tx).bind fun _ h₂ => h₂.trans h₁
  unfold keepPendingTx
  dsimp only
  split_ifs
  · rfl
  · exact hfinish _ _ rfl
  · refine (insertPendingTx_forwarded E s tx).bind fun r hr => ?_
    obtain ⟨s₁, kept⟩ := r
    dsimp only at hr ⊢
    split_ifs
    · exact hr
    · exact hfinish _ _ hr

theorem addPendingTx_forwarded (E : Env D) (s : State D) (tx : Tx D) :
    Silent s (addPendingTx E s tx) Prod.fst := by
  unfold addPendingTx
  dsimp only
  split_ifs
  · rfl
  · rfl
  · refine (keeps_any _).bind fun r _ => ?_
    obtain ⟨ierr, bad⟩ := r
    dsimp only
    split
    · exact keepPendingTx_forwarded E s tx _ bad
    · exact keepPendingTx_forwarded E s tx _ bad
    · rfl

theorem recheckPendingTxs_forwarded (E : Env D) (s : State D) :
    Silent s (recheckPendingTxs E s) id := by
  have hremoved : ∀ (txs : List (Tx D)) (s₁ : State D),
      (freePending (txs.foldl (removePendingTxFromHashes E) s₁)).forwarded = s₁.forwarded :=
    fun _ _ => forwarded_foldl fun s tx => removePendingTxFromHashes_forwarded E s tx
  unfold recheckPendingTxs
  dsimp only
  split_ifs
  · rfl
  · rfl
  · refine Ensures.bind (P := fun s₁ : State D => s₁.forwarded = s.forwarded) ?_
      fun _ hs => (forwarded_emit rfl).trans hs
    refine (silent_foldlM fun s₁ tx => ?_).mono fun _ hs => hs.trans (hremoved _ _)
    exact (addPendingTx_forwarded E s₁ tx).bind fun _ hr => hr

theorem dropPendingTx_forwarded (E : Env D) (s : State D) (tx : Tx D) :
    Silent s (dropPendingTx E s tx) id := by
  unfold dropPendingTx
  dsimp only
  split_ifs
  · rfl
  · exact forwarded_emit rfl
  · rfl
  · trivial

-- ---------------------------------------------------------------------------
-- complain.c
-- ---------------------------------------------------------------------------

theorem complaintOn_forwarded (E : Env D) (complaint : Complaint D) (s : State D) (b : Nat) :
    Silent s (complaintOn E complaint s b) id := by
  unfold complaintOn
  dsimp only
  refine (silent_foldlM fun s₁ place => removeTxFromHashes_forwarded E s₁ b _ _).mono fun _ hs => ?_
  exact hs.trans (blockToPending_forwarded _ b)

-- The elaborator is not to run it.
attribute [local irreducible] complaintOn

theorem complaintOnAll_forwarded (E : Env D) (complaint : Complaint D) (fuel : Nat) (s : State D)
    (b : Nat) : Silent s (complaintOnAll E complaint fuel s b) id := by
  induction fuel generalizing s b with
  | zero => rfl
  | succ fuel ih =>
    unfold complaintOnAll
    refine (complaintOn_forwarded E complaint s b).bind fun s₁ h₁ => ?_
    exact (silent_foldlM fun s₂ c => ih s₂ c).mono fun _ hs => hs.trans h₁

-- ---------------------------------------------------------------------------
-- Telling once
-- ---------------------------------------------------------------------------

omit [Digest D] [DecidableEq D] in
/-- The block at `b` has this hash. -/
def Labelled (s : State D) (b : BlockId) (sha : D) : Prop := b < s.numBlocks ∧ (s.blk b).sha = sha

/-- From `s₀` to `s` each item is passed on when it is new, and the labels are right. -/
structure Spreads (s₀ s : State D) : Prop extends TellsOnce Stored State.forwarded s₀ s where
  labels : Labels s
  sha : ∀ b : Nat, b < s₀.numBlocks → (s.blk b).sha = (s₀.blk b).sha

omit [Digest D] [DecidableEq D] in
theorem Spreads.refl (h : Labels s) : Spreads s s := ⟨.refl s, h, fun _ _ => rfl⟩

omit [Digest D] [DecidableEq D] in
theorem Spreads.numBlocks (h : Spreads s₀ s) (hb : b < s₀.numBlocks) : b < s.numBlocks :=
  h.keeps (.block b) hb

omit [Digest D] [DecidableEq D] in
theorem Spreads.trans (h : Spreads s₀ s) (h' : Spreads s s') : Spreads s₀ s' :=
  ⟨h.toTellsOnce.trans h'.toTellsOnce, h'.labels,
    fun b hb => (h'.sha b (h.numBlocks hb)).trans (h.sha b hb)⟩

omit [Digest D] [DecidableEq D] in
theorem Labelled.spreads {sha : D} (hb : Labelled s₀ b sha) (h : Spreads s₀ s) :
    Labelled s b sha :=
  ⟨h.numBlocks hb.1, (h.sha b hb.1).trans hb.2⟩

omit [DecidableEq D] in
theorem sha_of_frame (hf : Frame E s s') (x : Nat) : (s'.blk x).sha = (s.blk x).sha := by
  show (s'.blk x).core.sha = (s.blk x).core.sha
  rw [hf.core]

omit [DecidableEq D] in
/-- A frame keeps the stock. -/
theorem stored_of_frame (hf : Frame E s s') (hs : Stored s item) : Stored s' item := by
  cases item with
  | block b => exact hs.trans_eq hf.numBlocks.symm
  | slot b i j =>
    refine ⟨hs.1.trans_eq hf.numBlocks.symm, ?_⟩
    rw [hf.shardOf_eq]
    exact hs.2
  | complaint sha =>
    obtain ⟨b, hb, hsha, hsome⟩ := hs
    exact ⟨b, hb.trans_eq hf.numBlocks.symm, (sha_of_frame hf b).trans hsha, hf.complaint b hsome⟩
  | tx tx => exact hs

omit [DecidableEq D] in
theorem Labels.frame (h : Labels s) (hf : Frame E s s') : Labels s' where
  distinct b c hb hc hbc := by
    rw [hf.numBlocks] at hb hc
    rw [sha_of_frame hf, sha_of_frame hf] at hbc
    exact h.distinct b c hb hc hbc
  proofs b i j p hp := by
    rw [hf.shardOf_eq] at hp
    rw [sha_of_frame hf]
    exact h.proofs b i j p hp
  placed te hte b i j hloc := by
    rw [hf.numBlocks]
    rcases hf.txhash te hte with hold | ⟨tx, rfl⟩
    · exact h.placed te hold b i j hloc
    · exact absurd hloc (by simp)
  depth b hb := by
    rw [hf.numBlocks] at hb
    unfold Block.depth
    rw [hf.hdr_eq]
    exact h.depth b hb

omit [DecidableEq D] in
/-- A frame in which nothing is passed on. -/
theorem Spreads.frame (h : Spreads s₀ s) (hf : Frame E s s')
    (hsilent : s'.forwarded = s.forwarded) : Spreads s₀ s' :=
  h.trans ⟨.silent (fun _ => stored_of_frame hf) hsilent, h.labels.frame hf,
    fun b _ => sha_of_frame hf b⟩

omit [Digest D] [DecidableEq D] in
theorem Spreads.emit (h : Spreads s₀ s) {e : Event D} (he : e.item = none) :
    Spreads s₀ (s.emit e) := by
  refine h.trans ⟨.silent (fun item hs => ?_) (forwarded_emit he),
    ⟨h.labels.distinct, h.labels.proofs, h.labels.placed, h.labels.depth⟩, fun _ _ => rfl⟩
  cases item with
  | block b => exact hs
  | slot b i j => exact hs
  | complaint sha => exact hs
  | tx tx => exact hs

omit [DecidableEq D] in
/-- The same for calls that may stop. -/
theorem Spreads.silent {x : Res (State D)} {F : Fault → Prop} (h : Spreads s₀ s)
    (hf : Ensures F x (Frame E s)) (hsilent : Silent s x id) : Keeps x (Spreads s₀) :=
  keeps_of_ok fun _ hx => h.frame (hf.of_ok hx) (hsilent.of_ok hx)

-- ---------------------------------------------------------------------------
-- Complaints
-- ---------------------------------------------------------------------------

/-- The block itself gets the complaint. -/
theorem complaintOnAll_marks (complaint : Complaint D) (fuel : Nat) (s : State D) (b : Nat) :
    Keeps (complaintOnAll E complaint (fuel + 1) s b) fun s' => (s'.blk b).complaint.isSome := by
  have hmark : ((s.modBlock b fun blk => { blk with complaint := some complaint }).blk b).complaint
      = some complaint := by
    rw [modBlock_self]
  have hone : Ensures Fault.Plain (complaintOn E complaint s b)
      (Frame E (s.modBlock b fun blk => { blk with complaint := some complaint })) := by
    unfold complaintOn
    refine Ensures.foldlM (fun _ place _ hs => removeTxFromHashes_frame hs b _ _) ?_
    exact Frame.quiet (.refl E _) (blockToPending_quiet (.refl _) b)
  unfold complaintOnAll
  refine (hone.weaken fun _ _ => trivial).bind fun s₁ h₁ => ?_
  refine ((Ensures.foldlM (fun _ c _ hs => complaintOnAll_frame complaint fuel hs c)
    h₁).weaken fun _ _ => trivial).mono fun s₂ h₂ => ?_
  refine h₂.complaint b ?_
  rw [hmark]
  rfl

/-- **A complaint is passed on when it is first published.** -/
theorem publishComplaint_spreads (h : Spreads s₀ s) (complaint : Complaint D)
    (hb : Labelled s b complaint.block) (origin : Option Nat) :
    Keeps (publishComplaint E s b complaint origin) (Spreads s₀) := by
  refine keeps_of_ok fun s' hs' => ?_
  have hf := (publishComplaint_frame (.refl E s) b complaint origin).of_ok hs'
  unfold publishComplaint at hs'
  split_ifs at hs' with hold
  · obtain rfl := Except.ok.inj hs'
    exact h
  · obtain ⟨s₁, hs₁, hs'⟩ := of_bind_eq_ok hs'
    obtain ⟨s₂, hs₂, hs'⟩ := of_bind_eq_ok hs'
    obtain ⟨s₃, hs₃, hs'⟩ := of_bind_eq_ok hs'
    obtain rfl := Except.ok.inj hs'
    have hnone : ¬ Stored s (.complaint complaint.block) := by
      rintro ⟨c, hc, hsha, hsome⟩
      obtain rfl := h.labels.distinct c b hc hb.1 (hsha.trans hb.2.symm)
      exact hold hsome
    have hmark : (s₁.blk b).complaint.isSome := by
      obtain ⟨n, hn⟩ := Nat.exists_eq_add_of_lt hb.1
      rw [hn] at hs₁
      exact (complaintOnAll_marks complaint _ s b).of_ok hs₁
    have hf₁ : Frame E s₁ (s₃.emit (.broadcastToPeers complaint origin)) := by
      refine Frame.emit (Frame.quiet ?_ ((updateBlockPtrsInvalidated_quiet (.refl s₂) b).of_ok hs₃)) _
      exact (recheckPendingTxs_frame (.refl E s₁)).of_ok hs₂
    have hsilent : s₃.forwarded = s.forwarded :=
      ((updateBlockPtrsInvalidated_forwarded s₂ b).of_ok hs₃).trans
        (((recheckPendingTxs_forwarded E s₁).of_ok hs₂).trans
          ((complaintOnAll_forwarded E complaint _ s b).of_ok hs₁))
    have hstored : Stored (s₃.emit (.broadcastToPeers complaint origin))
        (.complaint complaint.block) :=
      ⟨b, hb.1.trans_eq hf.numBlocks.symm, (sha_of_frame hf b).trans hb.2, hf₁.complaint b hmark⟩
    refine h.trans ⟨⟨fun _ => stored_of_frame hf, [.complaint complaint.block], ?_,
      List.nodup_singleton _, fun item hitem => ?_⟩, h.labels.frame hf,
      fun b _ => sha_of_frame hf b⟩
    · rw [forwarded_tell rfl, hsilent]
    · obtain rfl := List.mem_singleton.mp hitem
      exact ⟨hnone, hstored⟩

end Pettycoin
